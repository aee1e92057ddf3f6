import SecureWipeOut.Lib.ByteStore
import Mathlib.Data.List.GetD

/-! # Writing whole sectors

`sector_write` stands in for `_write` where an image is decompressed to a drive: it
passes on whole sectors only and keeps the bytes of a sector that is not complete for
the next call. Every call of `_write` is recorded with the bytes passed to it, and an
arbitrary environment answers it.
-/
namespace SecureWipeOut.SectorWrite
open ByteStore

/-- The static variables, and the calls of `_write` made so far. -/
structure SecState where
  secBuf : ℕ → UInt8
  secBufPos : ℕ
  calls : List (List UInt8)

/-- The first bytes of the sector buffer. -/
def SecState.held (s : SecState) (n : ℕ) : List UInt8 := (List.range n).map s.secBuf

/-- The first bytes of a buffer are copied behind those held. -/
def SecState.fill (s : SecState) (buf : List UInt8) (fillSize : ℕ) : SecState :=
  {s with
    secBuf := overwrite s.secBuf s.secBufPos fillSize fun i => buf.getD i 0
    secBufPos := s.secBufPos + fillSize}

variable (env : ℕ → List UInt8 → ℤ)

def write (data : List UInt8) (s : SecState) : ℤ × SecState :=
  (env s.calls.length data,{s with calls := s.calls ++ [data]})

/-- The last part of `sector_write`: the full sectors behind the first bytes, and what
is left over. -/
def writeFull (secSize : ℕ) (buf : List UInt8) (fillSize : ℕ) (s : SecState) : ℤ × SecState :=
  let count := buf.length
  let secNum := (count - fillSize) / secSize
  let w := write env ((buf.drop fillSize).take (secNum * secSize)) s
  if w.1 < 0 then w
  else if w.1 ≠ (secNum * secSize : ℕ) then
    -- the sum is an int, an overflow of which is detected
    (if fillSize + w.1 < 2 ^ 31 then fillSize + w.1 else -1,w.2)
  else
    let left := count - fillSize - secNum * secSize
    let s := {w.2 with secBufPos := left}
    if secSize ≤ left then (-1,s)
    else if left ≠ 0 then
      (count,{s with secBuf := overwrite s.secBuf 0 left fun i => buf.getD (fillSize + secNum * secSize + i) 0})
    else (count,s)

/-- The sector size of the drive, where 0 stands for the usual one. -/
def secSize (sectorSize : ℕ) : ℕ := if sectorSize = 0 then 512 else sectorSize

def sectorWrite (sectorSize : ℕ) (buf : List UInt8) (s : SecState) : ℤ × SecState :=
  let count := buf.length
  let secSize := secSize sectorSize
  if 64 * 1024 < secSize then (-1,s)
  else if 2 ^ 30 < count then (-1,s)
  else if s.secBufPos = 0 ∧ count % secSize = 0 then write env buf s
  else if 0 < s.secBufPos then
    if secSize < s.secBufPos then (-1,s)
    else
      let fillSize := min (secSize - s.secBufPos) count
      let s := s.fill buf fillSize
      if s.secBufPos < secSize then (count,s)
      else
        let w := write env (s.held secSize) {s with secBufPos := 0}
        if w.1 ≠ secSize then w else writeFull env secSize buf fillSize w.2
  else writeFull env secSize buf 0 s

/-- The state after a sequence of calls. -/
def sectorWrites (sectorSize : ℕ) (bufs : List (List UInt8)) (s : SecState) : SecState :=
  bufs.foldl (fun s buf => (sectorWrite env sectorSize buf s).2) s

section Specification

/-- The environment in which every write succeeds in full. -/
def fullWrite : ℕ → List UInt8 → ℤ := fun _ data => data.length

/-- The calls that are not refused. -/
def accepted (sectorSize : ℕ) (buf : List UInt8) : Bool :=
  decide (secSize sectorSize ≤ 64 * 1024) && decide (buf.length ≤ 2 ^ 30)

/-- What has been passed on, in whole sectors, and what is held make up the input. -/
structure Buffered (secSize : ℕ) (input : List UInt8) (s : SecState) : Prop where
  bytes : s.calls.flatten ++ s.held s.secBufPos = input
  sectors : ∀ data ∈ s.calls, secSize ∣ data.length
  pos : s.secBufPos < secSize

end Specification

section Steps
variable {size : ℕ} {input : List UInt8} {s : SecState}

theorem map_getD_range {buf : List UInt8} {k n : ℕ} (h : k + n ≤ buf.length) :
    (List.range n).map (fun i => buf.getD (k + i) 0) = (buf.drop k).take n := by
  apply List.ext_getElem
  · simp only [List.length_map,List.length_range,List.length_take,List.length_drop]
    omega
  · intro i hi hi'
    simp only [List.length_map,List.length_range] at hi
    simp only [List.getElem_map,List.getElem_range,List.getElem_take,List.getElem_drop]
    exact List.getD_eq_getElem _ _ (by omega)

/-- Copying to the buffer at a position keeps what is held before it. -/
theorem held_overwrite (secBuf data : ℕ → UInt8) (pos n : ℕ) :
    (List.range (pos + n)).map (overwrite secBuf pos n data) =
      (List.range pos).map secBuf ++ (List.range n).map data := by
  rw [List.range_add,List.map_append,List.map_map]
  refine congrArg₂ _ (List.map_congr_left fun i hi => ?_) (List.map_congr_left fun i hi => ?_)
  · exact overwrite_outside _ _ (Or.inl (List.mem_range.mp hi))
  · have hi := List.mem_range.mp hi
    rw [Function.comp_apply,overwrite_inside _ _ (by omega) (by omega),Nat.add_sub_cancel_left]

theorem write_full (data : List UInt8) (s : SecState) :
    write fullWrite data s = ((data.length : ℤ),{s with calls := s.calls ++ [data]}) := rfl

/-- On a sector boundary, passing on whole sectors. -/
theorem Buffered.write (hs : Buffered size input s) (hpos : s.secBufPos = 0) {data : List UInt8}
    (hdata : size ∣ data.length) : Buffered size (input ++ data) {s with calls := s.calls ++ [data]} := by
  refine ⟨?_,?_,hs.pos⟩
  · have hbytes := hs.bytes
    rw [hpos] at hbytes
    simp only [SecState.held,List.range_zero,List.map_nil,List.append_nil] at hbytes
    simp [SecState.held,hpos,hbytes]
  · intro d hd
    rcases List.mem_append.mp hd with hd | hd
    · exact hs.sectors d hd
    · rw [List.mem_singleton.mp hd]
      exact hdata

/-- On a sector boundary, holding the bytes of a sector that is not complete. -/
theorem Buffered.hold (hs : Buffered size input s) (hpos : s.secBufPos = 0) (data : ℕ → UInt8) {n : ℕ}
    (hn : n < size) : Buffered size (input ++ (List.range n).map data)
      {s with secBuf := overwrite s.secBuf 0 n data, secBufPos := n} := by
  have hbytes := hs.bytes
  rw [hpos] at hbytes
  have hheld := held_overwrite s.secBuf data 0 n
  rw [Nat.zero_add] at hheld
  refine ⟨?_,hs.sectors,hn⟩
  simp only [SecState.held,List.range_zero,List.map_nil,List.append_nil] at hbytes
  simp [SecState.held,hheld,hbytes]

/-- The end of a call: the full sectors are passed on and the rest is held. -/
theorem writeFull_buffered (hs : Buffered size input s) (hpos : s.secBufPos = 0) (buf : List UInt8)
    {n : ℕ} (hn : n ≤ buf.length) : (writeFull fullWrite size buf n s).1 = buf.length ∧
      Buffered size (input ++ buf.drop n) (writeFull fullWrite size buf n s).2 := by
  have hsize : 0 < size := by
    have := hs.pos
    omega
  let full := (buf.length - n) / size * size
  have hfull : full ≤ buf.length - n := Nat.div_mul_le_self _ _
  have hleft : buf.length - n - full < size := by
    have hmod := Nat.div_add_mod' (buf.length - n) size
    have hlt := Nat.mod_lt (buf.length - n) hsize
    omega
  have hlen : ((buf.drop n).take full).length = full := by
    rw [List.length_take,List.length_drop]
    omega
  have hdvd : size ∣ ((buf.drop n).take full).length := by
    rw [hlen]
    exact Nat.dvd_mul_left ..
  have hwritten := hs.write hpos hdvd
  have hrest : (List.range (buf.length - n - full)).map (fun i => buf.getD (n + full + i) 0) =
      (buf.drop n).drop full := by
    rw [map_getD_range (by omega),List.drop_drop,List.take_of_length_le]
    rw [List.length_drop]
    omega
  have hdrop : input ++ buf.drop n = input ++ (buf.drop n).take full ++ (buf.drop n).drop full := by
    rw [List.append_assoc,List.take_append_drop]
  have hheld := hwritten.hold hpos (fun i => buf.getD (n + full + i) 0) hleft
  rw [hrest,← hdrop] at hheld
  have hw : (write fullWrite ((buf.drop n).take full) s).1 = (full : ℤ) := by rw [write_full,hlen]
  have hneg : ¬ (write fullWrite ((buf.drop n).take full) s).1 < 0 := by omega
  have hok : ¬ (write fullWrite ((buf.drop n).take full) s).1 ≠ (full : ℕ) := by simp [hw]
  rw [writeFull]
  dsimp only
  rw [if_neg hneg,if_neg hok,if_neg (by omega)]
  split
  · exact ⟨rfl,hheld⟩
  · next hzero =>
    have hzero : buf.length - n - full = 0 := not_not.mp hzero
    refine ⟨rfl,?_⟩
    rw [hzero,List.range_zero,List.map_nil] at hrest
    rw [hdrop,← hrest,List.append_nil,hzero,← hpos]
    exact hwritten

theorem Buffered.fill (hs : Buffered size input s) {buf : List UInt8} {n : ℕ} (hn : n ≤ buf.length) :
    s.calls.flatten ++ (s.fill buf n).held (s.secBufPos + n) = input ++ buf.take n := by
  have htake : (List.range n).map (fun i => buf.getD i 0) = buf.take n := by
    have h := map_getD_range (show 0 + n ≤ buf.length by omega)
    simpa only [Nat.zero_add,List.drop_zero] using h
  have hheld := held_overwrite s.secBuf (fun i => buf.getD i 0) s.secBufPos n
  rw [htake] at hheld
  rw [← hs.bytes,List.append_assoc]
  exact congrArg (s.calls.flatten ++ ·) hheld

/-- A call that is accepted takes the whole buffer. -/
theorem sectorWrite_buffered {sectorSize : ℕ} {buf : List UInt8}
    (hs : Buffered (secSize sectorSize) input s) (hbuf : accepted sectorSize buf = true) :
    (sectorWrite fullWrite sectorSize buf s).1 = buf.length ∧
      Buffered (secSize sectorSize) (input ++ buf) (sectorWrite fullWrite sectorSize buf s).2 := by
  simp only [accepted,Bool.and_eq_true,decide_eq_true_eq] at hbuf
  rw [sectorWrite]
  dsimp only
  rw [if_neg (not_lt.mpr hbuf.1),if_neg (not_lt.mpr hbuf.2)]
  split
  next haligned => exact ⟨rfl,hs.write haligned.1 (Nat.dvd_of_mod_eq_zero haligned.2)⟩
  next =>
    split
    next hpos =>
      have hlt := hs.pos
      rw [if_neg (not_lt.mpr hlt.le)]
      generalize hmin : min (secSize sectorSize - s.secBufPos) buf.length = n
      have hn : n ≤ buf.length := by omega
      have hfill := hs.fill hn
      have hfilled : (s.fill buf n).secBufPos = s.secBufPos + n := rfl
      split
      next hpart =>
        obtain rfl : n = buf.length := by omega
        rw [List.take_length] at hfill
        exact ⟨rfl,hfill,hs.sectors,hpart⟩
      next hfull =>
        have hsize : s.secBufPos + n = secSize sectorSize := by omega
        rw [hsize] at hfill
        -- the sector is complete and is passed on
        have hlen : ((s.fill buf n).held (secSize sectorSize)).length = secSize sectorSize := by
          simp [SecState.held]
        have hwritten : Buffered (secSize sectorSize) (input ++ buf.take n)
            ⟨(s.fill buf n).secBuf,0,s.calls ++ [(s.fill buf n).held (secSize sectorSize)]⟩ := by
          refine ⟨?_,?_,by dsimp only; omega⟩
          · rw [← hfill]
            simp [SecState.held]
          · intro data hdata
            rcases List.mem_append.mp hdata with hdata | hdata
            · exact hs.sectors data hdata
            · rw [List.mem_singleton.mp hdata,hlen]
        have hend := writeFull_buffered hwritten rfl buf hn
        rw [List.append_assoc,List.take_append_drop] at hend
        rw [if_neg]
        · exact hend
        · rw [write_full,hlen]
          exact not_not.mpr rfl
    next hpos =>
      have hstart : s.secBufPos = 0 := by omega
      have hend := writeFull_buffered hs hstart buf (Nat.zero_le _)
      rwa [List.drop_zero] at hend

theorem sectorWrite_refused {sectorSize : ℕ} {buf : List UInt8} (hbuf : accepted sectorSize buf = false) :
    sectorWrite env sectorSize buf s = (-1,s) := by
  rw [sectorWrite]
  dsimp only
  split
  next => rfl
  next hsize =>
    rw [if_pos]
    simp only [accepted,Bool.and_eq_false_iff,decide_eq_false_iff_not] at hbuf
    rcases hbuf with h | h
    · exact absurd (not_lt.mp hsize) h
    · exact not_le.mp h

end Steps

section Runs

theorem secSize_pos (sectorSize : ℕ) : 0 < secSize sectorSize := by
  unfold secSize
  split <;> omega

theorem sectorWrites_buffered (sectorSize : ℕ) (bufs : List (List UInt8)) {input : List UInt8}
    {s : SecState} (hs : Buffered (secSize sectorSize) input s) :
    Buffered (secSize sectorSize) (input ++ (bufs.filter (accepted sectorSize)).flatten)
      (sectorWrites fullWrite sectorSize bufs s) := by
  induction bufs generalizing input s with
  | nil => simpa [sectorWrites] using hs
  | cons buf bufs ih =>
    rw [sectorWrites,List.foldl_cons,← sectorWrites]
    cases hbuf : accepted sectorSize buf with
    | true =>
      rw [List.filter_cons_of_pos hbuf,List.flatten_cons,← List.append_assoc]
      exact ih (sectorWrite_buffered hs hbuf).2
    | false =>
      rw [List.filter_cons_of_neg (by simp [hbuf]),sectorWrite_refused fullWrite hbuf]
      exact ih hs

end Runs

end SecureWipeOut.SectorWrite
