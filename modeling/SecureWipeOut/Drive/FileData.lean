import SecureWipeOut.Lib.ByteStore
import SecureWipeOut.Lib.CInt
import SecureWipeOut.Drive.Sectors
import Mathlib.Data.List.GetD

/-! # Byte access to a drive

`read_data` and `write_data` of ms-sys give access to any range of bytes by way of the
sectors that cover it. Positions and sector numbers are 64-bit values.
-/
namespace SecureWipeOut.FileData
open ByteStore CInt Sectors

def maxDataLen : ℕ := 65536

section Model
variable {σ : Type*} (h : Handle σ) (largeDrive : Bool)

/-- `write_sectors` uses the sector size in two products of 64 bits only. -/
def writeSectors64 (sectorSize startSector nSectors : ℕ) (buf : ℕ → UInt8) (s : σ) : ℤ × σ :=
  writeSectors h largeDrive 1 (qword (startSector * sectorSize)) (qword (nSectors * sectorSize)) buf s

def readSectors64 (sectorSize startSector nSectors : ℕ) (s : σ) : (ℤ × (ℕ → UInt8)) × σ :=
  readSectors h 1 (qword (startSector * sectorSize)) (qword (nSectors * sectorSize)) s

/-- The sectors of a range: the first one and their number. -/
def sectorsOf (bytesPerSector position len : ℕ) : ℕ × ℕ :=
  let startSector := position / bytesPerSector
  let endSector := qword (position + len + bytesPerSector - 1) / bytesPerSector
  (startSector,qsub endSector startSector)

/-- The start of both functions, up to the sectors read into the buffer; `none` stands
for a return of 0. -/
def fetch (bytesPerSector position len : ℕ) (aucBuf : ℕ → UInt8) (s : σ) : Option (ℕ → UInt8) × σ :=
  let sectors := sectorsOf bytesPerSector position len
  if maxDataLen < qword (sectors.2 * bytesPerSector) then (none,s)
  else if 0xFFFFFFFF < len then (none,s)
  else
    let r := readSectors64 h bytesPerSector sectors.1 sectors.2 s
    if r.1.1 ≤ 0 then (none,r.2) else (some (overwrite aucBuf 0 r.1.1.toNat r.1.2),r.2)

/-- The data read, or nothing for a return of 0. The memory allocated holds arbitrary
bytes. -/
def readData (bytesPerSector offset position len : ℕ) (aucBuf : Option (ℕ → UInt8)) (s : σ) :
    Option (List UInt8) × σ :=
  match aucBuf with
  | none => (none,s)
  | some aucBuf =>
    let position := qword (position + offset)
    let r := fetch h bytesPerSector position len aucBuf s
    let start := qword ((sectorsOf bytesPerSector position len).1 * bytesPerSector)
    (r.1.map fun aucBuf => (List.range len).map fun i => aucBuf (qsub position start + i),r.2)

/-- Whether the function returns 1. The buffer of its own may not be given. -/
def containsData (bytesPerSector offset position : ℕ) (pData : List UInt8) (allocated : Bool)
    (aucBuf : Option (ℕ → UInt8)) (s : σ) : Bool × σ :=
  if !allocated then (false,s)
  else
    match readData h bytesPerSector offset position pData.length aucBuf s with
    | (none,s) => (false,s)
    | (some aucBuf,s) => (decide (pData = aucBuf),s)

/-- Whether the function returns 1. -/
def writeData (bytesPerSector offset position : ℕ) (pData : List UInt8) (aucBuf : Option (ℕ → UInt8))
    (s : σ) : Bool × σ :=
  match aucBuf with
  | none => (false,s)
  | some aucBuf =>
    let position := qword (position + offset)
    let sectors := sectorsOf bytesPerSector position pData.length
    let start := qword (sectors.1 * bytesPerSector)
    match fetch h bytesPerSector position pData.length aucBuf s with
    | (none,s) => (false,s)
    | (some aucBuf,s) =>
      let aucBuf := overwrite aucBuf (qsub position start) pData.length fun i => pData.getD i 0
      let w := writeSectors64 h largeDrive bytesPerSector sectors.1 sectors.2 aucBuf s
      (decide (0 < w.1),w.2)

end Model

section Device

/-- A drive on which every transfer succeeds. -/
structure Device where
  data : ℕ → UInt8
  pos : ℕ

/-- A position is a signed value of 64 bits, and a negative one is refused. -/
def device : Handle Device where
  getFilePointer d := (some d.pos,d)
  setFilePointerEx li d := if li < 2 ^ 63 then (true,{d with pos := li}) else (false,d)
  readFile n d := (⟨true,n,fun i => d.data (d.pos + i)⟩,{d with pos := d.pos + n})
  writeFile buf n d := (⟨true,n⟩,⟨overwrite d.data d.pos n buf,d.pos + n⟩)
  cancelled d := (false,d)
  read_le _ _ := le_refl _
  write_le _ _ _ := le_refl _

variable {largeDrive : Bool} {start size : ℕ}

theorem readSectors_device (hsize : size ≤ 0xFFFFFFFF) (d : Device) :
    readSectors device 1 start size d = if start < 2 ^ 63 then
      (((size : ℤ),fun i => d.data (start + i)),{d with pos := start + size}) else ((-1,fun _ => 0),d) := by
  rw [readSectors]
  simp only [Nat.mul_one]
  rw [if_neg (not_lt.mpr hsize)]
  by_cases hstart : start < 2 ^ 63
  · have hseek : device.setFilePointerEx start d = (true,⟨d.data,start⟩) := if_pos hstart
    rw [hseek,if_pos hstart]
    rfl
  · have hseek : device.setFilePointerEx start d = (false,d) := if_neg hstart
    rw [hseek,if_neg hstart]
    rfl

theorem writeSectors_device (hsize : size ≤ 0xFFFFFFFF) (hstart : start < 2 ^ 63) (buf : ℕ → UInt8)
    (d : Device) : writeSectors device largeDrive 1 start size buf d =
      ((size : ℤ),⟨overwrite d.data start size buf,start + size⟩) := by
  have hretry : writeFileWithRetry device largeDrive buf size writeRetries ⟨d.data,start⟩ =
      (⟨true,size⟩,⟨overwrite d.data start size buf,start + size⟩) := by
    simp [writeFileWithRetry,writeRetries,writeTries,device]
  rw [writeSectors]
  simp only [Nat.mul_one]
  rw [if_neg (not_lt.mpr hsize)]
  have hseek : device.setFilePointerEx start d = (true,⟨d.data,start⟩) := if_pos hstart
  rw [hseek]
  dsimp only
  rw [hretry]
  simp

end Device

section Ranges
variable {bps addr len : ℕ}

/-- The range of the sectors that cover a range: its start and its length. -/
def coverStart (bps addr : ℕ) : ℕ := floorAlign addr bps
def coverLen (bps addr len : ℕ) : ℕ := ceilAlign (addr + len) bps - floorAlign addr bps

/-- The ranges that are accepted. -/
def Accepted (bps addr len : ℕ) : Prop :=
  0 < coverLen bps addr len ∧ coverLen bps addr len ≤ maxDataLen ∧ coverStart bps addr < 2 ^ 63

theorem cover_bounds (hb : 0 < bps) (addr len : ℕ) : coverStart bps addr ≤ addr ∧
    addr < coverStart bps addr + bps ∧ addr + len ≤ coverStart bps addr + coverLen bps addr len := by
  have h1 := floorAlign_le addr bps
  have h2 := lt_floorAlign_add addr hb
  have h3 := le_ceilAlign (addr + len) hb
  unfold coverStart coverLen
  omega

/-- Below the limits of the type, the sectors are those that cover the range. -/
theorem sectorsOf_eq (hb : 0 < bps) (h : addr + len + bps < 2 ^ 64) :
    (sectorsOf bps addr len).1 * bps = coverStart bps addr ∧
      (sectorsOf bps addr len).2 * bps = coverLen bps addr len := by
  have hend : qword (addr + len + bps - 1) = addr + len + bps - 1 := qword_of_lt (by omega)
  have hle : addr / bps ≤ (addr + len + bps - 1) / bps := Nat.div_le_div_right (by omega)
  have hlt : (addr + len + bps - 1) / bps < 2 ^ 64 := (Nat.div_le_self _ _).trans_lt (by omega)
  refine ⟨rfl,?_⟩
  simp only [sectorsOf,hend,qsub_of_le hle hlt,Nat.sub_mul]
  rfl

theorem fetch_refused (hb : 0 < bps) (hb' : bps < 2 ^ 32) (hat : addr < 2 ^ 64)
    (hno : ¬ Accepted bps addr len) (mem : ℕ → UInt8) (d : Device) :
    (fetch device bps addr len mem d).1 = none ∧ (fetch device bps addr len mem d).2.data = d.data := by
  rw [fetch]
  dsimp only
  split
  next => exact ⟨rfl,rfl⟩
  next hmax =>
    split
    next => exact ⟨rfl,rfl⟩
    next hlen =>
      have hstart : (sectorsOf bps addr len).1 * bps = coverStart bps addr := rfl
      have hle := (cover_bounds hb addr len).1
      have hqstart : qword (coverStart bps addr) = coverStart bps addr := qword_of_lt (by omega)
      rw [readSectors64,hstart,hqstart,readSectors_device (by unfold maxDataLen at hmax; omega)]
      split
      next hlt =>
        -- nothing wraps below the largest position, so there is no sector to read
        have hcover := cover_bounds hb addr len
        obtain ⟨-,hsize⟩ := sectorsOf_eq hb (show addr + len + bps < 2 ^ 64 by omega)
        have hzero : qword ((sectorsOf bps addr len).2 * bps) = 0 := by
          rw [hsize] at hmax ⊢
          have hlt' : coverLen bps addr len < 2 ^ 64 := by
            have := ceilAlign_lt (addr + len) hb
            unfold coverLen
            omega
          rw [qword_of_lt hlt'] at hmax ⊢
          by_contra hne
          exact hno ⟨Nat.pos_of_ne_zero hne,not_lt.mp hmax,hlt⟩
        rw [hzero,if_pos (by simp)]
        exact ⟨rfl,rfl⟩
      next =>
        rw [if_pos (by simp)]
        exact ⟨rfl,rfl⟩

theorem fetch_accepted (hb : 0 < bps) (hb' : bps < 2 ^ 32) (h : Accepted bps addr len)
    (mem : ℕ → UInt8) (d : Device) : fetch device bps addr len mem d =
      (some (overwrite mem 0 (coverLen bps addr len) fun i => d.data (coverStart bps addr + i)),
        {d with pos := coverStart bps addr + coverLen bps addr len}) := by
  obtain ⟨hpos,hmax,hstart⟩ := h
  have hcover := cover_bounds hb addr len
  unfold maxDataLen at hmax
  obtain ⟨h1,h2⟩ := sectorsOf_eq hb (show addr + len + bps < 2 ^ 64 by omega)
  have hq1 : qword (coverStart bps addr) = coverStart bps addr := qword_of_lt (by omega)
  have hq2 : qword (coverLen bps addr len) = coverLen bps addr len := qword_of_lt (by omega)
  rw [fetch]
  dsimp only
  rw [readSectors64,h1,h2,hq1,hq2,if_neg (by unfold maxDataLen; omega),if_neg (by omega),
    readSectors_device (by omega),if_pos hstart]
  dsimp only
  rw [if_neg (by omega),Int.toNat_natCast]

end Ranges

section Access
variable {bps : ℕ}

theorem qsub_coverStart (hb : 0 < bps) {addr : ℕ} (hat : addr < 2 ^ 64) :
    qsub addr (qword (addr / bps * bps)) = addr - coverStart bps addr := by
  have hle := (cover_bounds hb addr 0).1
  have hq : qword (coverStart bps addr) = coverStart bps addr := qword_of_lt (by omega)
  change qsub addr (qword (coverStart bps addr)) = _
  rw [hq,qsub_of_le hle hat]

/-- The sectors that cover an accepted range are read, changed and written back. -/
theorem writeData_accepted (largeDrive : Bool) (hb : 0 < bps) (hb' : bps < 2 ^ 32)
    {offset position : ℕ} {pData : List UInt8}
    (h : Accepted bps (qword (position + offset)) pData.length) (mem : ℕ → UInt8) (d : Device) :
    (writeData device largeDrive bps offset position pData (some mem) d).1 = true ∧
      (writeData device largeDrive bps offset position pData (some mem) d).2.data =
        overwrite d.data (qword (position + offset)) pData.length fun i => pData.getD i 0 := by
  have hat : qword (position + offset) < 2 ^ 64 := Nat.mod_lt _ (by positivity)
  rw [writeData]
  dsimp only
  generalize qword (position + offset) = addr at h hat
  rw [fetch_accepted hb hb' h]
  obtain ⟨hpos,hmax,hstart⟩ := h
  have hcover := cover_bounds hb addr pData.length
  unfold maxDataLen at hmax
  obtain ⟨h1,h2⟩ := sectorsOf_eq hb (show addr + pData.length + bps < 2 ^ 64 by omega)
  have hq2 : qword (coverLen bps addr pData.length) = coverLen bps addr pData.length :=
    qword_of_lt (by omega)
  have hq1 : qword (coverStart bps addr) = coverStart bps addr := qword_of_lt (by omega)
  dsimp only
  rw [writeSectors64,h1,h2,hq1,hq2,writeSectors_device (by omega) hstart,qsub_of_le hcover.1 hat]
  refine ⟨decide_eq_true (by dsimp only; omega),?_⟩
  exact overwrite_patch d.data mem _ hcover.1 hcover.2.2

theorem writeData_refused (largeDrive : Bool) (hb : 0 < bps) (hb' : bps < 2 ^ 32)
    {offset position : ℕ} {pData : List UInt8}
    (h : ¬ Accepted bps (qword (position + offset)) pData.length) (mem : ℕ → UInt8) (d : Device) :
    (writeData device largeDrive bps offset position pData (some mem) d).1 = false ∧
      (writeData device largeDrive bps offset position pData (some mem) d).2.data = d.data := by
  have hat : qword (position + offset) < 2 ^ 64 := Nat.mod_lt _ (by positivity)
  obtain ⟨hnone,hdata⟩ := fetch_refused hb hb' hat h mem d
  rw [writeData]
  dsimp only
  generalize fetch device bps (qword (position + offset)) pData.length mem d = r at hnone hdata ⊢
  obtain ⟨r,d'⟩ := r
  subst hnone
  exact ⟨rfl,hdata⟩

theorem readData_accepted (hb : 0 < bps) (hb' : bps < 2 ^ 32) {offset position len : ℕ}
    (h : Accepted bps (qword (position + offset)) len) (mem : ℕ → UInt8) (d : Device) :
    (readData device bps offset position len (some mem) d).1 =
      some ((List.range len).map fun i => d.data (qword (position + offset) + i)) := by
  have hat : qword (position + offset) < 2 ^ 64 := Nat.mod_lt _ (by positivity)
  rw [readData]
  dsimp only
  generalize qword (position + offset) = addr at h hat
  rw [fetch_accepted hb hb' h]
  have hcover := cover_bounds hb addr len
  have hoffset : qsub addr (qword ((sectorsOf bps addr len).1 * bps)) = addr - coverStart bps addr :=
    qsub_coverStart hb hat
  rw [hoffset,Option.map_some]
  refine congrArg some (List.map_congr_left fun i hi => ?_)
  have hi := List.mem_range.mp hi
  rw [overwrite_inside _ _ (by omega) (by omega)]
  exact congrArg d.data (by omega)

/-- On a drive whose transfers succeed, an accepted range receives exactly the data and
is read back as it was written; any other one is refused and nothing changes. -/
theorem writeData_exact (largeDrive : Bool) (hb : 0 < bps) (hb' : bps < 2 ^ 32) (offset position : ℕ)
    (pData : List UInt8) (mem mem' : ℕ → UInt8) (d : Device) :
    (Accepted bps (qword (position + offset)) pData.length →
      (writeData device largeDrive bps offset position pData (some mem) d).1 = true ∧
      (writeData device largeDrive bps offset position pData (some mem) d).2.data =
        overwrite d.data (qword (position + offset)) pData.length (fun i => pData.getD i 0) ∧
      (readData device bps offset position pData.length (some mem')
        (writeData device largeDrive bps offset position pData (some mem) d).2).1 = some pData) ∧
    (¬ Accepted bps (qword (position + offset)) pData.length →
      (writeData device largeDrive bps offset position pData (some mem) d).1 = false ∧
      (writeData device largeDrive bps offset position pData (some mem) d).2.data = d.data) := by
  refine ⟨fun h => ?_,fun h => writeData_refused largeDrive hb hb' h mem d⟩
  obtain ⟨hone,hdata⟩ := writeData_accepted largeDrive hb hb' h mem d
  refine ⟨hone,hdata,?_⟩
  rw [readData_accepted hb hb' h,hdata]
  refine congrArg some (List.ext_getElem (by simp) ?_)
  intro i hi hi'
  rw [List.getElem_map,List.getElem_range,overwrite_inside _ _ (by omega) (by omega),
    Nat.add_sub_cancel_left]
  exact List.getD_eq_getElem _ _ hi'

theorem writeData_exact_byte :
    (writeData device false 512 0 3 [1] (some fun _ => 0) ⟨fun _ => 0,0⟩).1 = true := by
  have haccepted : Accepted 512 (qword (3 + 0)) [(1 : UInt8)].length := ⟨by decide,by decide,by decide⟩
  exact ((writeData_exact false (by decide) (by decide) 0 3 [1] (fun _ => 0) (fun _ => 0)
    ⟨fun _ => 0,0⟩).1 haccepted).1

/-- The sectors that cover a range may be longer than the buffer although the range is not. -/
theorem writeData_large : (List.replicate 65536 (1 : UInt8)).length ≤ maxDataLen ∧
    (writeData device false 4096 0 1 (List.replicate 65536 1) (some fun _ => 0) ⟨fun _ => 0,0⟩).2.data 1 ≠
      1 := by
  have hrefused : ¬ Accepted 4096 (qword (1 + 0)) (List.replicate 65536 (1 : UInt8)).length := by
    rw [List.length_replicate]
    intro h
    exact absurd h.2.1 (by decide)
  obtain ⟨-,hdata⟩ := writeData_refused false (by decide) (by decide) hrefused (fun _ => 0) ⟨fun _ => 0,0⟩
  rw [List.length_replicate,hdata]
  decide

end Access

end SecureWipeOut.FileData
