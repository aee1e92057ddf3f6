import SecureWipeOut.Parser.Thumbprints

/-! # The thumbprints of a text

A row is overwritten completely by the digits of a thumbprint, whatever shorter lines have
left in it, so the list is right as long as the rows have memory. That fails only for texts
of so many lines that 32 bits do not hold the bytes of a row for each.
-/
namespace SecureWipeOut.Thumbprints
open CInt CText Loop Text

section Counting
variable {text : Buf}

theorem charAt_ne_nul (hnul : nul ∉ text) {i : ℕ} (hi : i < text.length) : charAt text i ≠ nul := by
  intro h
  rw [charAt_of_drop (List.drop_eq_getElem_cons hi)] at h
  exact hnul (h ▸ List.getElem_mem hi)

theorem run_countStep (hnul : nul ∉ text) (hlen : text.length < 2 ^ 32) {rest : List Char} {i n : ℕ}
    (hrest : text.drop i = rest) (hi : i ≤ text.length) (hn : n < 2 ^ 32) :
    run (countStep text) (rest.length + 1) (i,n) = some (dword (n + rest.count '\n')) := by
  induction rest generalizing i n with
  | nil =>
    rw [run,countStep,if_pos (charAt_of_drop_nil hrest),List.count_nil,Nat.add_zero,dword_of_lt hn]
  | cons c rest ih =>
    have hc := charAt_of_drop hrest
    have hlt : i < text.length := by
      by_contra hge
      rw [List.drop_eq_nil_iff.mpr (not_lt.mp hge)] at hrest
      cases hrest
    have hne := charAt_ne_nul hnul hlt
    rw [run,countStep,if_neg hne]
    dsimp only
    rw [dword_of_lt (show i + 1 < 2 ^ 32 by omega)]
    split
    case isTrue hbreak =>
      rw [hc] at hbreak
      have hn' : dword (n + 1) < 2 ^ 32 := Nat.mod_lt _ (Nat.two_pow_pos 32)
      rw [List.length_cons,ih (drop_succ hrest) hlt hn',hbreak,List.count_cons_self]
      unfold dword
      congr 1
      omega
    case isFalse hbreak =>
      rw [hc] at hbreak
      rw [List.length_cons,ih (drop_succ hrest) hlt hn,List.count_cons_of_ne hbreak]

/-- A 32-bit index does not come to the end of a longer text. -/
theorem run_countStep_long (hnul : nul ∉ text) (hlen : 2 ^ 32 ≤ text.length) (fuel : ℕ) {i n : ℕ}
    (hi : i < 2 ^ 32) : run (countStep text) fuel (i,n) = none := by
  induction fuel generalizing i n with
  | zero => rfl
  | succ fuel ih =>
    rw [run,countStep,if_neg (charAt_ne_nul hnul (by omega))]
    exact ih (Nat.mod_lt _ (by decide))

end Counting

section Digits
variable {text : Buf}

/-- The second digit of a byte shifts out what was there before the first. -/
theorem shift_twice (x a b : UInt8) : (x <<< 4 ||| a) <<< 4 ||| b = a <<< 4 ||| b := by
  have hout : (x.toBitVec <<< 4 ||| a.toBitVec) <<< 4 = a.toBitVec <<< 4 := by
    rw [BitVec.shiftLeft_or_distrib,← BitVec.shiftLeft_add,BitVec.shiftLeft_eq_zero (by decide),
      BitVec.zero_or]
  apply UInt8.toBitVec_inj.mp
  exact congrArg (· ||| b.toBitVec) hout

/-- What the digits of a line make of the memory from the start of a row on. -/
def fill : List UInt8 → List Char → List UInt8
  | _ :: old, a :: b :: ds => (fromHexAscii a <<< 4 ||| fromHexAscii b) :: fill old ds
  | x :: old, [a] => (x <<< 4 ||| fromHexAscii a) :: old
  | old, _ => old

@[simp] theorem fill_nil (old : List UInt8) : fill old [] = old := by cases old <;> rfl

theorem length_fill (old : List UInt8) (ds : List Char) : (fill old ds).length = old.length := by
  fun_induction fill old ds with
  | case1 x old a b ds ih => rw [List.length_cons,ih,List.length_cons]
  | case2 x old a => rfl
  | case3 => rfl

/-- An even number of digits leaves nothing of the old bytes. -/
theorem fill_even {old : List UInt8} {ds : List Char} {n : ℕ} (hds : ds.length = 2 * n) (hn : n ≤ old.length) :
    fill old ds = hexBytes ds ++ old.drop n := by
  induction n generalizing old ds with
  | zero =>
    rw [List.length_eq_zero_iff.mp hds]
    cases old <;> rfl
  | succ n ih =>
    match old,ds with
    | x :: old, a :: b :: ds =>
      simp only [List.length_cons] at hds hn
      rw [fill,ih (by omega) (by omega),hexBytes,List.cons_append,List.drop_succ_cons]
    | [], _ => simp at hn
    | _ :: _, [] => simp at hds
    | _ :: _, [_] => simp only [List.length_singleton] at hds; omega

theorem shiftIn_of_lt {done old : List UInt8} {x : UInt8} (c : Char) :
    shiftIn (done ++ x :: old) done.length c = some (done ++ (x <<< 4 ||| fromHexAscii c) :: old) := by
  rw [shiftIn,if_pos (by simp)]
  simp

theorem shiftIn_of_end {done : List UInt8} (c : Char) : shiftIn done done.length c = none :=
  if_neg (lt_irrefl _)

theorem digitLoop_stop {left : ℕ} {s : Scan} (h : left = 0 ∨ isHexAscii (charAt text s.i) = false) :
    digitLoop text left s = some s := by
  cases left with
  | zero => rfl
  | succ left =>
    rw [digitLoop]
    exact if_pos (h.resolve_left (Nat.succ_ne_zero _))

/-- One digit, the j-th of its line. -/
theorem digitLoop_digit {left : ℕ} {s : Scan} (h : isHexAscii (charAt text s.i) = true) :
    digitLoop text (left + 1) s =
      (shiftIn s.list (20 * s.count + (39 - left) / 2) (charAt text s.i)).bind fun list =>
        digitLoop text left ⟨s.i + 1,if 39 - left = 39 then s.count + 1 else s.count,list⟩ := by
  rw [digitLoop]
  exact if_neg (by simp [h])

/-- The first digit of a byte, where `2 * (m + 1)` digits are left of the row. -/
theorem digitLoop_first {m i count : ℕ} {done old : List UInt8} {c : Char} (hm : m < 20)
    (hc : charAt text i = c) (hhex : isHexAscii c = true) (hdone : done.length = 20 * count + (19 - m)) :
    digitLoop text (2 * (m + 1)) ⟨i,count,done ++ old⟩ =
      (shiftIn (done ++ old) done.length c).bind fun list => digitLoop text (2 * m + 1) ⟨i + 1,count,list⟩ := by
  have hplace : 20 * count + (39 - (2 * m + 1)) / 2 = done.length := by omega
  have hnot : ¬39 - (2 * m + 1) = 39 := by omega
  rw [show 2 * (m + 1) = 2 * m + 1 + 1 by ring,digitLoop_digit (by rw [hc]; exact hhex)]
  simp only [hplace,hc,if_neg hnot]

theorem digitLoop_second {m i count : ℕ} {done old : List UInt8} {c : Char} (hm : m < 20)
    (hc : charAt text i = c) (hhex : isHexAscii c = true) (hdone : done.length = 20 * count + (19 - m)) :
    digitLoop text (2 * m + 1) ⟨i,count,done ++ old⟩ =
      (shiftIn (done ++ old) done.length c).bind fun list =>
        digitLoop text (2 * m) ⟨i + 1,if m = 0 then count + 1 else count,list⟩ := by
  have hplace : 20 * count + (39 - 2 * m) / 2 = done.length := by omega
  have hlast : 39 - 2 * m = 39 ↔ m = 0 := by omega
  rw [digitLoop_digit (by rw [hc]; exact hhex)]
  simp only [hplace,hc,hlast]

/-- Two digits make a byte, the 20th of which completes the row. -/
theorem digitLoop_byte {m i count : ℕ} {done old : List UInt8} {x : UInt8} {a b : Char} {rest : List Char}
    (hm : m < 20) (hdrop : text.drop i = a :: b :: rest) (ha : isHexAscii a = true) (hb : isHexAscii b = true)
    (hdone : done.length = 20 * count + (19 - m)) :
    digitLoop text (2 * (m + 1)) ⟨i,count,done ++ x :: old⟩ =
      digitLoop text (2 * m) ⟨i + 2,if m = 0 then count + 1 else count,
        done ++ [fromHexAscii a <<< 4 ||| fromHexAscii b] ++ old⟩ := by
  rw [digitLoop_first hm (charAt_of_drop hdrop) ha hdone,shiftIn_of_lt,Option.bind_some,
    digitLoop_second hm (charAt_of_drop (drop_succ hdrop)) hb hdone,shiftIn_of_lt,Option.bind_some,
    shift_twice,List.append_cons]

/-- A single digit in front of another character is half a byte. -/
theorem digitLoop_half {m i count : ℕ} {done old : List UInt8} {x : UInt8} {a : Char} {rest : List Char}
    (hm : m < 20) (hdrop : text.drop i = a :: rest) (ha : isHexAscii a = true)
    (hno : isHexAscii (charAt text (i + 1)) = false) (hdone : done.length = 20 * count + (19 - m)) :
    digitLoop text (2 * (m + 1)) ⟨i,count,done ++ x :: old⟩ =
      some ⟨i + 1,count,done ++ (x <<< 4 ||| fromHexAscii a) :: old⟩ := by
  rw [digitLoop_first hm (charAt_of_drop hdrop) ha hdone,shiftIn_of_lt,Option.bind_some]
  exact digitLoop_stop (Or.inr hno)

/-- A digit behind the memory is not stored. -/
theorem digitLoop_outside {m i count : ℕ} {done : List UInt8} {a : Char} {rest : List Char}
    (hm : m < 20) (hdrop : text.drop i = a :: rest) (ha : isHexAscii a = true)
    (hdone : done.length = 20 * count + (19 - m)) :
    digitLoop text (2 * (m + 1)) ⟨i,count,done ++ []⟩ = none := by
  rw [digitLoop_first hm (charAt_of_drop hdrop) ha hdone,List.append_nil,shiftIn_of_end]
  rfl

/-- The digits of a line, two for each turn of the induction: an even number is left of the
row there, and the bytes before its place are done. -/
theorem digitLoop_eq {ds tail : List Char} (hhex : ∀ c ∈ ds, isHexAscii c = true) {m i count : ℕ}
    {done old : List UInt8} (hdrop : text.drop i = ds ++ tail) (hle : ds.length ≤ 2 * m) (hm : m ≤ 20)
    (hstop : ds.length = 2 * m ∨ isHexAscii (charAt text (i + ds.length)) = false)
    (hdone : done.length = 20 * count + (20 - m)) :
    digitLoop text (2 * m) ⟨i,count,done ++ old⟩ =
      if (ds.length + 1) / 2 ≤ old.length then
        some ⟨i + ds.length,if m ≠ 0 ∧ ds.length = 2 * m then count + 1 else count,done ++ fill old ds⟩
      else none := by
  induction m generalizing ds i count done old with
  | zero =>
    obtain rfl : ds = [] := List.length_eq_zero_iff.mp (by omega)
    rw [if_pos (by simp),fill_nil]
    rfl
  | succ m ih =>
    have hplace : done.length = 20 * count + (19 - m) := by omega
    match ds,old with
    | [], old =>
      have hno : isHexAscii (charAt text i) = false := hstop.resolve_left (by simp)
      have hloop : digitLoop text (2 * (m + 1)) ⟨i,count,done ++ old⟩ = some ⟨i,count,done ++ old⟩ :=
        digitLoop_stop (Or.inr hno)
      rw [hloop,if_pos (by simp),if_neg (by simp),fill_nil]
      rfl
    | a :: ds, [] =>
      rw [digitLoop_outside hm hdrop (hhex a List.mem_cons_self) hplace]
      exact (if_neg (by simp)).symm
    | [a], x :: old =>
      have hodd : ¬[a].length = 2 * (m + 1) := by
        rw [List.length_singleton]
        omega
      have hno : isHexAscii (charAt text (i + 1)) = false := hstop.resolve_left hodd
      rw [digitLoop_half hm hdrop (hhex a List.mem_cons_self) hno hplace,if_pos (by simp),
        if_neg fun h => hodd h.2]
      rfl
    | a :: b :: ds, x :: old =>
      simp only [List.length_cons] at hle hstop
      have hroom : ((a :: b :: ds).length + 1) / 2 ≤ (x :: old).length ↔ (ds.length + 1) / 2 ≤ old.length := by
        simp only [List.length_cons]
        omega
      have hend : i + 2 + ds.length = i + (a :: b :: ds).length := by
        simp only [List.length_cons]
        omega
      have hfill : done ++ fill (x :: old) (a :: b :: ds) =
          done ++ [fromHexAscii a <<< 4 ||| fromHexAscii b] ++ fill old ds := by
        rw [fill,List.append_assoc,List.singleton_append]
      rw [digitLoop_byte hm hdrop (hhex a (by simp)) (hhex b (by simp)) hplace,hfill,← hend]
      by_cases hzero : m = 0
      · -- The 40th digit commits the row, and the loop ends.
        subst hzero
        obtain rfl : ds = [] := List.length_eq_zero_iff.mp (by omega)
        rw [digitLoop_stop (Or.inl rfl),if_pos (hroom.mpr (Nat.zero_le _)),fill_nil]
        rfl
      · have hcount : (m + 1 ≠ 0 ∧ (a :: b :: ds).length = 2 * (m + 1)) ↔ (m ≠ 0 ∧ ds.length = 2 * m) := by
          simp only [List.length_cons]
          omega
        have hnext : ds.length = 2 * m ∨ isHexAscii (charAt text (i + 2 + ds.length)) = false := by
          rw [hend]
          exact hstop.imp_left fun h => by omega
        have hdone' : (done ++ [fromHexAscii a <<< 4 ||| fromHexAscii b]).length = 20 * count + (20 - m) := by
          rw [List.length_append,List.length_singleton]
          omega
        rw [if_neg hzero,ih (fun c hc => hhex c (by simp [hc])) (drop_succ (drop_succ hdrop)) (by omega)
          (by omega) hnext hdone']
        simp only [hroom,hcount]

end Digits

section Lines
variable {text : Buf}

theorem lineDigits_hex {l : Line} {c : Char} (hc : c ∈ lineDigits l) : isHexAscii c = true :=
  List.mem_takeWhile_imp (List.mem_of_mem_take hc)

theorem length_lineDigits_le (l : Line) : (lineDigits l).length ≤ 40 := by
  rw [lineDigits,List.length_take]
  exact min_le_left _ _

/-- The digits are the first part of their line. -/
theorem exists_after_lineDigits (l : Line) : ∃ rest, lineDigits l ++ rest = l :=
  List.IsPrefix.trans ( List.take_prefix _ _) ( List.takeWhile_prefix _)

/-- The digits end before another character, unless there are 40 of them. -/
theorem lineDigits_stop {l : Line} {c : Char} {rest : List Char}
    (h : l = lineDigits l ++ c :: rest) : (lineDigits l).length = 40 ∨ isHexAscii c = false := by
  by_contra hno
  obtain ⟨hlen,hhex⟩ := not_or.mp hno
  have hshort : lineDigits l = l.takeWhile isHexAscii := by
    have hle := length_lineDigits_le l
    rw [lineDigits,List.length_take] at hlen hle
    exact List.take_of_length_le (by simp only [sha1HashSize] at hlen hle ⊢; omega)
  have hsplit := (List.takeWhile_append_dropWhile (p := isHexAscii) (l := l)).symm
  rw [← hshort] at hsplit
  have hdrop : l.dropWhile isHexAscii = c :: rest := List.append_cancel_left (hsplit.symm.trans h)
  have hhead := List.head?_dropWhile_not isHexAscii l
  rw [hdrop] at hhead
  exact hhex (by simpa using hhead)

theorem length_hexBytes {ds : List Char} {n : ℕ} (h : ds.length = 2 * n) : (hexBytes ds).length = n := by
  have hold : n ≤ (List.replicate n (0 : UInt8)).length := by simp
  have hfill := congrArg List.length (fill_even h hold)
  rw [length_fill] at hfill
  simpa using hfill.symm

theorem length_lineThumbprint {l : Line} {r : List UInt8} (h : lineThumbprint l = some r) : r.length = 20 := by
  unfold lineThumbprint at h
  split at h
  case isTrue hlen =>
    obtain rfl := Option.some.inj h
    exact length_hexBytes hlen
  case isFalse => cases h

/-- The memory of so many bytes begins with the rows committed. -/
structure Kept (room : ℕ) (rows : List (List UInt8)) (s : Scan) : Prop where
  room : s.list.length = room
  count : s.count = rows.length
  whole : ∀ r ∈ rows, r.length = 20
  starts : rows.flatten <+: s.list

theorem Kept.length_flatten {room : ℕ} {rows : List (List UInt8)} {s : Scan} (h : Kept room rows s) :
    rows.flatten.length = 20 * s.count := by
  have hwhole := h.whole
  rw [h.count]
  clear h
  induction rows with
  | nil => rfl
  | cons r rows ih =>
    rw [List.flatten_cons,List.length_append,hwhole r List.mem_cons_self,
      ih fun q hq => hwhole q (List.mem_cons_of_mem _ hq),List.length_cons]
    ring

theorem Kept.rows_eq {room : ℕ} {rows : List (List UInt8)} {s : Scan} (h : Kept room rows s) :
    s.rows = rows := by
  obtain ⟨old,hold⟩ := h.starts
  have hwhole := h.whole
  rw [Scan.rows,h.count,← hold]
  clear h hold
  induction rows with
  | nil => rfl
  | cons r rows ih =>
    have hr := hwhole r List.mem_cons_self
    have hrest := ih fun q hq => hwhole q (List.mem_cons_of_mem _ hq)
    rw [List.length_cons,List.range_succ_eq_map,List.map_cons,List.map_map]
    congr 1
    · rw [Nat.mul_zero,List.drop_zero,List.flatten_cons,List.append_assoc]
      exact List.take_left' hr
    · refine Eq.trans (List.map_congr_left fun k _ => ?_) hrest
      have hskip : sha1HashSize * k.succ = r.length + sha1HashSize * k := by
        rw [hr,Nat.mul_succ,Nat.add_comm]
        rfl
      simp only [Function.comp_apply]
      rw [hskip,← List.drop_drop,List.flatten_cons,List.append_assoc,List.drop_left]

theorem charAt_after {pre more : List Char} {i : ℕ} (h : text.drop i = pre ++ more) :
    charAt text (i + pre.length) = more.headD nul := by
  have hdrop := drop_add h
  cases more with
  | nil => exact charAt_of_drop_nil hdrop
  | cons c more => exact charAt_of_drop hdrop

/-- A text up to its first line break. -/
theorem scan_lineEnd {line more : List Char} {i k : ℕ} (h : text.drop i = line ++ more)
    (hk : k ≤ line.length) (hline : ∀ c ∈ line, lineEnd c = false) (hmore : lineEnd (more.headD nul) = true) :
    scan lineEnd text (i + k) = i + line.length := by
  have hdrop : text.drop (i + k) = line.drop k ++ more := by
    rw [← List.drop_drop,h,List.drop_append_of_le_length hk]
  have hend : ∀ c ∈ more.head?, lineEnd c = true := by
    cases more with
    | nil => simp
    | cons c more => simpa using hmore
  rw [scan_eq hdrop (fun c hc => hline c (List.mem_of_mem_drop hc)) hend,List.length_drop]
  omega

theorem isHexAscii_headD {more : List Char} (hmore : lineEnd (more.headD nul) = true) :
    isHexAscii (more.headD nul) = false := by
  rcases (Bool.or_eq_true _ _).mp hmore with h | h
  · rw [eq_of_beq h]
    decide
  · rw [eq_of_beq h]
    decide

/-- The digits of a line written behind the rows: a new row, or nothing that counts. -/
theorem Kept.filled {room : ℕ} {rows : List (List UInt8)} {s : Scan} (hs : Kept room rows s) {old : List UInt8}
    (hold : rows.flatten ++ old = s.list) {l : Line} (hfits : ((lineDigits l).length + 1) / 2 ≤ old.length) (i : ℕ) :
    Kept room (rows ++ (lineThumbprint l).toList)
      ⟨i,if 20 ≠ 0 ∧ (lineDigits l).length = 2 * 20 then s.count + 1 else s.count,
        rows.flatten ++ fill old (lineDigits l)⟩ where
  room := by
    dsimp only
    rw [List.length_append,length_fill,← List.length_append,hold]
    exact hs.room
  count := by
    dsimp only
    rw [List.length_append,hs.count,lineThumbprint]
    by_cases hfull : (lineDigits l).length = 2 * sha1HashSize
    · rw [if_pos ⟨by decide,hfull⟩,if_pos hfull]
      rfl
    · rw [if_neg fun hc => hfull hc.2,if_neg hfull]
      rfl
  whole := by
    intro r hr
    rcases List.mem_append.mp hr with hr | hr
    · exact hs.whole r hr
    · exact length_lineThumbprint (Option.mem_toList.mp hr)
  starts := by
    dsimp only
    rw [List.flatten_append,List.prefix_append_right_inj,lineThumbprint]
    by_cases hfull : (lineDigits l).length = 2 * sha1HashSize
    · have hroom : 20 ≤ old.length := by
        rw [hfull] at hfits
        exact hfits
      rw [if_pos hfull,fill_even hfull hroom]
      simp
    · rw [if_neg hfull]
      exact List.nil_prefix

/-- The loop over the digits at the start of a line. -/
theorem digitLoop_line {l more : List Char} {s : Scan} {room : ℕ} {rows : List (List UInt8)}
    (hs : Kept room rows s) {old : List UInt8} (hold : rows.flatten ++ old = s.list)
    (h : text.drop s.i = l ++ more) (hmore : lineEnd (more.headD nul) = true) :
    digitLoop text (2 * 20) s =
      if ((lineDigits l).length + 1) / 2 ≤ old.length then
        some ⟨s.i + (lineDigits l).length,
          if 20 ≠ 0 ∧ (lineDigits l).length = 2 * 20 then s.count + 1 else s.count,
          rows.flatten ++ fill old (lineDigits l)⟩
      else none := by
  obtain ⟨rest,hrest⟩ := exists_after_lineDigits l
  have hdigits : text.drop s.i = lineDigits l ++ (rest ++ more) := by
    rw [h,← List.append_assoc,hrest]
  have hle := length_lineDigits_le l
  have hflat := hs.length_flatten
  have hcut : (lineDigits l).length = 2 * 20 ∨
      isHexAscii (charAt text (s.i + (lineDigits l).length)) = false := by
    rw [charAt_after hdigits]
    cases rest with
    | nil => exact Or.inr (isHexAscii_headD hmore)
    | cons d rest => exact lineDigits_stop hrest.symm
  have hstate : (⟨s.i,s.count,rows.flatten ++ old⟩ : Scan) = s := by rw [hold]
  have hloop : digitLoop text (2 * 20) ⟨s.i,s.count,rows.flatten ++ old⟩ = _ :=
    digitLoop_eq (fun _ hd => lineDigits_hex hd) hdigits (by omega) le_rfl hcut (by omega)
  rwa [hstate] at hloop

/-- What the loop does at a line that is not blank. -/
theorem thumbprintStep_line {line more : List Char} {s : Scan} {room : ℕ} {rows : List (List UInt8)}
    (hs : Kept room rows s) (h : text.drop s.i = line ++ more) (hne : line ≠ [])
    (hline : ∀ c ∈ line, lineEnd c = false) (hmore : lineEnd (more.headD nul) = true) :
    (lineReach rows.length line ≤ room ∧ ∃ s', thumbprintStep text s = .inl s' ∧
        s'.i = s.i + line.length ∧ Kept room (rows ++ (lineThumbprint line).toList) s') ∨
      (room < lineReach rows.length line ∧ thumbprintStep text s = .inr none) := by
  obtain ⟨c,line',rfl⟩ := List.exists_cons_of_ne_nil hne
  have hc : charAt text s.i = c := charAt_of_drop h
  have hstop := hline c List.mem_cons_self
  simp only [lineEnd,Bool.or_eq_false_iff,beq_eq_false_iff_ne] at hstop
  unfold thumbprintStep
  rw [hc,if_neg hstop.2,if_neg hstop.1]
  by_cases hhex : isHexAscii c = true
  · rw [if_neg (by simp [hhex])]
    set l := c :: line'
    obtain ⟨old,hold⟩ := hs.starts
    have hdne : lineDigits l ≠ [] := by
      simp [l,lineDigits,hhex,sha1HashSize]
    have hroom := hs.room
    rw [← hold,List.length_append,hs.length_flatten] at hroom
    have hreach : lineReach rows.length l = 20 * s.count + ((lineDigits l).length + 1) / 2 := by
      rw [lineReach,if_neg hdne,← hs.count]
      rfl
    have hloop : digitLoop text (2 * sha1HashSize) s = _ := digitLoop_line hs hold h hmore
    by_cases hfits : ((lineDigits l).length + 1) / 2 ≤ old.length
    · rw [if_pos hfits] at hloop
      obtain ⟨rest,hrest⟩ := exists_after_lineDigits l
      have hdle : (lineDigits l).length ≤ l.length := List.IsPrefix.length_le ⟨rest,hrest⟩
      refine Or.inl ⟨by omega,_,by rw [hloop],scan_lineEnd h hdle hline hmore,?_⟩
      exact hs.filled hold hfits _
    · rw [if_neg hfits] at hloop
      exact Or.inr ⟨by omega,by rw [hloop]⟩
  · have hnone : lineDigits (c :: line') = [] := by simp [lineDigits,hhex]
    have hno : lineThumbprint (c :: line') = none := by
      rw [lineThumbprint,hnone]
      rfl
    have hskip := scan_lineEnd (k := 0) h (Nat.zero_le _) hline hmore
    rw [if_pos (by simpa using hhex)]
    refine Or.inl ⟨by rw [lineReach,if_pos hnone]; exact Nat.zero_le _,_,rfl,hskip,?_⟩
    rw [hno,Option.toList_none,List.append_nil]
    exact ⟨hs.room,hs.count,hs.whole,hs.starts⟩

end Lines

section Runs
variable {text : Buf}

theorem splitOn_blank (t : List Char) : ('\n' :: t).splitOn '\n' = [] :: t.splitOn '\n' :=
  List.splitOn_append_cons_self_of_not_mem List.not_mem_nil t

theorem splitOn_line {line more : List Char} (hline : '\n' ∉ line) (hmore : more = [] ∨ ∃ t, more = '\n' :: t) :
    ∃ ls, (line ++ more).splitOn '\n' = line :: ls ∧ more.splitOn '\n' = [] :: ls := by
  rcases hmore with rfl | ⟨t,rfl⟩
  · rw [List.append_nil,List.splitOn_eq_singleton hline]
    exact ⟨[],rfl,rfl⟩
  · exact ⟨t.splitOn '\n',List.splitOn_append_cons_self_of_not_mem hline t,splitOn_blank t⟩

theorem reach_blank (k : ℕ) (ls : List Line) : reach k ([] :: ls) = reach k ls := Nat.zero_max _

theorem filterMap_blank (ls : List Line) :
    ([] :: ls).filterMap lineThumbprint = ls.filterMap lineThumbprint := rfl

theorem filterMap_line (l : Line) (ls : List Line) :
    (l :: ls).filterMap lineThumbprint = (lineThumbprint l).toList ++ ls.filterMap lineThumbprint := by
  cases h : lineThumbprint l with
  | none => rw [List.filterMap_cons_none h,Option.toList_none,List.nil_append]
  | some r => rw [List.filterMap_cons_some h,Option.toList_some,List.singleton_append]

/-- The first line of a text without terminators. -/
theorem exists_line {rest : List Char} (hnul : nul ∉ rest) : ∃ line more, rest = line ++ more ∧
    (∀ c ∈ line, lineEnd c = false) ∧ (more = [] ∨ ∃ t, more = '\n' :: t) := by
  obtain ⟨line,more,rfl,hline,hmore⟩ := exists_split lineEnd rest
  refine ⟨line,more,rfl,hline,?_⟩
  cases more with
  | nil => exact Or.inl rfl
  | cons c t =>
    have hc : c = '\n' ∨ c = nul := by simpa [lineEnd] using hmore
    have hne : c ≠ nul := fun he => hnul (by simp [he])
    exact Or.inr ⟨t,by rw [hc.resolve_right hne]⟩

/-- The loop over all lines of what is left of a text. -/
theorem run_thumbprintStep (hnul : nul ∉ text) (fuel : ℕ) : ∀ {rest : List Char} {s : Scan} {room : ℕ}
    {rows : List (List UInt8)}, rest.length < fuel → text.drop s.i = rest → Kept room rows s →
    (reach rows.length (rest.splitOn '\n') ≤ room ∧ ∃ s', run (thumbprintStep text) fuel s = some (some s') ∧
        Kept room (rows ++ (rest.splitOn '\n').filterMap lineThumbprint) s') ∨
      (room < reach rows.length (rest.splitOn '\n') ∧ run (thumbprintStep text) fuel s = some none) := by
  induction fuel with
  | zero => exact fun h => absurd h (Nat.not_lt_zero _)
  | succ fuel ih =>
    intro rest s room rows hfuel hrest hs
    rw [run]
    cases rest with
    | nil =>
      refine Or.inl ⟨Nat.zero_le _,s,?_,?_⟩
      · rw [thumbprintStep,if_pos (charAt_of_drop_nil hrest)]
      · rw [show ([] : List Char).splitOn '\n' = [[]] from rfl]
        simpa [lineThumbprint,lineDigits,sha1HashSize] using hs
    | cons c t =>
      by_cases hbreak : c = '\n'
      · subst hbreak
        have hc : charAt text s.i = '\n' := charAt_of_drop hrest
        have hstep : thumbprintStep text s = .inl { s with i := s.i + 1 } := by
          rw [thumbprintStep,if_neg (by rw [hc]; decide),if_pos hc]
        rw [hstep,splitOn_blank]
        rw [List.length_cons] at hfuel
        exact ih (by omega) (drop_succ hrest) ⟨hs.room,hs.count,hs.whole,hs.starts⟩
      · have hnul' : nul ∉ c :: t := fun hm => hnul (List.mem_of_mem_drop (hrest ▸ hm))
        obtain ⟨line,more,hsplit,hline,hmore⟩ := exists_line hnul'
        have hne : line ≠ [] := by
          rintro rfl
          rcases hmore with rfl | ⟨u,rfl⟩
          · cases hsplit
          · exact hbreak (List.cons.inj hsplit).1
        have hend : lineEnd (more.headD nul) = true := by
          rcases hmore with rfl | ⟨u,rfl⟩ <;> rfl
        have hnl : '\n' ∉ line := fun hm => by
          have := hline _ hm
          simp [lineEnd] at this
        obtain ⟨ls,hls,hmls⟩ := splitOn_line hnl hmore
        rw [hsplit] at hrest hfuel ⊢
        have hpos := List.length_pos_iff.mpr hne
        rw [List.length_append] at hfuel
        rw [hls,reach]
        rcases thumbprintStep_line hs hrest hne hline hend with ⟨hfits,s',hstep,hi,hs'⟩ | ⟨hlong,hstep⟩
        · rw [hstep]
          have hrest' : text.drop s'.i = more := by
            rw [hi]
            exact drop_add hrest
          have hmore' := ih (by omega) hrest' hs'
          rw [hmls,reach_blank,filterMap_blank,List.length_append,List.append_assoc,← filterMap_line] at hmore'
          rcases hmore' with ⟨hle,hrun⟩ | ⟨hlt,hrun⟩
          · exact Or.inl ⟨max_le hfits hle,hrun⟩
          · exact Or.inr ⟨lt_max_of_lt_right hlt,hrun⟩
        · rw [hstep]
          exact Or.inr ⟨lt_max_of_lt_left hlong,rfl⟩

/-- The bytes of the rows: 20 for every line, in 32 bits. -/
def rowBytes (text : List Char) : ℕ := dword ((text.count '\n' + 1) * sha1HashSize)

/-- The result for a text that the index can count. -/
theorem getThumbprintEntries_eq (hnul : nul ∉ text) (hlen : text.length < 2 ^ 32) :
    getThumbprintEntries (some text) =
      if reach 0 (text.splitOn '\n') ≤ rowBytes text then
        some (if thumbprints text = [] then none else some (thumbprints text))
      else none := by
  have hcount : run (countStep text) (text.length + 1) (0,1) = some (dword (1 + text.count '\n')) :=
    run_countStep hnul hlen List.drop_zero (Nat.zero_le _) (by decide)
  have hbytes : dword (dword (1 + text.count '\n') * sha1HashSize) = rowBytes text := by
    unfold rowBytes dword
    rw [Nat.mod_mul_mod,Nat.add_comm]
  have hempty : Kept (rowBytes text) [] ⟨0,0,List.replicate (rowBytes text) 0⟩ :=
    ⟨List.length_replicate,rfl,by simp, List.nil_prefix⟩
  simp only [getThumbprintEntries,hcount,Option.bind_some,hbytes]
  rcases run_thumbprintStep hnul (text.length + 1) (Nat.lt_succ_self _) List.drop_zero hempty with
    ⟨hle,s,hrun,hs⟩ | ⟨hlt,hrun⟩
  · have hle' : reach 0 (text.splitOn '\n') ≤ rowBytes text := hle
    have hrows : s.rows = thumbprints text := hs.rows_eq
    have hzero : s.count = 0 ↔ thumbprints text = [] := by
      rw [hs.count,List.length_eq_zero_iff]
      rfl
    rw [hrun,if_pos hle']
    simp only [Option.bind_some,Option.map_some,hzero,hrows]
  · have hlt' : ¬reach 0 (text.splitOn '\n') ≤ rowBytes text := not_le.mpr hlt
    rw [hrun,if_neg hlt']
    rfl

/-- The list is right, and all of it written inside its rows, exactly for the texts of less
than 4 GiB whose digits do not reach behind the bytes that 32 bits leave for the rows. -/
theorem getThumbprintEntries_iff (text : List Char) (hnul : nul ∉ text) :
    Exact text ↔ text.length < 2 ^ 32 ∧ reach 0 (text.splitOn '\n') ≤ rowBytes text := by
  by_cases hlen : text.length < 2 ^ 32
  · rw [Exact,getThumbprintEntries_eq hnul hlen]
    by_cases hreach : reach 0 (text.splitOn '\n') ≤ rowBytes text
    · rw [if_pos hreach]
      exact iff_of_true rfl ⟨hlen,hreach⟩
    · rw [if_neg hreach]
      exact iff_of_false (by simp) fun h => hreach h.2
  · have hnone := run_countStep_long (n := 1) hnul (not_lt.mp hlen) (text.length + 1) (Nat.two_pow_pos 32)
    refine iff_of_false ?_ fun h => hlen h.1
    rw [Exact,getThumbprintEntries,hnone,Option.bind_none]
    simp

theorem getThumbprintEntries_iff_short : nul ∉ ['a','\n'] ∧
    (Exact ['a','\n'] ↔ ['a','\n'].length < 2 ^ 32 ∧
      reach 0 (['a','\n'].splitOn '\n') ≤ rowBytes ['a','\n']) :=
  ⟨by decide,getThumbprintEntries_iff _ (by decide)⟩

/-- Every row has its bytes as long as 32 bits hold them all. -/
theorem reach_le (k : ℕ) (ls : List Line) : reach k ls ≤ sha1HashSize * (k + ls.length) := by
  induction ls generalizing k with
  | nil => exact Nat.zero_le _
  | cons l ls ih =>
    have hrest := ih (k + (lineThumbprint l).toList.length)
    have hone : (lineThumbprint l).toList.length ≤ 1 := by cases lineThumbprint l <;> simp
    have hdigits := length_lineDigits_le l
    rw [reach,List.length_cons]
    refine max_le ?_ (hrest.trans (Nat.mul_le_mul_left _ (by omega)))
    unfold lineReach sha1HashSize
    split <;> omega

theorem length_splitOn (text : List Char) : (text.splitOn '\n').length = text.count '\n' + 1 := by
  induction text with
  | nil => rfl
  | cons c t ih =>
    by_cases hbreak : c = '\n'
    · rw [hbreak,splitOn_blank,List.length_cons,ih,List.count_cons_self]
    · rw [List.splitOn_cons_eq_if_modifyHead,if_neg (by simpa using hbreak),List.length_modifyHead,ih,
        List.count_cons_of_ne hbreak]

/-- No text of less than 214748365 lines is misread. -/
theorem exact_of_few_lines (hnul : nul ∉ text) (hlen : text.length < 2 ^ 32)
    (hlines : (text.count '\n' + 1) * sha1HashSize < 2 ^ 32) : Exact text := by
  have hreach := reach_le 0 (text.splitOn '\n')
  rw [length_splitOn,Nat.zero_add,Nat.mul_comm] at hreach
  rw [Exact,getThumbprintEntries_eq hnul hlen,if_pos]
  rwa [rowBytes,dword_of_lt hlines]

/-- Behind 214748364 line breaks the rows have 4 bytes, and a thumbprint is written over
what follows them. -/
theorem getThumbprintEntries_overflows :
    ¬Exact (List.replicate 214748364 '\n' ++ List.replicate 40 'a') := by
  set text := List.replicate 214748364 '\n' ++ List.replicate 40 'a' with htext
  have hsplit : ∀ (n : ℕ) (k : ℕ),
      reach k ((List.replicate n '\n' ++ List.replicate 40 'a').splitOn '\n') = 20 * k + 20 := by
    intro n k
    induction n with
    | zero =>
      rw [List.replicate_zero,List.nil_append,List.splitOn_eq_singleton (by decide)]
      rfl
    | succ n ih => rw [List.replicate_succ,List.cons_append,splitOn_blank,reach_blank,ih]
  have hnul : nul ∉ text := by
    rw [htext,List.mem_append,List.mem_replicate,List.mem_replicate]
    decide
  have hlen : text.length < 2 ^ 32 := by
    rw [htext,List.length_append,List.length_replicate,List.length_replicate]
    decide
  have hcount : text.count '\n' = 214748364 := by
    have hother : (List.replicate 40 'a').count '\n' = 0 := by decide
    rw [htext,List.count_append,List.count_replicate_self,hother]
  have hbytes : rowBytes text = 4 := by
    rw [rowBytes,hcount]
    rfl
  rw [Exact,getThumbprintEntries_eq hnul hlen,hbytes,htext,hsplit]
  rw [if_neg (by decide)]
  exact (Option.some_ne_none _).symm

end Runs

end SecureWipeOut.Thumbprints
