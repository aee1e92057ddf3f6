import SecureWipeOut.Boot.SyslinuxVersion

/-! # Where the scan for the version ends

No two names are so close that the characters passed behind one could hide another, so the
first name whose numbers are not skipped decides what the function does.
-/
namespace SecureWipeOut.SyslinuxVersion
open CText

section characters

/-- A character that may stand in a number. -/
def isNumberChar (c : Char) : Bool := isSpace c || c == '-' || c == '+' || decide (digit c < 10)

theorem mem_leadLength (s : List Char) : ∀ c ∈ s.take (leadLength s), isNumberChar c = true := by
  intro c hc
  rw [leadLength,List.take_add,List.mem_append] at hc
  rcases hc with hblank | hsign
  · rw [← List.prefix_iff_eq_take.mp (List.takeWhile_prefix (l := s) isSpace)] at hblank
    simp [isNumberChar,List.mem_takeWhile_imp hblank]
  · cases hdrop : s.drop (s.takeWhile isSpace).length with
    | nil => simp [hdrop] at hsign
    | cons d t =>
      rw [hdrop,signLength] at hsign
      split at hsign
      · next hfirst =>
        simp only [List.head?_cons,Option.some.injEq] at hfirst
        obtain rfl : c = d := by simpa using hsign
        rcases hfirst with rfl | rfl <;> rfl
      · simp at hsign

theorem mem_strtoulLength (s : List Char) : ∀ c ∈ s.take (strtoulLength s), isNumberChar c = true := by
  intro c hc
  rw [strtoulLength] at hc
  split at hc
  · simp at hc
  · rw [List.take_add,List.mem_append] at hc
    rcases hc with hlead | hdigit
    · exact mem_leadLength s c hlead
    · rw [← List.prefix_iff_eq_take.mp (List.takeWhile_prefix _)] at hdigit
      simp [isNumberChar,List.mem_takeWhile_imp hdigit]

theorem not_isNumberChar : isNumberChar nul = false ∧ isNumberChar 'U' = false ∧
    isNumberChar 'X' = false := ⟨by decide,by decide,by decide⟩

theorem charAt_add (buf : Buf) (k d : ℕ) : charAt buf (k + d) = charAt (buf.drop k) d := by
  simp [charAt,List.getD_eq_getElem?_getD]

/-- The characters of a number, by their index. -/
theorem isNumberChar_charAt {buf : Buf} {i x : ℕ} (hi : i ≤ x)
    (hx : x < i + strtoulLength (buf.drop i)) (hlt : x < buf.length) :
    isNumberChar (charAt buf x) = true := by
  refine mem_strtoulLength (buf.drop i) _ ?_
  obtain ⟨d,rfl⟩ := Nat.exists_eq_add_of_le hi
  have hd : d < (buf.drop i).length := by
    rw [List.length_drop]
    omega
  rw [charAt_add,charAt,List.getD_eq_getElem?_getD,List.getElem?_eq_getElem hd,Option.getD_some]
  exact List.mem_take_iff_getElem.mpr ⟨d,by omega,rfl⟩

theorem length_terminated (data : List Char) : (terminated data).length = data.length + 1 := by
  simp [terminated]

theorem charAt_terminated (data : List Char) : charAt (terminated data) data.length = nul := by
  simp [terminated,charAt,List.getD_eq_getElem?_getD]

/-- A number ends at the last NUL or ahead of it. -/
theorem number_le {data : List Char} {i : ℕ} (hi : i ≤ data.length) :
    i + strtoulLength ((terminated data).drop i) ≤ data.length := by
  by_contra hlt
  have hnumber := isNumberChar_charAt hi (Nat.not_le.mp hlt) (by rw [length_terminated]; omega)
  rw [charAt_terminated,not_isNumberChar.1] at hnumber
  cases hnumber

end characters

section names
variable {buf : Buf} {k : ℕ}

theorem isName_charAt (h : isName buf k = true) (d : ℕ) (hd : d < 6) :
    charAt buf (k + d) = linux.getD d nul := by
  rw [isName,Bool.and_eq_true,beq_iff_eq] at h
  rw [charAt_add,← h.1,charAt,List.getD_eq_getElem?_getD,List.getD_eq_getElem?_getD,
    List.getElem?_take,if_pos]
  exact hd

/-- A name begins with the end of one of two words. -/
theorem isName_ahead (h : isName buf k = true) : charAt buf (k - 3) = 'I' ∨ charAt buf (k - 3) = 'S' := by
  rw [isName,Bool.and_eq_true,Bool.or_eq_true,beq_iff_eq,beq_iff_eq] at h
  have hfirst : charAt buf (k - 3) = ((buf.drop (k - 3)).take 3).getD 0 nul := by
    simp [charAt,List.getD_eq_getElem?_getD]
  rw [hfirst]
  rcases h.2 with hiso | hsys
  · exact Or.inl (by rw [hiso]; rfl)
  · exact Or.inr (by rw [beq_iff_eq.mp hsys]; rfl)

/-- The next name is at least seven characters away. -/
theorem isName_apart {j : ℕ} (h : isName buf k = true) (h' : isName buf j = true) (hlt : k < j) :
    versionStart k + 1 ≤ j := by
  by_contra hclose
  have hstart : versionStart k = k + 6 := rfl
  have hfirst : charAt buf (j + 0) = 'L' := isName_charAt h' 0 (by decide)
  have hahead := isName_ahead h'
  have h1 : charAt buf (k + 1) = 'I' := isName_charAt h 1 (by decide)
  have h2 : charAt buf (k + 2) = 'N' := isName_charAt h 2 (by decide)
  have h3 : charAt buf (k + 3) = 'U' := isName_charAt h 3 (by decide)
  have h4 : charAt buf (k + 4) = 'X' := isName_charAt h 4 (by decide)
  have h5 : charAt buf (k + 5) = ' ' := isName_charAt h 5 (by decide)
  obtain ⟨d,rfl⟩ := Nat.exists_eq_add_of_lt hlt
  have hd : d ≤ 5 := by omega
  rw [Nat.add_zero] at hfirst
  interval_cases d
  · rw [Nat.add_assoc,h1] at hfirst
    exact absurd hfirst (by decide)
  · rw [Nat.add_assoc,h2] at hfirst
    exact absurd hfirst (by decide)
  · rw [Nat.add_assoc,h3] at hfirst
    exact absurd hfirst (by decide)
  · rw [Nat.add_assoc,h4] at hfirst
    exact absurd hfirst (by decide)
  · rw [Nat.add_assoc,h5] at hfirst
    exact absurd hfirst (by decide)
  · have hback : k + 5 + 1 - 3 = k + 3 := by omega
    rw [hback,h3] at hahead
    exact absurd hahead (by decide)

end names

section scan
variable {asserts : Bool} {buf : Buf} {bufSize k : ℕ}

/-- What a name that is not passed leads to. -/
def outcome (asserts : Bool) (bufSize : ℕ) (buf : Buf) (k : ℕ) : Ending :=
  match reading asserts bufSize buf k with
  | .aborted => .aborted
  | .outOfBounds => .outOfBounds
  | .skipped => .returned 0 none buf
  | .found => extraVersion bufSize buf (versionStart k) (minorEnd buf k) (versionOf buf k)

/-- A name in reach whose numbers are not skipped. -/
structure Stops (asserts : Bool) (bufSize : ℕ) (buf : Buf) (k : ℕ) : Prop where
  le : 64 ≤ k
  lt : k < bufSize - 64
  name : isName buf k = true
  read : reading asserts bufSize buf k ≠ .skipped

/-- The first one. -/
def FirstStop (asserts : Bool) (bufSize : ℕ) (buf : Buf) (k : ℕ) : Prop :=
  Stops asserts bufSize buf k ∧ ∀ j < k, ¬ Stops asserts bufSize buf j

theorem outcome_of_read (h : reading asserts bufSize buf k ≠ .skipped) (e : Ending) :
    (match reading asserts bufSize buf k with
      | .aborted => .aborted
      | .outOfBounds => .outOfBounds
      | .skipped => e
      | .found => extraVersion bufSize buf (versionStart k) (minorEnd buf k) (versionOf buf k)) =
      outcome asserts bufSize buf k := by
  rw [outcome]
  cases hread : reading asserts bufSize buf k with
  | skipped => exact absurd hread h
  | aborted => rfl
  | outOfBounds => rfl
  | found => rfl

/-- The names behind an index that is passed are those behind the next index. -/
theorem scanLoop_step (fuel : ℕ) (hlt : k < bufSize - 64) (hk : 64 ≤ k)
    (hstop : ¬ Stops asserts bufSize buf k) :
    ∃ j, k < j ∧ scanLoop asserts bufSize buf (fuel + 1) k = scanLoop asserts bufSize buf fuel j ∧
      ∀ i, k < i → isName buf i = true → j ≤ i := by
  rw [scanLoop,if_pos hlt]
  cases hname : isName buf k with
  | false => exact ⟨k + 1,Nat.lt_succ_self k,by rw [if_neg Bool.false_ne_true],fun i hi _ => hi⟩
  | true =>
    have hread : reading asserts bufSize buf k = .skipped := by
      by_contra hne
      exact hstop ⟨hk,hlt,hname,hne⟩
    refine ⟨versionStart k + 1,?_,by rw [if_pos rfl,hread],fun i hi hi' => isName_apart hname hi' hi⟩
    rw [versionStart]
    omega

theorem scanLoop_of_none (hnone : ∀ j, ¬ Stops asserts bufSize buf j) (fuel : ℕ) (hk : 64 ≤ k) :
    scanLoop asserts bufSize buf fuel k = .returned 0 none buf := by
  induction fuel generalizing k with
  | zero => rfl
  | succ fuel ih =>
    rcases Nat.lt_or_ge k (bufSize - 64) with hlt | hge
    · obtain ⟨j,hj,heq,-⟩ := scanLoop_step fuel hlt hk (hnone k)
      rw [heq]
      exact ih (by omega)
    · rw [scanLoop,if_neg (Nat.not_lt.mpr hge)]

theorem scanLoop_of_first {j fuel : ℕ} (hfirst : FirstStop asserts bufSize buf j) (hk : 64 ≤ k)
    (hkj : k ≤ j) (hfuel : bufSize ≤ fuel + k) :
    scanLoop asserts bufSize buf fuel k = outcome asserts bufSize buf j := by
  induction fuel generalizing k with
  | zero =>
    have := hfirst.1.lt
    omega
  | succ fuel ih =>
    have hlt : k < bufSize - 64 := hkj.trans_lt hfirst.1.lt
    rcases Nat.lt_or_eq_of_le hkj with hbefore | rfl
    · obtain ⟨i,hi,heq,hskip⟩ := scanLoop_step fuel hlt hk (hfirst.2 k hbefore)
      rw [heq]
      exact ih (by omega) (hskip j hbefore hfirst.1.name) (by omega)
    · rw [scanLoop,if_pos hlt,if_pos hfirst.1.name]
      exact outcome_of_read hfirst.1.read _

/-- The function does what the first name leads to that is not passed. -/
theorem getSyslinuxVersion_of_first {data : List Char} (hlarge : 256 ≤ data.length)
    (h : FirstStop asserts data.length (terminated data) k) :
    getSyslinuxVersion asserts data = outcome asserts data.length (terminated data) k := by
  rw [getSyslinuxVersion,if_neg (Nat.not_lt.mpr hlarge)]
  exact scanLoop_of_first h (le_refl 64) h.1.le (Nat.le_add_right _ _)

theorem getSyslinuxVersion_of_none {data : List Char}
    (h : 256 ≤ data.length → ∀ k, ¬ Stops asserts data.length (terminated data) k) :
    getSyslinuxVersion asserts data = .returned 0 none (terminated data) := by
  rw [getSyslinuxVersion]
  split
  · rfl
  · next hlarge => exact scanLoop_of_none (h (Nat.not_lt.mp hlarge)) _ (le_refl 64)

end scan

end SecureWipeOut.SyslinuxVersion
