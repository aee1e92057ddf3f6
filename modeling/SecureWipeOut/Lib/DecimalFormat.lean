import SecureWipeOut.Lib.CText

/-! # Decimal numbers

The conversions `%d` and `%lld` of `printf`, and that `strtol` and `_strtoi64` with base 0
read what they have written.
-/
namespace SecureWipeOut.DecimalFormat
open CText

/-- `%d` and `%lld`. -/
def decimal (n : ℤ) : List Char :=
  if n < 0 then '-' :: Nat.toDigits 10 n.natAbs else Nat.toDigits 10 n.natAbs

/-- A number in base 0 and the number of characters read, a value out of range being
replaced by the nearest one between the limits. -/
def readNumber (lo hi : ℤ) (s : List Char) : ℤ × ℕ :=
  let blanks := (s.takeWhile isSpace).length
  let s := s.drop blanks
  let negative := s.head? = some '-'
  let sign := if s.head? = some '-' ∨ s.head? = some '+' then 1 else 0
  let s := s.drop sign
  let hex := s.head? = some '0' ∧ (s[1]? = some 'x' ∨ s[1]? = some 'X') ∧ digit (s.getD 2 ' ') < 16
  let base := if hex then 16 else if s.head? = some '0' then 8 else 10
  let lead := if hex then 2 else 0
  let ds := (s.drop lead).takeWhile fun c => decide (digit c < base)
  let n : ℤ := digits base ds
  if ds = [] then (0,0)
  else (if negative then max lo (-n) else min hi n,blanks + sign + lead + ds.length)

theorem strtol_eq (s : List Char) : strtol s = readNumber (-2 ^ 31) (2 ^ 31 - 1) s := rfl

/-- `_strtoi64` with base 0. -/
def strtoi64 (s : List Char) : ℤ := (readNumber (-2 ^ 63) (2 ^ 63 - 1) s).1

section Digits

theorem digit_spec {c : Char} (h : c.isDigit = true) : digit c = c.toNat - 48 ∧ digit c < 10 ∧
    isSpace c = false ∧ c ≠ '-' ∧ c ≠ '+' := by
  have hrange : 48 ≤ c.toNat ∧ c.toNat ≤ 57 := Char.isDigit_iff_toNat.mp h
  have hall : ∀ n < 128, 48 ≤ n → n ≤ 57 → digit (Char.ofNat n) = n - 48 ∧ digit (Char.ofNat n) < 10 ∧
      isSpace (Char.ofNat n) = false ∧ Char.ofNat n ≠ '-' ∧ Char.ofNat n ≠ '+' := by decide
  simpa using hall c.toNat (by omega) hrange.1 hrange.2

theorem isDigit_of_mem {m : ℕ} : ∀ c ∈ Nat.toDigits 10 m, c.isDigit = true := fun _ hc =>
  Nat.isDigit_of_mem_toDigits (by decide) (by decide) hc

theorem takeWhile_toDigits (m : ℕ) :
    ((Nat.toDigits 10 m).takeWhile fun c => decide (digit c < 10)) = Nat.toDigits 10 m := by
  apply List.takeWhile_eq_self_iff.mpr
  intro c hc
  exact decide_eq_true (digit_spec (isDigit_of_mem c hc)).2.1

theorem digits_toDigits (m : ℕ) : digits 10 (Nat.toDigits 10 m) = m := by
  rw [digits,takeWhile_toDigits]
  conv_rhs => rw [← Nat.ofDigitChars_ten_toDigits (n := m),Nat.ofDigitChars_eq_foldl]
  apply List.foldl_ext
  intro n c hc
  rw [(digit_spec (isDigit_of_mem c hc)).1]
  rfl

/-- The digits of a positive number do not begin with a zero. -/
theorem head?_toDigits {m : ℕ} (hm : 0 < m) : (Nat.toDigits 10 m).head? ≠ some '0' := by
  induction m using Nat.strong_induction_on with
  | _ m ih =>
    by_cases hlt : m < 10
    · rw [Nat.toDigits_of_lt_base hlt]
      have hall : ∀ m < 10, 0 < m → some (Nat.digitChar m) ≠ some '0' := by decide
      exact hall m hlt hm
    · rw [Nat.toDigits_of_base_le (by decide) (by omega),List.head?_append_of_ne_nil _ Nat.toDigits_ne_nil]
      exact ih (m / 10) (by omega) (by omega)

end Digits

section Reading
variable {lo hi : ℤ}

theorem readNumber_decimal {n : ℤ} (hlo : lo ≤ n) (hhi : n ≤ hi) :
    readNumber lo hi (decimal n) = (n,(decimal n).length) := by
  obtain ⟨c,ds,hds⟩ := List.exists_cons_of_ne_nil (Nat.toDigits_ne_nil (n := n.natAbs) (b := 10))
  have hc := digit_spec (isDigit_of_mem c (by rw [hds]; exact List.mem_cons_self))
  by_cases h0 : n = 0
  · subst h0
    have hread : readNumber lo hi ['0'] = (min hi 0,1) := by
      simp [readNumber,isSpace,digits,digit]
    rw [show decimal 0 = ['0'] from rfl,hread,min_eq_right hhi]
    rfl
  · have hzero := head?_toDigits (Int.natAbs_pos.mpr h0)
    have htake := takeWhile_toDigits n.natAbs
    have hval := digits_toDigits n.natAbs
    rw [hds] at hzero htake hval
    have hc0 : c ≠ '0' := fun h => hzero (by rw [h,List.head?_cons])
    by_cases hneg : n < 0
    · have hread : readNumber lo hi ('-' :: c :: ds) = (max lo (-(n.natAbs : ℤ)),ds.length + 2) := by
        simp [readNumber,show isSpace '-' = false by decide,hc0,htake,hval]
        omega
      rw [decimal,if_pos hneg,hds,hread,Int.ofNat_natAbs_of_nonpos hneg.le,neg_neg,max_eq_right hlo]
      rfl
    · have hread : readNumber lo hi (c :: ds) = (min hi n.natAbs,ds.length + 1) := by
        simp [readNumber,hc.2.2.1,hc.2.2.2,hc0,htake,hval]
      rw [decimal,if_neg hneg,hds,hread,Int.natAbs_of_nonneg (not_lt.mp hneg),min_eq_right hhi]
      rfl

theorem strtol_decimal {n : ℤ} (h : -2 ^ 31 ≤ n ∧ n < 2 ^ 31) : (strtol (decimal n)).1 = n := by
  rw [strtol_eq,readNumber_decimal h.1 (Int.le_sub_one_of_lt h.2)]

theorem strtoi64_decimal {n : ℤ} (h : -2 ^ 63 ≤ n ∧ n < 2 ^ 63) : strtoi64 (decimal n) = n := by
  rw [strtoi64,readNumber_decimal h.1 (Int.le_sub_one_of_lt h.2)]

/-- The characters of a number are digits behind a sign. -/
theorem mem_decimal {n : ℤ} {c : Char} (h : c ∈ decimal n) : c = '-' ∨ c.isDigit = true := by
  unfold decimal at h
  split at h
  · rcases List.mem_cons.mp h with rfl | h
    · exact Or.inl rfl
    · exact Or.inr (isDigit_of_mem c h)
  · exact Or.inr (isDigit_of_mem c h)

theorem decimal_ne_nil (n : ℤ) : decimal n ≠ [] := by
  unfold decimal
  split
  · exact List.cons_ne_nil _ _
  · exact Nat.toDigits_ne_nil

theorem length_decimal_le {n : ℤ} {k : ℕ} (hk : 0 < k) (h : n.natAbs < 10 ^ k) : (decimal n).length ≤ k + 1 := by
  have hlen := (Nat.length_toDigits_le_iff (by decide) hk).mpr h
  unfold decimal
  split
  · exact Nat.succ_le_succ hlen
  · exact hlen.trans (Nat.le_succ k)

end Reading

end SecureWipeOut.DecimalFormat
