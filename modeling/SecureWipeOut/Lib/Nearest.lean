import Mathlib.Tactic

/-! # Rounding to the nearest

A fraction of natural numbers is rounded to a nearest integer, ties to even or away from zero,
and a natural number to a double, which keeps 53 binary digits of it. A bound that is itself
among the rounded values survives the rounding.
-/
namespace SecureWipeOut.Nearest

inductive Ties
  | even
  | away
deriving DecidableEq

/-- The integer nearest to n / d. -/
def nearest (ties : Ties) (n d : ℕ) : ℕ :=
  if 2 * (n % d) < d ∨ 2 * (n % d) = d ∧ ties = .even ∧ n / d % 2 = 0 then n / d else n / d + 1

theorem le_nearest (ties : Ties) {n d b : ℕ} (hd : 0 < d) (h : b * d ≤ n) : b ≤ nearest ties n d := by
  have hb : b ≤ n / d := (Nat.le_div_iff_mul_le hd).mpr h
  rw [nearest]
  split <;> omega

theorem nearest_le (ties : Ties) {n d b : ℕ} (hd : 0 < d) (h : n ≤ b * d) : nearest ties n d ≤ b := by
  rw [nearest]
  split
  · exact Nat.div_le_of_le_mul (Nat.mul_comm b d ▸ h)
  · next hround =>
    -- what is rounded up is no integer
    have hlt : n / d < b := by
      refine (Nat.div_lt_iff_lt_mul hd).mpr (lt_of_le_of_ne h ?_)
      rintro rfl
      rw [Nat.mul_mod_left] at hround
      exact hround (Or.inl hd)
    exact hlt

/-- The weight of the last binary digit that a double keeps of a number. -/
def lastPlace (n : ℕ) : ℕ := 2 ^ (Nat.log2 n - 52)

def toDouble (n : ℕ) : ℕ := nearest .even n (lastPlace n) * lastPlace n

theorem lastPlace_pos (n : ℕ) : 0 < lastPlace n := Nat.pow_pos Nat.two_pos

theorem toDouble_of_lt {n : ℕ} (h : n < 2 ^ 53) : toDouble n = n := by
  have hlog : Nat.log2 n - 52 = 0 := by
    rcases Nat.eq_zero_or_pos n with rfl | hpos
    · decide
    · have := (Nat.log2_lt hpos.ne').mpr h
      omega
  have hone : lastPlace n = 1 := by rw [lastPlace,hlog,Nat.pow_zero]
  rw [toDouble,hone,Nat.mul_one]
  exact le_antisymm (nearest_le .even Nat.one_pos (Nat.mul_one n).ge)
    (le_nearest .even Nat.one_pos (Nat.mul_one n).le)

theorem toDouble_le {n k : ℕ} (h : n ≤ 2 ^ k) (hk : Nat.log2 n - 52 ≤ k) : toDouble n ≤ 2 ^ k := by
  have hsplit : 2 ^ k = 2 ^ (k - (Nat.log2 n - 52)) * lastPlace n := by
    rw [lastPlace,← Nat.pow_add]
    congr 1
    omega
  rw [hsplit] at h ⊢
  exact Nat.mul_le_mul_right _ (nearest_le .even (lastPlace_pos n) h)

theorem le_toDouble {n k : ℕ} (h : 2 ^ k ≤ n) : 2 ^ k ≤ toDouble n := by
  have hn : n ≠ 0 := fun hzero => absurd (hzero ▸ h) (Nat.not_le.mpr (Nat.pow_pos Nat.two_pos))
  have hlog : k ≤ Nat.log2 n := (Nat.le_log2 hn).mpr h
  have hself : 2 ^ Nat.log2 n ≤ n := Nat.log2_self_le hn
  have hsplit : 2 ^ Nat.log2 n = 2 ^ (Nat.log2 n - (Nat.log2 n - 52)) * lastPlace n := by
    rw [lastPlace,← Nat.pow_add]
    congr 1
    omega
  have hlow : 2 ^ Nat.log2 n ≤ toDouble n := by
    rw [hsplit] at hself ⊢
    exact Nat.mul_le_mul_right _ (le_nearest .even (lastPlace_pos n) hself)
  exact (Nat.pow_le_pow_right Nat.two_pos hlog).trans hlow

end SecureWipeOut.Nearest
