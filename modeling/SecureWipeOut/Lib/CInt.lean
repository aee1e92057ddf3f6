import Mathlib.Tactic

/-! # Fixed-width unsigned arithmetic and alignment

Unsigned values are naturals below a power of two; every operation that can
leave the width is reduced explicitly. The alignment operations are the usual
integer ones, exact for any positive granularity.
-/
namespace SecureWipeOut.CInt

def dword (n : ℕ) : ℕ := n % 2 ^ 32
def qword (n : ℕ) : ℕ := n % 2 ^ 64

/-- Unsigned 64-bit subtraction, wrapping below zero. -/
def qsub (a b : ℕ) : ℕ := (a + (2 ^ 64 - b % 2 ^ 64)) % 2 ^ 64

/-- Unsigned 32-bit subtraction, wrapping below zero. -/
def dsub (a b : ℕ) : ℕ := (a + (2 ^ 32 - b % 2 ^ 32)) % 2 ^ 32

theorem dword_of_lt {n : ℕ} (h : n < 2 ^ 32) : dword n = n := Nat.mod_eq_of_lt h
theorem qword_of_lt {n : ℕ} (h : n < 2 ^ 64) : qword n = n := Nat.mod_eq_of_lt h

theorem qsub_of_le {a b : ℕ} (h : b ≤ a) (ha : a < 2 ^ 64) : qsub a b = a - b := by
  unfold qsub
  omega

theorem dsub_of_le {a b : ℕ} (h : b ≤ a) (ha : a < 2 ^ 32) : dsub a b = a - b := by
  unfold dsub
  omega

def floorAlign (x y : ℕ) : ℕ := x / y * y
def ceilAlign (x y : ℕ) : ℕ := (x + y - 1) / y * y

theorem floorAlign_le (x y : ℕ) : floorAlign x y ≤ x := Nat.div_mul_le_self x y

theorem lt_floorAlign_add (x : ℕ) {y : ℕ} (hy : 0 < y) : x < floorAlign x y + y := by
  have h := Nat.div_add_mod' x y
  have h' := Nat.mod_lt x hy
  unfold floorAlign
  omega

theorem dvd_floorAlign (x y : ℕ) : y ∣ floorAlign x y := Dvd.intro_left _ rfl
theorem dvd_ceilAlign (x y : ℕ) : y ∣ ceilAlign x y := Dvd.intro_left _ rfl

theorem le_ceilAlign (x : ℕ) {y : ℕ} (hy : 0 < y) : x ≤ ceilAlign x y := by
  have h := lt_floorAlign_add (x + y - 1) hy
  unfold floorAlign at h
  unfold ceilAlign
  omega

theorem lt_ceilAlign {x y : ℕ} (hy : 0 < y) (h : x % y ≠ 0) : x < ceilAlign x y := by
  rcases Nat.lt_or_ge x (ceilAlign x y) with hlt | hge
  · exact hlt
  · have heq : ceilAlign x y = x := le_antisymm hge (le_ceilAlign x hy)
    exact absurd (Nat.mod_eq_zero_of_dvd (heq ▸ dvd_ceilAlign x y)) h

theorem ceilAlign_lt (x : ℕ) {y : ℕ} (hy : 0 < y) : ceilAlign x y < x + y := by
  have h := Nat.div_mul_le_self (x + y - 1) y
  unfold ceilAlign
  omega

/-- Alignment down never crosses a multiple of the granularity. -/
theorem le_floorAlign_of_dvd {m x y : ℕ} (hm : y ∣ m) (h : m ≤ x) : m ≤ floorAlign x y := by
  obtain ⟨k,rfl⟩ := hm
  rcases Nat.eq_zero_or_pos y with rfl | hy
  · simp
  · unfold floorAlign
    have hk : k ≤ x / y := (Nat.le_div_iff_mul_le hy).mpr (by rwa [mul_comm])
    rw [mul_comm]
    exact Nat.mul_le_mul_right y hk

theorem floorAlign_eq_of_dvd {x y : ℕ} (h : y ∣ x) : floorAlign x y = x := Nat.div_mul_cancel h

end SecureWipeOut.CInt
