import SecureWipeOut.Lib.BitMask

/-! # Counting bits in lanes

A number is cut into lanes of equal width. Adding the odd lanes to the even ones gives half
as many lanes of double width with the same sum; from lanes of one bit this ends in the
number of bits set.
-/
namespace SecureWipeOut.BitLanes
open BitMask

/-- The sum of the n lowest lanes of s bits. -/
def lanes (s : ℕ) : ℕ → ℕ → ℕ
  | 0,_ => 0
  | n + 1,u => u % 2 ^ s + lanes s n (u / 2 ^ s)

/-- Ones in the lower half of n lanes of 2s bits. -/
def laneMask (s : ℕ) : ℕ → ℕ
  | 0 => 0
  | n + 1 => 2 ^ (2 * s) * laneMask s n + (2 ^ s - 1)

def foldLanes (s n u : ℕ) : ℕ := (u &&& laneMask s n) + (u >>> s &&& laneMask s n)

/-- A conjunction is taken above and below a bit position. -/
theorem two_pow_mul_add_and {k x x' : ℕ} (hx : x < 2 ^ k) (hx' : x' < 2 ^ k) (y y' : ℕ) :
    (2 ^ k * y + x) &&& (2 ^ k * y' + x') = 2 ^ k * (y &&& y') + (x &&& x') := by
  refine Nat.eq_of_testBit_eq fun i => ?_
  simp only [Nat.testBit_and,Nat.testBit_two_pow_mul_add _ hx,Nat.testBit_two_pow_mul_add _ hx',
    Nat.testBit_two_pow_mul_add _ (Nat.and_lt_two_pow x hx')]
  split_ifs
  · rfl
  · rfl

theorem land_laneMask_succ (s n u : ℕ) :
    u &&& laneMask s (n + 1) = 2 ^ (2 * s) * (u / 2 ^ (2 * s) &&& laneMask s n) + u % 2 ^ s := by
  have hmask : 2 ^ s - 1 < 2 ^ (2 * s) := by
    have hle : 2 ^ s ≤ 2 ^ (2 * s) := Nat.pow_le_pow_right (by omega) (by omega)
    have hpos : 0 < 2 ^ s := Nat.two_pow_pos s
    omega
  have hmod : u % 2 ^ (2 * s) % 2 ^ s = u % 2 ^ s :=
    Nat.mod_mod_of_dvd u (pow_dvd_pow 2 (by omega))
  conv_lhs => rw [← Nat.div_add_mod u (2 ^ (2 * s))]
  rw [laneMask,two_pow_mul_add_and (Nat.mod_lt _ (Nat.two_pow_pos _)) hmask,
    Nat.and_two_pow_sub_one_eq_mod,hmod]

theorem foldLanes_succ (s n u : ℕ) :
    foldLanes s (n + 1) u =
      (u % 2 ^ s + u / 2 ^ s % 2 ^ s) + 2 ^ (2 * s) * foldLanes s n (u / 2 ^ (2 * s)) := by
  have hshift : u >>> s / 2 ^ (2 * s) = (u / 2 ^ (2 * s)) >>> s := by
    rw [Nat.shiftRight_eq_div_pow,Nat.shiftRight_eq_div_pow,Nat.div_div_eq_div_mul,
      Nat.div_div_eq_div_mul,Nat.mul_comm]
  rw [foldLanes,land_laneMask_succ,land_laneMask_succ,hshift,Nat.shiftRight_eq_div_pow u,foldLanes]
  ring

theorem lane_add_lt {s : ℕ} (hs : 0 < s) (u : ℕ) : u % 2 ^ s + u / 2 ^ s % 2 ^ s < 2 ^ (2 * s) := by
  have h1 := Nat.mod_lt u (Nat.two_pow_pos s)
  have h2 := Nat.mod_lt (u / 2 ^ s) (Nat.two_pow_pos s)
  have hpow : 2 ^ s * 2 ≤ 2 ^ (2 * s) := by
    rw [← pow_succ]
    exact Nat.pow_le_pow_right (by omega) (by omega)
  omega

/-- Folding keeps the sum. -/
theorem lanes_foldLanes {s : ℕ} (hs : 0 < s) (n u : ℕ) :
    lanes (2 * s) n (foldLanes s n u) = lanes s (2 * n) u := by
  induction n generalizing u with
  | zero => rfl
  | succ n ih =>
    have hlt := lane_add_lt hs u
    have hdiv : u / 2 ^ s / 2 ^ s = u / 2 ^ (2 * s) := by
      rw [Nat.div_div_eq_div_mul,← pow_add,two_mul]
    rw [lanes,foldLanes_succ,Nat.add_mul_mod_self_left,Nat.mod_eq_of_lt hlt,
      Nat.add_mul_div_left _ _ (Nat.two_pow_pos _),Nat.div_eq_of_lt hlt,Nat.zero_add,ih,Nat.mul_succ,
      lanes,lanes,hdiv]
    omega

theorem foldLanes_lt {s : ℕ} (hs : 0 < s) (n u : ℕ) : foldLanes s n u < 2 ^ (2 * s * n) := by
  induction n generalizing u with
  | zero => simp [foldLanes,laneMask]
  | succ n ih =>
    have hlt := lane_add_lt hs u
    have hrest := ih (u / 2 ^ (2 * s))
    rw [foldLanes_succ,Nat.mul_succ,pow_add]
    calc u % 2 ^ s + u / 2 ^ s % 2 ^ s + 2 ^ (2 * s) * foldLanes s n (u / 2 ^ (2 * s))
        < 2 ^ (2 * s) + 2 ^ (2 * s) * foldLanes s n (u / 2 ^ (2 * s)) := by omega
      _ = 2 ^ (2 * s) * (foldLanes s n (u / 2 ^ (2 * s)) + 1) := by ring
      _ ≤ 2 ^ (2 * s) * 2 ^ (2 * s * n) := Nat.mul_le_mul_left _ hrest
      _ = 2 ^ (2 * s * n) * 2 ^ (2 * s) := Nat.mul_comm _ _

/-- Lanes of one bit count the bits set. -/
theorem lanes_one (n u : ℕ) :
    lanes 1 n u = ((Finset.range n).filter fun i => u.testBit i = true).card := by
  induction n generalizing u with
  | zero => rfl
  | succ n ih =>
    rw [lanes,ih,Finset.card_filter,Finset.card_filter,Finset.sum_range_succ',Nat.add_comm]
    simp only [Nat.testBit_succ,Nat.testBit_zero,decide_eq_true_eq,pow_one]
    congr 1
    split <;> omega

end SecureWipeOut.BitLanes
