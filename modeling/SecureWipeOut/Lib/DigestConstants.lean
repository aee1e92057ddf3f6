import SecureWipeOut.Lib.DigestStandards
import Mathlib.Analysis.Complex.Trigonometric
import Mathlib.Analysis.Complex.Exponential

/-! # The constants of the digest standards as numbers

A table of constants is checked by arithmetic on integers: cubes for the cube roots of
primes, powers of a Gaussian integer for the sines.
-/
namespace SecureWipeOut.DigestStandards

section primes

/-- A test for numbers below 441. -/
def isPrime (n : ℕ) : Bool :=
  decide (2 ≤ n) && (List.range 21).all fun m => decide (m < 2) || decide (n < m * m) || n % m != 0

theorem isPrime_iff {n : ℕ} (h : n < 441) : isPrime n = true ↔ Nat.Prime n := by
  rw [isPrime,Nat.prime_def_le_sqrt,Bool.and_eq_true,decide_eq_true_eq,List.all_eq_true]
  refine and_congr_right fun _ => ?_
  constructor
  · intro hall m h2 hm hdvd
    have hsq : m * m ≤ n := Nat.le_sqrt.mp hm
    have hlt : m < 21 := by nlinarith
    have htest := hall m (List.mem_range.mpr hlt)
    have hmod := Nat.mod_eq_zero_of_dvd hdvd
    simp [hmod] at htest
    omega
  · intro hall m _
    by_cases h2 : m < 2
    · simp [h2]
    by_cases hm : n < m * m
    · simp [hm]
    have hno := hall m (by omega) (Nat.le_sqrt.mpr (by omega))
    have hmod : n % m ≠ 0 := fun h => hno (Nat.dvd_of_mod_eq_zero h)
    simp [hmod]

/-- The prime with a given number is found by counting those below it. -/
theorem nth_prime {n t : ℕ} (h : n < 441)
    (hn : (isPrime n && (List.range n).countP isPrime == t) = true) : Nat.nth Nat.Prime t = n := by
  rw [Bool.and_eq_true,beq_iff_eq] at hn
  have hcount : Nat.count Nat.Prime n = t := by
    rw [Nat.count,← hn.2]
    refine List.countP_congr fun m hm => ?_
    rw [decide_eq_true_eq,isPrime_iff ((List.mem_range.mp hm).trans h)]
  rw [← hcount]
  exact Nat.nth_count ((isPrime_iff h).mp hn.1)

theorem nthRoot_eq {n a b : ℕ} (hn : n ≠ 0) (h : b ^ n ≤ a) (h' : a < (b + 1) ^ n) :
    Nat.nthRoot n a = b := by
  have hle := (Nat.le_nthRoot_iff hn).mpr h
  have hlt : ¬ b + 1 ≤ Nat.nthRoot n a := fun hle' => absurd ((Nat.le_nthRoot_iff hn).mp hle') (by omega)
  omega

/-- p is the prime with number t, and k has the digits of its cube root. -/
def CubeRootDigits (w t p k : ℕ) : Bool :=
  decide (p < 441) && isPrime p && (List.range p).countP isPrime == t &&
    decide (k ^ 3 ≤ p * 2 ^ (3 * w)) && decide (p * 2 ^ (3 * w) < (k + 1) ^ 3)

theorem sha2K_eq {w t p k : ℕ} (h : CubeRootDigits w t p k = true) : sha2K w t = BitVec.ofNat w k := by
  simp only [CubeRootDigits,Bool.and_eq_true,decide_eq_true_eq] at h
  obtain ⟨⟨⟨⟨hlt,hprime⟩,hcount⟩,hle⟩,hgt⟩ := h
  rw [sha2K,nth_prime hlt (by rw [hprime,hcount]; rfl),nthRoot_eq (by norm_num) hle hgt]

end primes

section sine
open Complex

/-- The exponential of the imaginary unit, to fifteen digits. -/
noncomputable def turn : ℂ := ⟨540302305868139 / 10 ^ 15,841470984807896 / 10 ^ 15⟩

theorem sum_exp_I : (∑ m ∈ Finset.range 18, I ^ m / (m.factorial : ℂ)) =
    ((∑ j ∈ Finset.range 9, (-1) ^ j / ((2 * j).factorial : ℝ) : ℝ) : ℂ) +
      ((∑ j ∈ Finset.range 9, (-1) ^ j / ((2 * j + 1).factorial : ℝ) : ℝ) : ℂ) * I := by
  have hpair : ∀ n, (∑ m ∈ Finset.range (2 * n), I ^ m / (m.factorial : ℂ)) =
      ((∑ j ∈ Finset.range n, (-1) ^ j / ((2 * j).factorial : ℝ) : ℝ) : ℂ) +
        ((∑ j ∈ Finset.range n, (-1) ^ j / ((2 * j + 1).factorial : ℝ) : ℝ) : ℂ) * I := by
    intro n
    induction n with
    | zero => simp
    | succ n ih =>
      rw [show 2 * (n + 1) = 2 * n + 1 + 1 by omega,Finset.sum_range_succ,Finset.sum_range_succ,ih,
        Finset.sum_range_succ,Finset.sum_range_succ,pow_succ,pow_mul,I_sq]
      push_cast
      ring
  exact hpair 9

theorem re_ofReal_add_mul_I (a b : ℝ) : ((a : ℂ) + b * I).re = a := by simp
theorem im_ofReal_add_mul_I (a b : ℝ) : ((a : ℂ) + b * I).im = b := by simp

theorem exp_I_close : ‖exp I - turn‖ ≤ 2 / 10 ^ 15 := by
  have hbound := exp_bound (x := I) (by simp) (show 0 < 18 by norm_num)
  have hsum : ‖(∑ m ∈ Finset.range 18, I ^ m / (m.factorial : ℂ)) - turn‖ ≤ 3 / 2 / 10 ^ 15 := by
    have hcos : |∑ j ∈ Finset.range 9, (-1) ^ j / ((2 * j).factorial : ℝ) -
        540302305868139 / 10 ^ 15| ≤ 9 / 10 / 10 ^ 15 := by
      norm_num [Finset.sum_range_succ,Nat.factorial,abs_le]
    have hsin : |∑ j ∈ Finset.range 9, (-1) ^ j / ((2 * j + 1).factorial : ℝ) -
        841470984807896 / 10 ^ 15| ≤ 3 / 5 / 10 ^ 15 := by
      norm_num [Finset.sum_range_succ,Nat.factorial,abs_le]
    rw [sum_exp_I]
    refine (norm_le_abs_re_add_abs_im _).trans ?_
    refine (add_le_add ?_ ?_).trans (show (9 / 10 / 10 ^ 15 + 3 / 5 / 10 ^ 15 : ℝ) ≤ _ by norm_num)
    · rw [sub_re,re_ofReal_add_mul_I]
      exact hcos
    · rw [sub_im,im_ofReal_add_mul_I]
      exact hsin
  have hterm : ‖I‖ ^ 18 * (((18 : ℕ).succ : ℝ) * (((18 : ℕ).factorial : ℝ) * (18 : ℕ))⁻¹) ≤
      1 / 2 / 10 ^ 15 := by
    rw [norm_I]
    norm_num [Nat.factorial]
  calc ‖exp I - turn‖ = ‖(exp I - ∑ m ∈ Finset.range 18, I ^ m / (m.factorial : ℂ)) +
        ((∑ m ∈ Finset.range 18, I ^ m / (m.factorial : ℂ)) - turn)‖ := by congr 1; ring
    _ ≤ _ := norm_add_le _ _
    _ ≤ 1 / 2 / 10 ^ 15 + 3 / 2 / 10 ^ 15 := add_le_add (hbound.trans hterm) hsum
    _ = 2 / 10 ^ 15 := by norm_num

theorem norm_turn_le : ‖turn‖ ≤ 1 := by
  rw [turn,Complex.norm_def,normSq_mk,Real.sqrt_le_one]
  norm_num

/-- The powers stay on the circle and in the disc, so that the error adds up. -/
theorem pow_close (k : ℕ) : ‖exp I ^ k - turn ^ k‖ ≤ k * (2 / 10 ^ 15) := by
  have hexp : ‖exp I‖ = 1 := by
    have h := norm_exp_ofReal_mul_I 1
    rwa [ofReal_one,one_mul] at h
  induction k with
  | zero => simp
  | succ k ih =>
    have hturn : ‖turn‖ ^ k ≤ 1 := pow_le_one₀ (norm_nonneg _) norm_turn_le
    calc ‖exp I ^ (k + 1) - turn ^ (k + 1)‖ =
          ‖(exp I ^ k - turn ^ k) * exp I + turn ^ k * (exp I - turn)‖ := by congr 1; ring
      _ ≤ ‖exp I ^ k - turn ^ k‖ * ‖exp I‖ + ‖turn‖ ^ k * ‖exp I - turn‖ := by
          refine (norm_add_le _ _).trans (le_of_eq ?_)
          rw [norm_mul,norm_mul,norm_pow]
      _ ≤ k * (2 / 10 ^ 15) * 1 + 1 * (2 / 10 ^ 15) := by
          rw [hexp]
          exact add_le_add (by linarith) (mul_le_mul hturn exp_I_close (norm_nonneg _) zero_le_one)
      _ = ((k + 1 : ℕ) : ℝ) * (2 / 10 ^ 15) := by push_cast; ring

/-- The powers of the digits as integers. -/
def turns : ℕ → ℤ × ℤ
  | 0 => (1,0)
  | k + 1 =>
    let p := turns k
    (p.1 * 540302305868139 - p.2 * 841470984807896,p.1 * 841470984807896 + p.2 * 540302305868139)

theorem turn_pow (k : ℕ) : turn ^ k = ⟨(turns k).1 / (10 ^ 15) ^ k,(turns k).2 / (10 ^ 15) ^ k⟩ := by
  induction k with
  | zero => apply Complex.ext <;> simp [turns]
  | succ k ih =>
    have hne : ((10 : ℝ) ^ 15) ^ k ≠ 0 := by positivity
    rw [pow_succ,ih,turn,turns]
    apply Complex.ext
    · simp only [mul_re]
      push_cast
      field_simp
      ring
    · simp only [mul_im]
      push_cast
      field_simp
      ring

theorem sin_close (k : ℕ) :
    |Real.sin (k : ℝ) - (turns k).2 / (10 ^ 15) ^ k| ≤ (k : ℝ) * (2 / 10 ^ 15) := by
  have him : (exp I ^ k - turn ^ k).im = Real.sin (k : ℝ) - (turns k).2 / (10 ^ 15) ^ k := by
    rw [sub_im,turn_pow,← exp_nat_mul]
    have hexp : exp (k * I) = exp ((k : ℝ) * I) := by push_cast; rfl
    rw [hexp,exp_ofReal_mul_I_im]
  rw [← him]
  exact (abs_im_le_norm _).trans (pow_close k)

/-- n is the integer part of 2 ^ 32 times the sine of k, by a margin that the digits allow. -/
def SineDigits (k n : ℕ) : Bool :=
  decide (n * (10 ^ 15) ^ k + 2 ^ 33 * k * (10 ^ 15) ^ (k - 1) ≤ 2 ^ 32 * (turns k).2.natAbs) &&
    decide (2 ^ 32 * (turns k).2.natAbs + 2 ^ 33 * k * (10 ^ 15) ^ (k - 1) < (n + 1) * (10 ^ 15) ^ k)

theorem md5T_eq {t n : ℕ} (h : SineDigits (t + 1) n = true) : md5T t = BitVec.ofNat 32 n := by
  rw [SineDigits,Bool.and_eq_true,decide_eq_true_eq,decide_eq_true_eq] at h
  have hclose := sin_close (t + 1)
  have hpow : (0 : ℝ) < (10 ^ 15) ^ (t + 1) := by positivity
  have hcast : ((t + 1 : ℕ) : ℝ) = t + 1 := by push_cast; rfl
  have hscale : ∀ x : ℝ, (x + 2 ^ 33 * (t + 1) / 10 ^ 15) * (10 ^ 15) ^ (t + 1) =
      x * (10 ^ 15) ^ (t + 1) + 2 ^ 33 * (t + 1) * (10 ^ 15) ^ t := by
    intro x
    rw [pow_succ]
    field_simp
    ring
  have habs : |((turns (t + 1)).2 : ℝ) / (10 ^ 15) ^ (t + 1)| =
      ((turns (t + 1)).2.natAbs : ℝ) / (10 ^ 15) ^ (t + 1) := by
    rw [abs_div,abs_of_pos hpow,Nat.cast_natAbs,Int.cast_abs]
  have hlow : (n : ℝ) + 2 ^ 33 * (t + 1) / 10 ^ 15 ≤
      2 ^ 32 * |((turns (t + 1)).2 : ℝ) / (10 ^ 15) ^ (t + 1)| := by
    rw [habs,← mul_div_assoc,le_div_iff₀ hpow,hscale]
    exact_mod_cast h.1
  have hhigh : 2 ^ 32 * |((turns (t + 1)).2 : ℝ) / (10 ^ 15) ^ (t + 1)| <
      (n : ℝ) + 1 - 2 ^ 33 * (t + 1) / 10 ^ 15 := by
    have hcheck : (2 : ℝ) ^ 32 * (turns (t + 1)).2.natAbs + 2 ^ 33 * (t + 1) * (10 ^ 15) ^ t <
        (n + 1) * (10 ^ 15) ^ (t + 1) := by exact_mod_cast h.2
    have hmargin := hscale ((n : ℝ) + 1 - 2 ^ 33 * (t + 1) / 10 ^ 15)
    rw [sub_add_cancel] at hmargin
    rw [hmargin] at hcheck
    rw [habs,← mul_div_assoc,div_lt_iff₀ hpow]
    exact lt_of_add_lt_add_right hcheck
  rw [hcast] at hclose
  have hdiff := (abs_abs_sub_abs_le _ _).trans hclose
  rw [abs_le] at hdiff
  rw [md5T]
  refine congrArg _ ((Nat.floor_eq_iff (by positivity)).mpr ⟨?_,?_⟩)
  · linarith
  · linarith

end sine

end SecureWipeOut.DigestStandards
