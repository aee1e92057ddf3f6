import Mathlib.Tactic
import Mathlib.Data.Finset.Max

/-! # Masks as sets of bits

The bits set in a word, what the bitwise operations do to them, and the lowest one, which
is all that a word has in common with its negation.
-/
namespace SecureWipeOut.BitMask
variable {w : ℕ}

def bits (x : BitVec w) : Finset ℕ := (Finset.range w).filter fun i => x.getLsbD i = true

@[simp] theorem mem_bits {x : BitVec w} {i : ℕ} : i ∈ bits x ↔ x.getLsbD i = true := by
  simp only [bits,Finset.mem_filter,Finset.mem_range,and_iff_right_iff_imp]
  exact BitVec.lt_of_getLsbD

theorem bits_injective : Function.Injective (bits : BitVec w → Finset ℕ) := by
  intro x y h
  refine BitVec.eq_of_getLsbD_eq fun i _ => Bool.eq_iff_iff.mpr ?_
  rw [← mem_bits,h,mem_bits]

@[simp] theorem bits_zero : bits (0 : BitVec w) = ∅ := by
  ext i
  simp

theorem bits_eq_empty {x : BitVec w} : bits x = ∅ ↔ x = 0 := by
  rw [← bits_zero (w := w),bits_injective.eq_iff]

@[simp] theorem bits_or (x y : BitVec w) : bits (x ||| y) = bits x ∪ bits y := by
  ext i
  simp

@[simp] theorem bits_and (x y : BitVec w) : bits (x &&& y) = bits x ∩ bits y := by
  ext i
  simp

theorem bits_xor {x y : BitVec w} (h : bits y ⊆ bits x) : bits (x ^^^ y) = bits x \ bits y := by
  ext i
  have hi : y.getLsbD i = true → x.getLsbD i = true := by simpa using @h i
  cases hx : x.getLsbD i <;> cases hy : y.getLsbD i <;> simp_all

/-- The lowest bit of a mask. -/
theorem bits_lowest {x : BitVec w} {low : ℕ} (hlow : low ∈ bits x) (hmin : ∀ i ∈ bits x, low ≤ i) :
    bits (x &&& -1 * x) = {low} := by
  have hneg : (-1 : BitVec w) * x = -x := by
    rw [BitVec.neg_mul]
    exact congrArg _ (BitVec.one_mul x)
  ext i
  rw [hneg,mem_bits,BitVec.getLsbD_and,BitVec.getLsbD_neg,Finset.mem_singleton]
  constructor
  · intro h
    rw [Bool.and_eq_true] at h
    obtain ⟨hx,h⟩ := h
    have hle := hmin i (mem_bits.mpr hx)
    by_contra hne
    have hbelow : ∃ j < i, x.getLsbD j = true := ⟨low,by omega,mem_bits.mp hlow⟩
    simp only [hx,BitVec.lt_of_getLsbD hx,hbelow,decide_true,Bool.and_self,Bool.xor_self] at h
    cases h
  · rintro rfl
    have hx := mem_bits.mp hlow
    have hbelow : ¬ ∃ j < i, x.getLsbD j = true := by
      rintro ⟨j,hj,hxj⟩
      exact absurd (hmin j (mem_bits.mpr hxj)) (by omega)
    simp [hx,hbelow]

end SecureWipeOut.BitMask
