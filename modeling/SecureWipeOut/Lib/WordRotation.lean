import Mathlib.Tactic

/-! # Rotations and choice functions on words

Digests are described by sums of rotations and by functions that choose bits. Programs
nest the rotations and write the functions with fewer operations; the two forms agree.
-/
namespace SecureWipeOut.WordRotation
variable {w : ℕ} (x y z : BitVec w)

/-- Bit i after a rotation is the bit that far above it, counted around the word. -/
theorem getLsbD_rotateRight_mod {r i : ℕ} (hr : r < w) (hi : i < w) :
    (x.rotateRight r).getLsbD i = x.getLsbD ((r + i) % w) := by
  rw [BitVec.getLsbD_rotateRight_of_lt hr]
  by_cases h : i < w - r
  · rw [Nat.mod_eq_of_lt (by omega)]
    simp [h]
  · have hmod : (r + i) % w = i - (w - r) := by
      rw [Nat.mod_eq_sub_mod (by omega),Nat.mod_eq_of_lt (by omega)]
      omega
    rw [hmod]
    simp [h,hi]

theorem rotateRight_xor {r : ℕ} (hr : r < w) :
    (x ^^^ y).rotateRight r = x.rotateRight r ^^^ y.rotateRight r := by
  refine BitVec.eq_of_getLsbD_eq fun i hi => ?_
  rw [BitVec.getLsbD_xor]
  simp only [getLsbD_rotateRight_mod _ hr hi,BitVec.getLsbD_xor]

theorem rotateRight_rotateRight {r s : ℕ} (h : r + s < w) :
    (x.rotateRight r).rotateRight s = x.rotateRight (r + s) := by
  have hr : r < w := by omega
  have hs : s < w := by omega
  refine BitVec.eq_of_getLsbD_eq fun i hi => ?_
  rw [getLsbD_rotateRight_mod _ hs hi,getLsbD_rotateRight_mod _ hr (Nat.mod_lt _ (by omega)),
    getLsbD_rotateRight_mod _ h hi,Nat.add_mod_mod,Nat.add_assoc]

/-- Rotating a sum again adds to both its rotations. -/
theorem nested_two {p q : ℕ} (h : p + q < w) :
    (x.rotateRight p ^^^ x).rotateRight q = x.rotateRight q ^^^ x.rotateRight (p + q) := by
  rw [rotateRight_xor _ _ (by omega),rotateRight_rotateRight x h,BitVec.xor_comm]

theorem nested_three {p q r : ℕ} (h : p + q + r < w) :
    ((x.rotateRight p ^^^ x).rotateRight q ^^^ x).rotateRight r =
      x.rotateRight r ^^^ x.rotateRight (q + r) ^^^ x.rotateRight (p + q + r) := by
  have hr : r < w := by omega
  rw [rotateRight_xor _ _ hr,nested_two x (by omega),rotateRight_xor _ _ hr,
    rotateRight_rotateRight x (by omega),rotateRight_rotateRight x h,BitVec.xor_comm,
    BitVec.xor_assoc]

theorem choose_eq_xor : z ^^^ (x &&& (y ^^^ z)) = (x &&& y) ^^^ (~~~x &&& z) := by
  refine BitVec.eq_of_getLsbD_eq fun i hi => ?_
  simp only [BitVec.getLsbD_xor,BitVec.getLsbD_and,BitVec.getLsbD_not,hi,decide_true,Bool.true_and]
  cases x.getLsbD i <;> cases y.getLsbD i <;> cases z.getLsbD i <;> rfl

theorem choose_eq_or : z ^^^ (x &&& (y ^^^ z)) = (x &&& y) ||| (~~~x &&& z) := by
  refine BitVec.eq_of_getLsbD_eq fun i hi => ?_
  simp only [BitVec.getLsbD_xor,BitVec.getLsbD_and,BitVec.getLsbD_or,BitVec.getLsbD_not,hi,
    decide_true,Bool.true_and]
  cases x.getLsbD i <;> cases y.getLsbD i <;> cases z.getLsbD i <;> rfl

theorem majority_eq_xor :
    (x &&& y) ||| (z &&& (x ||| y)) = (x &&& y) ^^^ (x &&& z) ^^^ (y &&& z) := by
  refine BitVec.eq_of_getLsbD_eq fun i hi => ?_
  simp only [BitVec.getLsbD_xor,BitVec.getLsbD_and,BitVec.getLsbD_or]
  cases x.getLsbD i <;> cases y.getLsbD i <;> cases z.getLsbD i <;> rfl

end SecureWipeOut.WordRotation
