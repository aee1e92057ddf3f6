import Mathlib.Tactic

/-! # Linear stores

A store assigns a value to every address. Block-wise programs overwrite one
range at a time, and what they leave behind is described range by range.
-/
namespace SecureWipeOut.ByteStore
variable {α : Type*}

/-- The store after the range of length len at off has received new values. -/
def overwrite (s : ℕ → α) (off len : ℕ) (data : ℕ → α) : ℕ → α :=
  fun i => if off ≤ i ∧ i < off + len then data (i - off) else s i

theorem overwrite_inside (s : ℕ → α) {off len : ℕ} (data : ℕ → α) {i : ℕ}
    (h : off ≤ i) (h' : i < off + len) : overwrite s off len data i = data (i - off) :=
  if_pos ⟨h,h'⟩

theorem overwrite_outside (s : ℕ → α) {off len : ℕ} (data : ℕ → α) {i : ℕ}
    (h : i < off ∨ off + len ≤ i) : overwrite s off len data i = s i :=
  if_neg (by omega)

theorem overwrite_overwrite (s : ℕ → α) (off len : ℕ) (data data' : ℕ → α) :
    overwrite (overwrite s off len data) off len data' = overwrite s off len data' := by
  funext i
  unfold overwrite
  split <;> rfl

/-- Reading a range, changing a part of it and writing it back changes that part only. -/
theorem overwrite_patch (s mem data : ℕ → α) {start size off len : ℕ} (h : start ≤ off)
    (h' : off + len ≤ start + size) :
    overwrite s start size (overwrite (overwrite mem 0 size fun i => s (start + i)) (off - start) len data) =
      overwrite s off len data := by
  funext i
  unfold overwrite
  by_cases hin : off ≤ i ∧ i < off + len
  · rw [if_pos (by omega),if_pos (by omega),if_pos hin]
    congr 1
    omega
  · rw [if_neg hin]
    split
    · rw [if_neg (by omega),if_pos (by omega)]
      exact congrArg s (by omega)
    · rfl

/-- Every address of the range holds the same value. -/
def Uniform (s : ℕ → α) (off len : ℕ) (v : α) : Prop :=
  ∀ i, off ≤ i → i < off + len → s i = v

/-- Two stores agree outside the range. -/
def SameOutside (s t : ℕ → α) (off len : ℕ) : Prop :=
  ∀ i, i < off ∨ off + len ≤ i → t i = s i

theorem SameOutside.refl (s : ℕ → α) (off len : ℕ) : SameOutside s s off len :=
  fun _ _ => rfl

theorem SameOutside.trans {s t u : ℕ → α} {off len : ℕ}
    (h : SameOutside s t off len) (h' : SameOutside t u off len) : SameOutside s u off len :=
  fun i hi => (h' i hi).trans (h i hi)

theorem sameOutside_overwrite (s : ℕ → α) (off len : ℕ) (data : ℕ → α) :
    SameOutside s (overwrite s off len data) off len :=
  fun _ hi => overwrite_outside s data hi

theorem Uniform.of_sameOutside {s t : ℕ → α} {off len off' len' : ℕ} {v : α}
    (h : Uniform s off len v) (hst : SameOutside s t off' len')
    (hd : off + len ≤ off' ∨ off' + len' ≤ off) : Uniform t off len v := by
  intro i hi hi'
  rw [hst i (by omega)]
  exact h i hi hi'

end SecureWipeOut.ByteStore
