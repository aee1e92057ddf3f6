import Mathlib.Tactic

/-! # Iterating a step over the whole blocks of a list

The chaining value after all whole blocks of a message, and the rest that does not
fill a block. Both are determined piece by piece, which is what makes a buffered
implementation possible.
-/
namespace SecureWipeOut.MerkleDamgard
variable {σ α : Type*} (f : σ → List α → σ) (B : ℕ)

def absorb (s : σ) (xs : List α) : σ :=
  if 0 < B ∧ B ≤ xs.length then absorb (f s (xs.take B)) (xs.drop B) else s
  termination_by xs.length
  decreasing_by
    rw [List.length_drop]
    omega

/-- The elements behind the last whole block. -/
def tail (xs : List α) : List α := xs.drop (xs.length - xs.length % B)

variable {f B}

theorem absorb_short {s : σ} {xs : List α} (h : xs.length < B) : absorb f B s xs = s := by
  rw [absorb,if_neg (by omega)]

theorem absorb_long {s : σ} {xs : List α} (hB : 0 < B) (h : B ≤ xs.length) :
    absorb f B s xs = absorb f B (f s (xs.take B)) (xs.drop B) := by
  rw [absorb,if_pos ⟨hB,h⟩]

theorem absorb_block {s : σ} {xs : List α} (hB : 0 < B) (h : xs.length = B) :
    absorb f B s xs = f s xs := by
  rw [absorb_long hB h.ge,List.take_of_length_le h.le,List.drop_of_length_le h.le]
  exact absorb_short (by simpa using hB)

@[simp] theorem length_tail (xs : List α) : (tail B xs).length = xs.length % B := by
  have := Nat.mod_le xs.length B
  rw [tail,List.length_drop]
  omega

theorem tail_short {xs : List α} (h : xs.length < B) : tail B xs = xs := by
  rw [tail,Nat.mod_eq_of_lt h,Nat.sub_self,List.drop_zero]

theorem tail_long {xs : List α} (h : B ≤ xs.length) : tail B (xs.drop B) = tail B xs := by
  have hmod : (xs.length - B) % B = xs.length % B := (Nat.mod_eq_sub_mod h).symm
  have hle := Nat.mod_le (xs.length - B) B
  rw [tail,tail,List.length_drop,List.drop_drop,hmod]
  rw [hmod] at hle
  congr 1
  omega

/-- Absorbing a message in two pieces: the rest of the first goes in front of the second. -/
theorem absorb_append (s : σ) (xs ys : List α) :
    absorb f B s (xs ++ ys) = absorb f B (absorb f B s xs) (tail B xs ++ ys) := by
  fun_induction absorb f B s xs with
  | case1 s xs h ih =>
    have hlen : B ≤ (xs ++ ys).length := by
      rw [List.length_append]
      omega
    rw [absorb_long h.1 hlen,List.take_append_of_le_length h.2,List.drop_append_of_le_length h.2,ih,
      tail_long h.2]
  | case2 s xs h =>
    rcases Nat.eq_zero_or_pos B with rfl | hB
    · simp [tail]
    · rw [tail_short (by omega)]

theorem tail_append (xs ys : List α) : tail B (xs ++ ys) = tail B (tail B xs ++ ys) := by
  have hmod : (xs.length % B + ys.length) % B = (xs.length + ys.length) % B := Nat.mod_add_mod _ _ _
  have hle := Nat.mod_le xs.length B
  have hle' := Nat.mod_le (xs.length % B + ys.length) B
  have hdrop : tail B xs ++ ys = (xs ++ ys).drop (xs.length - xs.length % B) := by
    rw [List.drop_append_of_le_length (Nat.sub_le _ _)]
    rfl
  have hlen : (tail B xs ++ ys).length = xs.length % B + ys.length := by
    rw [List.length_append,length_tail]
  rw [tail,tail,hlen,hmod,hdrop,List.drop_drop,List.length_append]
  rw [hmod] at hle'
  congr 1
  omega

/-- A step that commutes with a change of the chaining value does so over messages. -/
theorem absorb_map {τ : Type*} {g : τ → List α → τ} (φ : τ → σ)
    (h : ∀ t xs, f (φ t) xs = φ (g t xs)) (t : τ) (xs : List α) :
    absorb f B (φ t) xs = φ (absorb g B t xs) := by
  fun_induction absorb g B t xs with
  | case1 t xs hlt ih => rw [absorb_long hlt.1 hlt.2,h,ih]
  | case2 t xs hlt => rw [absorb,if_neg hlt]

/-- The same where the steps are only known to commute on whole blocks. -/
theorem absorb_map_blocks {τ : Type*} {g : τ → List α → τ} (φ : τ → σ)
    (h : ∀ t xs, xs.length = B → f (φ t) xs = φ (g t xs)) (t : τ) (xs : List α) :
    absorb f B (φ t) xs = φ (absorb g B t xs) := by
  fun_induction absorb g B t xs with
  | case1 t xs hlt ih =>
    rw [absorb_long hlt.1 hlt.2,h _ _ (List.length_take_of_le hlt.2),ih]
  | case2 t xs hlt => rw [absorb,if_neg hlt]

end SecureWipeOut.MerkleDamgard
