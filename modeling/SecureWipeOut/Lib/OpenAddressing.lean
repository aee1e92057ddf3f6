import Mathlib.Tactic
import Mathlib.Data.Nat.Prime.Basic
import Mathlib.Data.Nat.ModEq
import Mathlib.Data.Set.Card

/-! # Open addressing

A table maps slots to keys. Every key visits the slots in an order of its own,
its probe sequence, and is stored in the first slot of that order that was free.
The invariant is that no probe sequence is broken: before the slot that holds a
key, its sequence meets other keys only. The second part is the probe sequence of
double hashing, stepping backwards through the slots `1..size` of a prime size.
-/
namespace SecureWipeOut.OpenAddressing

section Table
variable {κ σ : Type*} {seq : κ → ℕ → σ} {t : σ → Option κ}

/-- The first `n` slots of the sequence of `k` hold other keys. -/
def Passed (seq : κ → ℕ → σ) (t : σ → Option κ) (k : κ) (n : ℕ) : Prop :=
  ∀ m < n, t (seq k m) ≠ none ∧ t (seq k m) ≠ some k

def Unbroken (seq : κ → ℕ → σ) (t : σ → Option κ) : Prop :=
  ∀ s k, t s = some k → ∃ n, seq k n = s ∧ Passed seq t k n

theorem Unbroken.unique (ht : Unbroken seq t) {s s' : σ} {k : κ}
    (hs : t s = some k) (hs' : t s' = some k) : s = s' := by
  obtain ⟨n,rfl,hn⟩ := ht s k hs
  obtain ⟨n',rfl,hn'⟩ := ht s' k hs'
  rcases lt_trichotomy n n' with h | rfl | h
  · exact absurd hs (hn' n h).2
  · rfl
  · exact absurd hs' (hn n' h).2

/-- A key whose sequence reaches a free slot is nowhere in the table. -/
theorem Unbroken.absent (ht : Unbroken seq t) {k : κ} {n : ℕ}
    (hn : Passed seq t k n) (hfree : t (seq k n) = none) (s : σ) : t s ≠ some k := by
  intro hs
  obtain ⟨n',rfl,hn'⟩ := ht s k hs
  rcases lt_trichotomy n n' with h | rfl | h
  · exact (hn' n h).1 hfree
  · exact absurd (hfree.symm.trans hs) (by simp)
  · exact (hn n' h).2 hs

/-- Storing a key in the first free slot of its sequence breaks no sequence. -/
theorem Unbroken.store [DecidableEq σ] (ht : Unbroken seq t) {k : κ} {n : ℕ}
    (hn : Passed seq t k n) (hfree : t (seq k n) = none) :
    Unbroken seq (Function.update t (seq k n) (some k)) := by
  intro s k' hs
  by_cases hsn : s = seq k n
  · subst hsn
    obtain rfl : k = k' := by simpa using hs
    refine ⟨n,rfl,?_⟩
    intro m hm
    have hne : seq k m ≠ seq k n := fun h => (hn m hm).1 (h ▸ hfree)
    simpa [hne] using hn m hm
  · have hs' : t s = some k' := by simpa [hsn] using hs
    have hk : k ≠ k' := fun h => ht.absent hn hfree s (h ▸ hs')
    obtain ⟨n',rfl,hn'⟩ := ht s k' hs'
    refine ⟨n',rfl,?_⟩
    intro m hm
    by_cases hmn : seq k' m = seq k n
    · simp [hmn,hk]
    · simpa [hmn] using hn' m hm

end Table

section Stepping
variable {size d : ℕ}

/-- One step back by `d` through the slots `1..size`. -/
def stepBack (size d i : ℕ) : ℕ := if i ≤ d then size + i - d else i - d

def stepsBack (size d h n : ℕ) : ℕ := (stepBack size d)^[n] h

@[simp] theorem stepsBack_zero (h : ℕ) : stepsBack size d h 0 = h := rfl

theorem stepsBack_succ (h n : ℕ) :
    stepsBack size d h (n + 1) = stepBack size d (stepsBack size d h n) :=
  Function.iterate_succ_apply' _ _ _

theorem stepBack_mem (hd : 1 ≤ d) (hds : d < size) {i : ℕ} (hi : 1 ≤ i ∧ i ≤ size) :
    1 ≤ stepBack size d i ∧ stepBack size d i ≤ size := by
  unfold stepBack
  split <;> omega

theorem stepsBack_mem (hd : 1 ≤ d) (hds : d < size) {h : ℕ} (hh : 1 ≤ h ∧ h ≤ size) (n : ℕ) :
    1 ≤ stepsBack size d h n ∧ stepsBack size d h n ≤ size := by
  induction n with
  | zero => exact hh
  | succ n ih =>
    rw [stepsBack_succ]
    exact stepBack_mem hd hds ih

theorem stepsBack_modEq (hds : d < size) (h n : ℕ) :
    stepsBack size d h n + n * d ≡ h [MOD size] := by
  induction n with
  | zero => simp [Nat.ModEq.refl]
  | succ n ih =>
    refine Nat.ModEq.trans ?_ ih
    have hstep : ∀ i, stepBack size d i + d ≡ i [MOD size] := by
      intro i
      unfold stepBack
      split
      · rw [show size + i - d + d = size + i by omega]
        exact Nat.add_modEq_left
      · rw [show i - d + d = i by omega]
    rw [stepsBack_succ,show (n + 1) * d = d + n * d by ring,← Nat.add_assoc]
    exact Nat.ModEq.add_right _ (hstep _)

/-- A prime size makes the first `size` probes distinct. -/
theorem stepsBack_inj (hp : size.Prime) (hd : 1 ≤ d) (hds : d < size) {h m n : ℕ}
    (hm : m < size) (hn : n < size) (heq : stepsBack size d h m = stepsBack size d h n) : m = n := by
  have hmn : m * d ≡ n * d [MOD size] := by
    have := (stepsBack_modEq hds h m).trans (stepsBack_modEq hds h n).symm
    rw [heq] at this
    exact Nat.ModEq.add_left_cancel' _ this
  have hcop : Nat.gcd size d = 1 :=
    (Nat.Prime.coprime_iff_not_dvd hp).mpr (Nat.not_dvd_of_pos_of_lt hd hds)
  exact Nat.ModEq.eq_of_lt_of_lt (hmn.cancel_right_of_coprime hcop) hm hn

/-- After `size` steps the sequence is back where it began. -/
theorem stepsBack_size (hd : 1 ≤ d) (hds : d < size) {h : ℕ} (hh : 1 ≤ h ∧ h ≤ size) :
    stepsBack size d h size = h := by
  have hm := stepsBack_mem hd hds hh size
  have hmod : stepsBack size d h size ≡ h [MOD size] := by
    have := stepsBack_modEq hds h size
    exact (Nat.ModEq.trans (by simp [Nat.ModEq]) this)
  have hdvd : (size : ℤ) ∣ (h : ℤ) - (stepsBack size d h size : ℤ) := Nat.modEq_iff_dvd.mp hmod
  have := Int.eq_zero_of_abs_lt_dvd hdvd (by rw [abs_lt]; omega)
  omega

/-- Hence they visit every slot. -/
theorem stepsBack_covers (hp : size.Prime) (hd : 1 ≤ d) (hds : d < size) {h : ℕ}
    (hh : 1 ≤ h ∧ h ≤ size) {i : ℕ} (hi : 1 ≤ i ∧ i ≤ size) :
    ∃ n < size, stepsBack size d h n = i := by
  have hmaps : Set.MapsTo (stepsBack size d h) (Finset.range size) (Finset.Icc 1 size) := by
    intro n _
    simpa using stepsBack_mem hd hds hh n
  have hinj : Set.InjOn (stepsBack size d h) (Finset.range size) := by
    intro m hm n hn heq
    exact stepsBack_inj hp hd hds (by simpa using hm) (by simpa using hn) heq
  have hsurj := Finset.surjOn_of_injOn_of_card_le _ hmaps hinj (by simp)
  obtain ⟨n,hn,hni⟩ := hsurj (show i ∈ (Finset.Icc 1 size : Finset ℕ) by simpa using hi)
  exact ⟨n,by simpa using hn,hni⟩

end Stepping

end SecureWipeOut.OpenAddressing
