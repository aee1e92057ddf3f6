import Mathlib.Tactic

/-! # Loops as iterated steps

A step either continues with a new state or leaves the loop with a result. The
fuel only makes the iteration total; a decreasing measure shows that it is enough.
-/
namespace SecureWipeOut.Loop
variable {σ ρ : Type*} {step : σ → σ ⊕ ρ}

def run (step : σ → σ ⊕ ρ) : ℕ → σ → Option ρ
  | 0, _ => none
  | fuel + 1, s =>
    match step s with
    | .inl s' => run step fuel s'
    | .inr r => some r

/-- What one step preserves holds when the loop is left. -/
theorem run_rule {I : σ → Prop} {Q : ρ → Prop}
    (hstep : ∀ s s', I s → step s = .inl s' → I s')
    (hexit : ∀ s r, I s → step s = .inr r → Q r)
    {fuel : ℕ} {s : σ} {r : ρ} (hs : I s) (h : run step fuel s = some r) : Q r := by
  induction fuel generalizing s with
  | zero => cases h
  | succ fuel ih =>
    cases hst : step s with
    | inl s' =>
      rw [run,hst] at h
      exact ih (hstep s s' hs hst) h
    | inr q =>
      rw [run,hst] at h
      obtain rfl : q = r := Option.some.inj h
      exact hexit s q hs hst

/-- A measure that every continuing step decreases bounds the fuel needed. -/
theorem run_terminates {I : σ → Prop} (m : σ → ℕ)
    (hstep : ∀ s s', I s → step s = .inl s' → I s' ∧ m s' < m s)
    {fuel : ℕ} {s : σ} (hs : I s) (hfuel : m s < fuel) : ∃ r, run step fuel s = some r := by
  induction fuel generalizing s with
  | zero => omega
  | succ fuel ih =>
    cases hst : step s with
    | inl s' =>
      obtain ⟨hs',hlt⟩ := hstep s s' hs hst
      rw [run,hst]
      exact ih hs' (by omega)
    | inr q => exact ⟨q,by rw [run,hst]⟩

/-- A loop whose steps always go on is never left. -/
theorem run_eq_none {I : σ → Prop} (hstep : ∀ s, I s → ∃ s', step s = .inl s' ∧ I s') (fuel : ℕ)
    {s : σ} (hs : I s) : run step fuel s = none := by
  induction fuel generalizing s with
  | zero => rfl
  | succ fuel ih =>
    obtain ⟨s',hst,hs'⟩ := hstep s hs
    rw [run,hst]
    exact ih hs'

/-- More fuel does not change what a loop that was left leaves. -/
theorem run_mono {fuel fuel' : ℕ} {s : σ} {r : ρ} (h : run step fuel s = some r)
    (hle : fuel ≤ fuel') : run step fuel' s = some r := by
  induction fuel generalizing fuel' s with
  | zero => cases h
  | succ fuel ih =>
    obtain ⟨m,rfl⟩ := Nat.exists_eq_add_of_le' (Nat.one_le_of_lt hle)
    rw [run] at h ⊢
    cases hst : step s with
    | inl s' =>
      rw [hst] at h
      exact ih h (Nat.le_of_succ_le_succ hle)
    | inr q =>
      rw [hst] at h
      exact h

theorem run_unique {fuel fuel' : ℕ} {s : σ} {r r' : ρ} (h : run step fuel s = some r)
    (h' : run step fuel' s = some r') : r = r' := by
  rcases Nat.le_total fuel fuel' with hle | hle
  · exact Option.some.inj ((run_mono h hle).symm.trans h')
  · exact Option.some.inj (h.symm.trans (run_mono h' hle))

section rounds
variable {I : ℕ → σ → Prop} {Go : ℕ → Prop} {s : σ}

/-- Rounds that go on are run through, with what holds before each of them. -/
theorem run_reaches (h0 : I 0 s)
    (hstep : ∀ k s, I k s → Go k → ∃ s', step s = .inl s' ∧ I (k + 1) s')
    {k : ℕ} (hk : ∀ j < k, Go j) :
    ∃ s', I k s' ∧ ∀ fuel, run step (k + fuel) s = run step fuel s' := by
  induction k with
  | zero => exact ⟨s,h0,fun fuel => by rw [Nat.zero_add]⟩
  | succ k ih =>
    obtain ⟨s',hs',hrun⟩ := ih fun j hj => hk j (Nat.lt_succ_of_lt hj)
    obtain ⟨s'',hst,hs''⟩ := hstep k s' hs' (hk k (Nat.lt_succ_self k))
    refine ⟨s'',hs'',fun fuel => ?_⟩
    rw [Nat.add_assoc,Nat.add_comm 1 fuel,hrun,run,hst]

/-- The loop is left in the first round that does not go on. -/
theorem run_leaves (h0 : I 0 s)
    (hstep : ∀ k s, I k s → Go k → ∃ s', step s = .inl s' ∧ I (k + 1) s')
    (hexit : ∀ k s, I k s → ¬ Go k → ∃ r, step s = .inr r)
    {k : ℕ} (hk : ∀ j < k, Go j) (hnot : ¬ Go k) :
    ∃ s' r, I k s' ∧ step s' = .inr r ∧ run step (k + 1) s = some r := by
  obtain ⟨s',hs',hrun⟩ := run_reaches h0 hstep hk
  obtain ⟨r,hr⟩ := hexit k s' hs' hnot
  exact ⟨s',r,hs',hr,by rw [hrun 1,run,hr]⟩

/-- Whatever the loop leaves comes from the first round that does not go on. -/
theorem run_left (h0 : I 0 s)
    (hstep : ∀ k s, I k s → Go k → ∃ s', step s = .inl s' ∧ I (k + 1) s')
    (hexit : ∀ k s, I k s → ¬ Go k → ∃ r, step s = .inr r)
    {fuel : ℕ} {r : ρ} (h : run step fuel s = some r) :
    ∃ k s', (∀ j < k, Go j) ∧ ¬ Go k ∧ I k s' ∧ step s' = .inr r := by
  classical
  by_cases hgo : ∃ k, ¬ Go k
  · obtain ⟨s',r',hs',hr',hrun⟩ := run_leaves h0 hstep hexit
      (fun j hj => not_not.mp (Nat.find_min hgo hj)) (Nat.find_spec hgo)
    obtain rfl := run_unique hrun h
    exact ⟨Nat.find hgo,s',fun j hj => not_not.mp (Nat.find_min hgo hj),Nat.find_spec hgo,hs',hr'⟩
  · have hnone : run step fuel s = none := by
      refine run_eq_none (I := fun s => ∃ k, I k s) ?_ fuel ⟨0,h0⟩
      rintro s ⟨k,hs⟩
      obtain ⟨s',hst,hs'⟩ := hstep k s hs (not_exists_not.mp hgo k)
      exact ⟨s',hst,k + 1,hs'⟩
    rw [hnone] at h
    cases h

end rounds

/-- A counted loop, with what holds before each round. -/
theorem range_rule {α : Type*} {I : ℕ → α → Prop} {f : α → ℕ → α} {n : ℕ} {a : α} (h0 : I 0 a)
    (hstep : ∀ i < n, ∀ a, I i a → I (i + 1) (f a i)) : I n ((List.range n).foldl f a) := by
  induction n with
  | zero => exact h0
  | succ n ih =>
    rw [List.range_succ,List.foldl_append,List.foldl_cons,List.foldl_nil]
    exact hstep n (Nat.lt_succ_self n) _ (ih fun i hi => hstep i (Nat.lt_succ_of_lt hi))

section lockstep
variable {α β : Type*} {R : ℕ → α → β → Prop} {a : α} {b : β} {n : ℕ}

/-- Two loops over the same numbers that stay related. -/
theorem lockstep {f : α → ℕ → α} {g : β → ℕ → β} (h0 : R 0 a b)
    (hstep : ∀ i < n, ∀ a b, R i a b → R (i + 1) (f a i) (g b i)) :
    R n ((List.range n).foldl f a) ((List.range n).foldl g b) := by
  induction n with
  | zero => exact h0
  | succ n ih =>
    simp only [List.range_succ,List.foldl_append,List.foldl_cons,List.foldl_nil]
    exact hstep n (by omega) _ _ (ih fun i hi => hstep i (by omega))

/-- The same, where the second one knows that its numbers are in range. -/
theorem lockstep_finRange {f : α → ℕ → α} {g : β → Fin n → β} (h0 : R 0 a b)
    (hstep : ∀ i : Fin n, ∀ a b, R i a b → R (i + 1) (f a i) (g b i)) :
    R n ((List.range n).foldl f a) ((List.finRange n).foldl g b) := by
  have hg : (List.finRange n).foldl g b =
      (List.range n).foldl (fun b i => if h : i < n then g b ⟨i,h⟩ else b) b := by
    rw [← List.map_coe_finRange_eq_range,List.foldl_map]
    simp
  rw [hg]
  refine lockstep h0 fun i hi a b h => ?_
  rw [dif_pos hi]
  exact hstep ⟨i,hi⟩ a b h

end lockstep

end SecureWipeOut.Loop
