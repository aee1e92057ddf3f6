import Mathlib.Logic.Relation
import Mathlib.Tactic

/-! # Stretches of code

A program is a step relation on control points and data, some of whose states are
final. A stretch of code between two points does a relation when every run that comes to a
final state passes its exit with related data, and every related pair is run through.
-/
namespace SecureWipeOut.CodeBlock
open Relation

/-- A relation repeated a number of times. -/
def iter {β : Type*} (R : β → β → Prop) : ℕ → β → β → Prop
  | 0 => Eq
  | n + 1 => Comp R (iter R n)

section iterates
variable {β : Type*} {R : β → β → Prop} {x y z : β} {m n : ℕ}

theorem iter_add : iter R (m + n) x z ↔ ∃ y, iter R m x y ∧ iter R n y z := by
  induction m generalizing x with
  | zero =>
    rw [Nat.zero_add]
    refine ⟨fun h => ⟨x,rfl,h⟩,?_⟩
    rintro ⟨_,rfl,h⟩
    exact h
  | succ m ih =>
    rw [Nat.add_right_comm]
    constructor
    · rintro ⟨w,hw,hwz⟩
      obtain ⟨y,hwy,hyz⟩ := ih.mp hwz
      exact ⟨y,⟨w,hw,hwy⟩,hyz⟩
    · rintro ⟨y,⟨w,hw,hwy⟩,hyz⟩
      exact ⟨w,hw,ih.mpr ⟨y,hwy,hyz⟩⟩

/-- Going on with nothing changes nothing. -/
theorem comp_eq_iff : Comp R Eq x y ↔ R x y := by
  refine ⟨?_,fun h => ⟨y,h,rfl⟩⟩
  rintro ⟨_,h,rfl⟩
  exact h

theorem iter_reflTransGen (h : iter R n x y) : ReflTransGen R x y := by
  induction n generalizing x with
  | zero => exact h ▸ .refl
  | succ n ih =>
    obtain ⟨w,hw,hwy⟩ := h
    exact .head hw (ih hwy)

theorem reflTransGen_iff : ReflTransGen R x y ↔ ∃ n, iter R n x y := by
  refine ⟨fun h => ?_,?_⟩
  swap
  · rintro ⟨_,h⟩
    exact iter_reflTransGen h
  induction h using ReflTransGen.head_induction_on with
  | refl => exact ⟨0,rfl⟩
  | head hxw _ ih =>
    obtain ⟨n,hn⟩ := ih
    exact ⟨n + 1,_,hxw,hn⟩

/-- What may be left out n times is done n times at most. -/
theorem iter_optional : iter (fun x y => R x y ∨ x = y) n x y ↔ ∃ k ≤ n, iter R k x y := by
  induction n generalizing x with
  | zero =>
    refine ⟨fun h => ⟨0,le_rfl,h⟩,?_⟩
    rintro ⟨k,hk,h⟩
    obtain rfl := Nat.le_zero.mp hk
    exact h
  | succ n ih =>
    constructor
    · rintro ⟨w,hw | rfl,hwy⟩
      · obtain ⟨k,hk,h⟩ := ih.mp hwy
        exact ⟨k + 1,Nat.succ_le_succ hk,w,hw,h⟩
      · obtain ⟨k,hk,h⟩ := ih.mp hwy
        exact ⟨k,Nat.le_succ_of_le hk,h⟩
    · rintro ⟨k,hk,h⟩
      cases k with
      | zero => exact ⟨x,Or.inr rfl,ih.mpr ⟨0,Nat.zero_le n,h⟩⟩
      | succ k =>
        obtain ⟨w,hw,hwy⟩ := h
        exact ⟨w,Or.inl hw,ih.mpr ⟨k,Nat.le_of_succ_le_succ hk,hwy⟩⟩

end iterates

section runs
variable {α β : Type*} {Step : α × β → α × β → Prop} {Final : α × β → Prop}

/-- A run of the given number of steps. -/
inductive Steps (Step : α × β → α × β → Prop) : ℕ → α × β → α × β → Prop where
  | refl (s : α × β) : Steps Step 0 s s
  | head {n : ℕ} {s t u : α × β} (first : Step s t) (rest : Steps Step n t u) : Steps Step (n + 1) s u

theorem Steps.trans {m n : ℕ} {s t u : α × β} (h : Steps Step m s t) (h' : Steps Step n t u) :
    Steps Step (m + n) s u := by
  induction h with
  | refl => rwa [Nat.zero_add]
  | head first _ ih =>
    rw [Nat.add_right_comm]
    exact .head first (ih h')

theorem Steps.reflTransGen {n : ℕ} {s t : α × β} (h : Steps Step n s t) : ReflTransGen Step s t := by
  induction h with
  | refl => exact .refl
  | head first _ ih => exact .head first ih

theorem exists_steps {s t : α × β} (h : ReflTransGen Step s t) : ∃ n, Steps Step n s t := by
  induction h using ReflTransGen.head_induction_on with
  | refl => exact ⟨0,.refl t⟩
  | head first _ ih =>
    obtain ⟨n,hn⟩ := ih
    exact ⟨n + 1,.head first hn⟩

/-- A final state is only met after the first step. -/
theorem Steps.cases_of_not_final {n : ℕ} {s f : α × β} (h : Steps Step n s f) (hf : Final f)
    (hs : ¬ Final s) : ∃ m t, n = m + 1 ∧ Step s t ∧ Steps Step m t f := by
  cases h with
  | refl => exact absurd hf hs
  | head first rest => exact ⟨_,_,rfl,first,rest⟩

structure Does (Step : α × β → α × β → Prop) (Final : α × β → Prop) (entry exit : α)
    (R : β → β → Prop) : Prop where
  sound : ∀ {n x f}, Final f → Steps Step n (entry,x) f →
    ∃ m y, m ≤ n ∧ R x y ∧ Steps Step m (exit,y) f
  complete : ∀ {x y}, R x y → ReflTransGen Step (entry,x) (exit,y)

namespace Does
variable {a b c e : α} {R S : β → β → Prop}

theorem refl (a : α) : Does Step Final a a Eq where
  sound _ h := ⟨_,_,le_rfl,rfl,h⟩
  complete h := h ▸ .refl

theorem congr (h : Does Step Final a b R) (hRS : ∀ x y, R x y ↔ S x y) : Does Step Final a b S where
  sound hf hrun := by
    obtain ⟨m,y,hle,hR,hrest⟩ := h.sound hf hrun
    exact ⟨m,y,hle,(hRS _ _).mp hR,hrest⟩
  complete hS := h.complete ((hRS _ _).mpr hS)

theorem trans (h : Does Step Final a b R) (h' : Does Step Final b c S) :
    Does Step Final a c (Comp R S) where
  sound hf hrun := by
    obtain ⟨m,y,hm,hR,hrest⟩ := h.sound hf hrun
    obtain ⟨k,z,hk,hS,hend⟩ := h'.sound hf hrest
    exact ⟨k,z,hk.trans hm,⟨y,hR,hS⟩,hend⟩
  complete hRS := by
    obtain ⟨_,hR,hS⟩ := hRS
    exact (h.complete hR).trans (h'.complete hS)

/-- One instruction that goes on at one point. -/
theorem step (hstep : ∀ x s, Step (a,x) s ↔ ∃ y, R x y ∧ s = (b,y)) (hfinal : ∀ x, ¬ Final (a,x)) :
    Does Step Final a b R where
  sound hf hrun := by
    obtain ⟨m,t,rfl,hfirst,hrest⟩ := hrun.cases_of_not_final hf (hfinal _)
    obtain ⟨y,hR,rfl⟩ := (hstep _ _).mp hfirst
    exact ⟨m,y,Nat.le_succ m,hR,hrest⟩
  complete hR := .single ((hstep _ _).mpr ⟨_,hR,rfl⟩)

/-- An instruction that goes on at either of two points. -/
theorem choice (hstep : ∀ x s, Step (a,x) s ↔ s = (b,x) ∨ s = (c,x)) (hfinal : ∀ x, ¬ Final (a,x))
    (hb : Does Step Final b e R) (hc : Does Step Final c e S) :
    Does Step Final a e (fun x y => R x y ∨ S x y) where
  sound hf hrun := by
    obtain ⟨m,t,rfl,hfirst,hrest⟩ := hrun.cases_of_not_final hf (hfinal _)
    rcases (hstep _ _).mp hfirst with rfl | rfl
    · obtain ⟨k,y,hk,hR,hend⟩ := hb.sound hf hrest
      exact ⟨k,y,Nat.le_succ_of_le hk,Or.inl hR,hend⟩
    · obtain ⟨k,y,hk,hS,hend⟩ := hc.sound hf hrest
      exact ⟨k,y,Nat.le_succ_of_le hk,Or.inr hS,hend⟩
  complete h := by
    rcases h with hR | hS
    · exact .head ((hstep _ _).mpr (Or.inl rfl)) (hb.complete hR)
    · exact .head ((hstep _ _).mpr (Or.inr rfl)) (hc.complete hS)

/-- A loop that is tested in front, whose body comes back to the test. -/
theorem loop (hstep : ∀ x s, Step (a,x) s ↔ s = (b,x) ∨ s = (e,x)) (hfinal : ∀ x, ¬ Final (a,x))
    (hbody : Does Step Final b a R) : Does Step Final a e (ReflTransGen R) where
  sound {n} := by
    induction n using Nat.strong_induction_on with
    | _ n ih =>
      intro x f hf hrun
      obtain ⟨m,t,rfl,hfirst,hrest⟩ := hrun.cases_of_not_final hf (hfinal _)
      rcases (hstep _ _).mp hfirst with rfl | rfl
      · obtain ⟨k,y,hk,hR,hback⟩ := hbody.sound hf hrest
        obtain ⟨l,z,hl,hyz,hend⟩ := ih k (Nat.lt_succ_of_le hk) hf hback
        exact ⟨l,z,by omega,.head hR hyz,hend⟩
      · exact ⟨m,x,Nat.le_succ m,.refl,hrest⟩
  complete h := by
    induction h using ReflTransGen.head_induction_on with
    | refl => exact .single ((hstep _ _).mpr (Or.inr rfl))
    | head hR _ ih => exact (ReflTransGen.head ((hstep _ _).mpr (Or.inl rfl)) (hbody.complete hR)).trans ih

/-- What a run from the entry to a final state shows. -/
theorem final_iff (h : Does Step Final a b R) {x : β} {f : α × β} (hf : Final f) :
    ReflTransGen Step (a,x) f ↔ ∃ y, R x y ∧ ReflTransGen Step (b,y) f := by
  constructor
  · intro hrun
    obtain ⟨n,hn⟩ := exists_steps hrun
    obtain ⟨m,y,-,hR,hrest⟩ := h.sound hf hn
    exact ⟨y,hR,hrest.reflTransGen⟩
  · rintro ⟨y,hR,hrest⟩
    exact (h.complete hR).trans hrest

end Does

end runs

end SecureWipeOut.CodeBlock
