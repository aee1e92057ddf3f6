import Mathlib.Data.Finset.Card
import Mathlib.Logic.Relation
import Mathlib.Tactic

/-! # Depth-first walks with marks

A walk goes from points to further points, carries data along and keeps the leaves it
comes to in the order in which it finds them. A point that bears the stamp of the walk is not
entered again, so that marks of earlier walks need not be cleared.
-/
namespace SecureWipeOut.MarkedWalk
open Relation

variable {α δ : Type*}

structure Walk (α δ : Type*) where
  marks : α → ℕ
  leaves : List (α × δ)

section walk
variable [DecidableEq α] (leaf : α → Bool) (next : α × δ → List (α × δ)) (stamp : ℕ)

def Walk.mark (w : Walk α δ) (a : α) (stamp : ℕ) : Walk α δ := ⟨Function.update w.marks a stamp,w.leaves⟩

def Walk.found (w : Walk α δ) (p : α × δ) : Walk α δ := ⟨w.marks,w.leaves ++ [p]⟩

def walk : ℕ → Walk α δ → α × δ → Walk α δ
  | 0,w,_ => w
  | fuel + 1,w,p =>
    if w.marks p.1 = stamp then w
    else if leaf p.1 then (w.mark p.1 stamp).found p
    else (next p).foldl (walk fuel) (w.mark p.1 stamp)

end walk

variable {leaf : α → Bool} {next : α × δ → List (α × δ)} {stamp : ℕ} {w w' w'' : Walk α δ}

/-- A point that the walk goes on from. -/
def Inner (leaf : α → Bool) (next : α × δ → List (α × δ)) (p q : α × δ) : Prop :=
  leaf p.1 = false ∧ q ∈ next p

/-- What a walk adds on its way from one of the given points. -/
structure Adds (leaf : α → Bool) (next : α × δ → List (α × δ)) (stamp : ℕ) (roots : List (α × δ))
    (w w' : Walk α δ) : Prop where
  mono : ∀ a, w.marks a = stamp → w'.marks a = stamp
  other : ∀ a, w'.marks a ≠ stamp → w'.marks a = w.marks a
  rooted : ∀ p ∈ roots, w'.marks p.1 = stamp
  closed : ∀ a, w.marks a ≠ stamp → w'.marks a = stamp → leaf a = false →
    ∀ d, ∀ q ∈ next (a,d), w'.marks q.1 = stamp
  leaves : ∃ found, w'.leaves = w.leaves ++ found ∧ (found.map Prod.fst).Nodup ∧
    (∀ a, (w.marks a ≠ stamp ∧ w'.marks a = stamp ∧ leaf a = true) ↔ a ∈ found.map Prod.fst) ∧
    ∀ q ∈ found, ∃ p ∈ roots, ReflTransGen (Inner leaf next) p q

theorem Adds.nil (w : Walk α δ) : Adds leaf next stamp [] w w where
  mono _ h := h
  other _ _ := rfl
  rooted _ h := absurd h List.not_mem_nil
  closed _ h h' := absurd h' h
  leaves := ⟨[],by simp,List.nodup_nil,fun a => by simp; tauto,fun _ h => absurd h List.not_mem_nil⟩

theorem Adds.append {ps qs : List (α × δ)} (h : Adds leaf next stamp ps w w')
    (h' : Adds leaf next stamp qs w' w'') : Adds leaf next stamp (ps ++ qs) w w'' where
  mono a ha := h'.mono a (h.mono a ha)
  other a ha := by
    have hmid : w'.marks a ≠ stamp := fun heq => ha (h'.mono a heq)
    rw [h'.other a ha,h.other a hmid]
  rooted p hp := by
    rcases List.mem_append.mp hp with hp | hp
    · exact h'.mono _ (h.rooted p hp)
    · exact h'.rooted p hp
  closed a ha ha' hleaf d q hq := by
    by_cases hmid : w'.marks a = stamp
    · exact h'.mono _ (h.closed a ha hmid hleaf d q hq)
    · exact h'.closed a hmid ha' hleaf d q hq
  leaves := by
    obtain ⟨found,hfound,hnodup,hiff,hfrom⟩ := h.leaves
    obtain ⟨found',hfound',hnodup',hiff',hfrom'⟩ := h'.leaves
    refine ⟨found ++ found',by rw [hfound',hfound,List.append_assoc],?_,?_,?_⟩
    · rw [List.map_append]
      refine hnodup.append hnodup' fun a ha ha' => ?_
      exact ((hiff' a).mpr ha').1 ((hiff a).mpr ha).2.1
    · intro a
      rw [List.map_append,List.mem_append,← hiff,← hiff']
      constructor
      · rintro ⟨ha,ha',hleaf⟩
        by_cases hmid : w'.marks a = stamp
        · exact Or.inl ⟨ha,hmid,hleaf⟩
        · exact Or.inr ⟨hmid,ha',hleaf⟩
      · rintro (⟨ha,hmid,hleaf⟩ | ⟨hmid,ha',hleaf⟩)
        · exact ⟨ha,h'.mono a hmid,hleaf⟩
        · exact ⟨fun heq => hmid (h.mono a heq),ha',hleaf⟩
    · intro q hq
      rcases List.mem_append.mp hq with hq | hq
      · obtain ⟨p,hp,hrun⟩ := hfrom q hq
        exact ⟨p,List.mem_append_left _ hp,hrun⟩
      · obtain ⟨p,hp,hrun⟩ := hfrom' q hq
        exact ⟨p,List.mem_append_right _ hp,hrun⟩

/-- The number of points of a finite set that do not bear the stamp. -/
def fresh (U : Finset α) (stamp : ℕ) (w : Walk α δ) : ℕ := (U.filter fun a => w.marks a ≠ stamp).card

theorem fresh_le {U : Finset α} {roots : List (α × δ)} (h : Adds leaf next stamp roots w w') :
    fresh U stamp w' ≤ fresh U stamp w := by
  refine Finset.card_le_card fun a ha => ?_
  rw [Finset.mem_filter] at ha ⊢
  exact ⟨ha.1,fun heq => ha.2 (h.mono a heq)⟩

/-- Which points come next does not depend on the data. -/
def Steady (next : α × δ → List (α × δ)) : Prop :=
  ∀ a d d', (next (a,d)).map Prod.fst = (next (a,d')).map Prod.fst

theorem Adds.of_marked {p : α × δ} (h : w.marks p.1 = stamp) : Adds leaf next stamp [p] w w := by
  refine { Adds.nil w with rooted := fun q hq => ?_,leaves := ?_ }
  · rwa [List.mem_singleton.mp hq]
  · have hnil : Adds leaf next stamp [] w w := .nil w
    obtain ⟨found,hfound,hnodup,hiff,hfrom⟩ := hnil.leaves
    refine ⟨found,hfound,hnodup,hiff,fun q hq => ?_⟩
    obtain ⟨r,hr,-⟩ := hfrom q hq
    exact absurd hr List.not_mem_nil

section marking
variable [DecidableEq α]

@[simp] theorem Walk.mark_marks_self (w : Walk α δ) (a : α) : (w.mark a stamp).marks a = stamp :=
  Function.update_self ..

theorem Walk.mark_marks_of_ne (w : Walk α δ) {a b : α} (h : b ≠ a) :
    (w.mark a stamp).marks b = w.marks b :=
  Function.update_of_ne h ..

@[simp] theorem Walk.mark_leaves (w : Walk α δ) (a : α) : (w.mark a stamp).leaves = w.leaves := rfl

theorem Walk.mark_mono (w : Walk α δ) (a : α) {b : α} (h : w.marks b = stamp) :
    (w.mark a stamp).marks b = stamp := by
  by_cases hba : b = a
  · rw [hba,Walk.mark_marks_self]
  · rw [w.mark_marks_of_ne hba,h]

theorem fresh_mark {U : Finset α} {a : α} (ha : a ∈ U) (h : w.marks a ≠ stamp) :
    fresh U stamp (w.mark a stamp) < fresh U stamp w := by
  refine Finset.card_lt_card ⟨fun b hb => ?_,fun hsub => ?_⟩
  · rw [Finset.mem_filter] at hb ⊢
    exact ⟨hb.1,fun heq => hb.2 (w.mark_mono a heq)⟩
  · have hmem := hsub (Finset.mem_filter.mpr ⟨ha,h⟩)
    exact (Finset.mem_filter.mp hmem).2 (w.mark_marks_self a)

theorem Adds.of_leaf {p : α × δ} (h : w.marks p.1 ≠ stamp) (hleaf : leaf p.1 = true) :
    Adds leaf next stamp [p] w ((w.mark p.1 stamp).found p) where
  mono a ha := w.mark_mono p.1 ha
  other a ha := w.mark_marks_of_ne fun hap => ha (hap ▸ w.mark_marks_self p.1)
  rooted q hq := by
    rw [List.mem_singleton.mp hq]
    exact w.mark_marks_self p.1
  closed a ha ha' hinner := by
    by_cases hap : a = p.1
    · rw [hap,hleaf] at hinner
      cases hinner
    · exact absurd ((w.mark_marks_of_ne hap).symm.trans ha') ha
  leaves := by
    refine ⟨[p],rfl,List.nodup_singleton _,fun a => ?_,fun q hq => ?_⟩
    · rw [List.map_singleton,List.mem_singleton]
      constructor
      · rintro ⟨ha,ha',-⟩
        by_contra hap
        exact ha ((w.mark_marks_of_ne hap).symm.trans ha')
      · rintro rfl
        exact ⟨h,w.mark_marks_self p.1,hleaf⟩
    · exact ⟨p,List.mem_singleton_self p,List.mem_singleton.mp hq ▸ .refl⟩

theorem Adds.of_next {p : α × δ} (hinner : leaf p.1 = false) (hsteady : Steady next)
    (hadds : Adds leaf next stamp (next p) (w.mark p.1 stamp) w') :
    Adds leaf next stamp [p] w w' where
  mono a ha := hadds.mono a (w.mark_mono p.1 ha)
  other a ha := by
    have hap : a ≠ p.1 := fun hap => ha (hap ▸ hadds.mono _ (w.mark_marks_self p.1))
    rw [hadds.other a ha,w.mark_marks_of_ne hap]
  rooted q hq := by
    rw [List.mem_singleton.mp hq]
    exact hadds.mono _ (w.mark_marks_self p.1)
  closed a ha ha' hleaf d q hq := by
    by_cases hap : a = p.1
    · have hmem : q.1 ∈ (next (a,d)).map Prod.fst := List.mem_map_of_mem hq
      rw [hsteady a d p.2,hap] at hmem
      obtain ⟨q',hq',heq⟩ := List.mem_map.mp hmem
      exact heq ▸ hadds.rooted q' hq'
    · exact hadds.closed a ((w.mark_marks_of_ne hap).trans_ne ha) ha' hleaf d q hq
  leaves := by
    obtain ⟨found,hfound,hnodup,hiff,hfrom⟩ := hadds.leaves
    refine ⟨found,hfound,hnodup,fun a => ?_,fun q hq => ?_⟩
    · rw [← hiff]
      have hsame : leaf a = true → (w.mark p.1 stamp).marks a = w.marks a := fun hleaf =>
        w.mark_marks_of_ne fun hap => Bool.false_ne_true (hinner.symm.trans (hap ▸ hleaf))
      constructor
      · rintro ⟨ha,ha',hleaf⟩
        exact ⟨(hsame hleaf).trans_ne ha,ha',hleaf⟩
      · rintro ⟨ha,ha',hleaf⟩
        exact ⟨(hsame hleaf).symm.trans_ne ha,ha',hleaf⟩
    · obtain ⟨r,hr,hrun⟩ := hfrom q hq
      exact ⟨p,List.mem_singleton_self p,.head ⟨hinner,hr⟩ hrun⟩

theorem foldl_adds {U : Finset α} {fuel : ℕ}
    (hwalk : ∀ w p, p.1 ∈ U → fresh U stamp w ≤ fuel →
      Adds leaf next stamp [p] w (walk leaf next stamp fuel w p))
    {ps : List (α × δ)} (hps : ∀ p ∈ ps, p.1 ∈ U) (hfuel : fresh U stamp w ≤ fuel) :
    Adds leaf next stamp ps w (ps.foldl (walk leaf next stamp fuel) w) := by
  induction ps generalizing w with
  | nil => exact .nil w
  | cons p ps ih =>
    have hp := hwalk w p (hps p List.mem_cons_self) hfuel
    exact hp.append (ih (fun q hq => hps q (List.mem_cons_of_mem p hq)) ((fresh_le hp).trans hfuel))

/-- With fuel for every point that is not marked yet, the walk comes to all that can be come to. -/
theorem walk_adds {U : Finset α} (hU : ∀ a ∈ U, ∀ d, ∀ q ∈ next (a,d), q.1 ∈ U)
    (hsteady : Steady next) (fuel : ℕ) (w : Walk α δ) (p : α × δ) (hp : p.1 ∈ U)
    (hfuel : fresh U stamp w ≤ fuel) :
    Adds leaf next stamp [p] w (walk leaf next stamp fuel w p) := by
  induction fuel generalizing w p with
  | zero =>
    refine .of_marked ?_
    by_contra hne
    have hmem : p.1 ∈ U.filter fun a => w.marks a ≠ stamp := Finset.mem_filter.mpr ⟨hp,hne⟩
    have hpos := Finset.card_pos.mpr ⟨p.1,hmem⟩
    exact absurd hfuel (Nat.not_le.mpr hpos)
  | succ fuel ih =>
    rw [walk]
    by_cases hmarked : w.marks p.1 = stamp
    · rw [if_pos hmarked]
      exact .of_marked hmarked
    rw [if_neg hmarked]
    cases hleaf : leaf p.1 with
    | true => exact .of_leaf hmarked hleaf
    | false =>
      have hlt := fresh_mark hp hmarked
      exact .of_next hleaf hsteady
        (foldl_adds ih (hU p.1 hp p.2) (by omega))

end marking

/-- From a walk without marks, what is marked is what can be come to. -/
theorem Adds.marked_of_reach {p q : α × δ} (h : Adds leaf next stamp [p] w w')
    (hclosed : ∀ a, w.marks a = stamp → leaf a = false → ∀ d, ∀ q ∈ next (a,d), w'.marks q.1 = stamp)
    (hpq : ReflTransGen (Inner leaf next) p q) : w'.marks q.1 = stamp := by
  induction hpq with
  | refl => exact h.rooted p (List.mem_singleton_self p)
  | @tail a b _ hstep ih =>
    by_cases ha : w.marks a.1 = stamp
    · exact hclosed a.1 ha hstep.1 a.2 b hstep.2
    · exact h.closed a.1 ha ih hstep.1 a.2 b hstep.2

section order
variable {R : α × δ → α × δ → Prop}

/-- Everything found from the first point is in front of everything found from the second. -/
def Before (leaf : α → Bool) (next : α × δ → List (α × δ)) (R : α × δ → α × δ → Prop) (p q : α × δ) : Prop :=
  ∀ v v', ReflTransGen (Inner leaf next) p v → ReflTransGen (Inner leaf next) q v' →
    leaf v.1 = true → leaf v'.1 = true → R v v'

variable (leaf next R) in
/-- What is found on the way from one of the given points, in order. -/
def Sorts (roots : List (α × δ)) (w w' : Walk α δ) : Prop :=
  ∃ found, w'.leaves = w.leaves ++ found ∧ found.Pairwise R ∧
    ∀ q ∈ found, leaf q.1 = true ∧ ∃ p ∈ roots, ReflTransGen (Inner leaf next) p q

theorem Sorts.none (roots : List (α × δ)) (h : w'.leaves = w.leaves) : Sorts leaf next R roots w w' :=
  ⟨[],by rw [h,List.append_nil],.nil,fun _ hq => absurd hq List.not_mem_nil⟩

variable [DecidableEq α]

theorem foldl_sorts {fuel : ℕ} {ps : List (α × δ)}
    (hwalk : ∀ p ∈ ps, ∀ w, Sorts leaf next R [p] w (walk leaf next stamp fuel w p))
    (hps : ps.Pairwise (Before leaf next R)) :
    Sorts leaf next R ps w (ps.foldl (walk leaf next stamp fuel) w) := by
  induction ps generalizing w with
  | nil => exact .none [] rfl
  | cons p ps ih =>
    obtain ⟨hp,hps⟩ := List.pairwise_cons.mp hps
    obtain ⟨found,hfound,hsorted,hfrom⟩ := hwalk p List.mem_cons_self w
    obtain ⟨found',hfound',hsorted',hfrom'⟩ :=
      ih (w := walk leaf next stamp fuel w p) (fun q hq => hwalk q (List.mem_cons_of_mem p hq)) hps
    refine ⟨found ++ found',?_,?_,fun q hq => ?_⟩
    · rw [List.foldl_cons,hfound',hfound,List.append_assoc]
    · refine List.pairwise_append.mpr ⟨hsorted,hsorted',fun v hv v' hv' => ?_⟩
      obtain ⟨hleaf,r,hr,hrun⟩ := hfrom v hv
      obtain ⟨hleaf',r',hr',hrun'⟩ := hfrom' v' hv'
      rw [List.mem_singleton.mp hr] at hrun
      exact hp r' hr' v v' hrun hrun' hleaf hleaf'
    · rcases List.mem_append.mp hq with hq | hq
      · obtain ⟨hleaf,r,hr,hrun⟩ := hfrom q hq
        exact ⟨hleaf,p,List.mem_cons_self,List.mem_singleton.mp hr ▸ hrun⟩
      · obtain ⟨hleaf,r,hr,hrun⟩ := hfrom' q hq
        exact ⟨hleaf,r,List.mem_cons_of_mem p hr,hrun⟩

/-- Where the branches of every point are in order, so is what the walk finds. -/
theorem walk_sorts (fuel : ℕ) (w : Walk α δ) (p : α × δ)
    (h : ∀ q, ReflTransGen (Inner leaf next) p q → leaf q.1 = false →
      (next q).Pairwise (Before leaf next R)) :
    Sorts leaf next R [p] w (walk leaf next stamp fuel w p) := by
  induction fuel generalizing w p with
  | zero => exact .none [p] rfl
  | succ fuel ih =>
    rw [walk]
    split
    · exact .none [p] rfl
    cases hleaf : leaf p.1 with
    | true =>
      refine ⟨[p],rfl,List.pairwise_singleton R p,fun q hq => ?_⟩
      rw [List.mem_singleton.mp hq]
      exact ⟨hleaf,p,List.mem_singleton_self p,.refl⟩
    | false =>
      have hnext : ∀ q ∈ next p, ∀ w, Sorts leaf next R [q] w (walk leaf next stamp fuel w q) :=
        fun q hq w => ih w q fun r hr => h r (.head ⟨hleaf,hq⟩ hr)
      obtain ⟨found,hfound,hsorted,hfrom⟩ := foldl_sorts (w := w.mark p.1 stamp) hnext (h p .refl hleaf)
      refine ⟨found,hfound,hsorted,fun q hq => ?_⟩
      obtain ⟨hqleaf,r,hr,hrun⟩ := hfrom q hq
      exact ⟨hqleaf,p,List.mem_singleton_self p,.head ⟨hleaf,hr⟩ hrun⟩

end order

end SecureWipeOut.MarkedWalk
