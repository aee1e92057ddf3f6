import SecureWipeOut.Regex.CompileExact
import SecureWipeOut.Regex.VmExact

/-! # From runs to stretches of the text

What a program accepts are the runs of its pattern, behind as much of the text as is skipped in
front of it. Whether there is one does not depend on the captures.
-/
namespace SecureWipeOut.Regex
open Relation CodeBlock

section iterates
variable {α β : Type*} {R : α → α → Prop} {S : β → β → Prop} {f : α → β}

theorem iter_map (h : ∀ x y, R x y → S (f x) (f y)) (k : ℕ) {x y : α} (hxy : iter R k x y) :
    iter S k (f x) (f y) := by
  induction k generalizing x with
  | zero => exact congrArg f hxy
  | succ k ih =>
    obtain ⟨z,hxz,hzy⟩ := hxy
    exact ⟨f z,h x z hxz,ih hzy⟩

theorem iter_keeps (h : ∀ x y, R x y → f y = f x) (k : ℕ) {x y : α} (hxy : iter R k x y) : f y = f x := by
  induction k generalizing x with
  | zero => exact congrArg f (Eq.symm hxy)
  | succ k ih =>
    obtain ⟨z,hxz,hzy⟩ := hxy
    rw [ih hzy,h x z hxz]

theorem iter_lift (h : ∀ x j, S (f x) j → ∃ y, f y = j ∧ R x y) (k : ℕ) {x : α} {j : β}
    (hxj : iter S k (f x) j) : ∃ y, f y = j ∧ iter R k x y := by
  induction k generalizing x with
  | zero => exact ⟨x,hxj,rfl⟩
  | succ k ih =>
    obtain ⟨i,hxi,hij⟩ := hxj
    obtain ⟨z,rfl,hxz⟩ := h x i hxi
    obtain ⟨y,hy,hzy⟩ := ih hij
    exact ⟨y,hy,z,hxz,hzy⟩

end iterates

section runs
variable {t : Text} {nmatches : ℕ}

theorem Node.Runs.spans (node : Node) {n : ℕ} {x y : Data} (h : node.Runs t nmatches n x y) :
    node.Spans t x.1 y.1 := by
  induction node generalizing n x y with
  | epsilon => exact congrArg Prod.fst h
  | anyCharacter =>
    obtain ⟨hlt,-,rfl⟩ := h
    exact ⟨hlt,rfl⟩
  | character ch =>
    obtain ⟨hlt,htest,rfl⟩ := h
    exact ⟨hlt,beq_iff_eq.mp htest,rfl⟩
  | characterClass start =>
    obtain ⟨hlt,htest,rfl⟩ := h
    exact ⟨hlt,htest,rfl⟩
  | characterClassNegated start =>
    obtain ⟨hlt,htest,rfl⟩ := h
    exact ⟨hlt,by simpa using htest,rfl⟩
  | concatenation left right ihl ihr =>
    obtain ⟨z,hxz,hzy⟩ := h
    exact ⟨z.1,ihl hxz,ihr hzy⟩
  | alternation left right ihl ihr => exact h.imp ihl ihr
  | quantifier nmin nmax greedy quantified ih =>
    obtain ⟨k,hk,hiter⟩ := h
    exact ⟨k,hk,iter_map (f := Prod.fst) (fun x y hxy => ih hxy) k hiter⟩
  | anchorBegin | anchorEnd => exact ⟨h.1,congrArg Prod.fst h.2⟩
  | capture captured ih =>
    obtain ⟨z,hz,rfl⟩ := h
    have hspan := ih hz
    exact hspan

theorem Node.Spans.runs (node : Node) (n : ℕ) (x : Data) (j : ℕ) (h : node.Spans t x.1 j) :
    ∃ y : Data, y.1 = j ∧ node.Runs t nmatches n x y := by
  induction node generalizing n x j with
  | epsilon => exact ⟨x,h,rfl⟩
  | anyCharacter => exact ⟨(x.1 + 1,x.2),h.2.symm,h.1,rfl,rfl⟩
  | character ch => exact ⟨(x.1 + 1,x.2),h.2.2.symm,h.1,beq_iff_eq.mpr h.2.1,rfl⟩
  | characterClass start => exact ⟨(x.1 + 1,x.2),h.2.2.symm,h.1,h.2.1,rfl⟩
  | characterClassNegated start =>
    exact ⟨(x.1 + 1,x.2),h.2.2.symm,h.1,by simpa using h.2.1,rfl⟩
  | concatenation left right ihl ihr =>
    obtain ⟨i,hi,hij⟩ := h
    obtain ⟨z,rfl,hxz⟩ := ihl n x i hi
    obtain ⟨y,hy,hzy⟩ := ihr (left.ncaptures n) z j hij
    exact ⟨y,hy,z,hxz,hzy⟩
  | alternation left right ihl ihr =>
    rcases h with h | h
    · obtain ⟨y,hy,hxy⟩ := ihl n x j h
      exact ⟨y,hy,Or.inl hxy⟩
    · obtain ⟨y,hy,hxy⟩ := ihr (left.ncaptures n) x j h
      exact ⟨y,hy,Or.inr hxy⟩
  | quantifier nmin nmax greedy quantified ih =>
    obtain ⟨k,hk,hiter⟩ := h
    obtain ⟨y,hy,hxy⟩ := iter_lift (f := Prod.fst) (ih n) k hiter
    exact ⟨y,hy,k,hk,hxy⟩
  | anchorBegin | anchorEnd => exact ⟨x,h.2,h.1,rfl⟩
  | capture captured ih =>
    obtain ⟨z,hz,hrun⟩ := ih (n + 1) (x.1,x.2.save nmatches (2 * n) x.1) j h
    exact ⟨(z.1,z.2.save nmatches (2 * n + 1) z.1),hz,z,hrun,rfl⟩

theorem Node.ncaptures_le (node : Node) (n : ℕ) : n ≤ node.ncaptures n := by
  induction node generalizing n with
  | concatenation left right ihl ihr | alternation left right ihl ihr => exact (ihl n).trans (ihr _)
  | quantifier nmin nmax greedy quantified ih =>
    rw [Node.ncaptures]
    split
    · exact ih n
    · exact le_rfl
  | capture captured ih => exact (Nat.le_succ n).trans (ih (n + 1))
  | _ => exact le_rfl

theorem Matches.save_of_ne (m : Matches) {k l sp : ℕ} (h : l ≠ k) : m.save nmatches k sp l = m l := by
  unfold Matches.save
  split
  · exact Function.update_of_ne h _ _
  · rfl

theorem Matches.save_self (m : Matches) {k sp : ℕ} (h : k < nmatches) (h' : k < vmMaxMatches) :
    m.save nmatches k sp k = some sp := by
  rw [Matches.save,if_pos ⟨h,h'⟩,Function.update_self]

/-- The captures in front of a node stay as they are. -/
theorem Node.Runs.keeps (node : Node) {n l : ℕ} {x y : Data} (h : node.Runs t nmatches n x y)
    (hl : l < 2 * n) : y.2 l = x.2 l := by
  induction node generalizing n x y with
  | epsilon => rw [show x = y from h]
  | character _ | anyCharacter | characterClass _ | characterClassNegated _ => rw [h.2.2]
  | concatenation left right ihl ihr =>
    obtain ⟨z,hxz,hzy⟩ := h
    have hle := left.ncaptures_le n
    rw [ihr hzy (by omega),ihl hxz hl]
  | alternation left right ihl ihr =>
    have hle := left.ncaptures_le n
    exact h.elim (fun h => ihl h hl) (fun h => ihr h (by omega))
  | quantifier nmin nmax greedy quantified ih =>
    obtain ⟨k,-,hiter⟩ := h
    exact iter_keeps (f := fun x : Data => x.2 l) (fun x y hxy => ih hxy hl) k hiter
  | anchorBegin | anchorEnd => rw [h.2]
  | capture captured ih =>
    obtain ⟨z,hz,rfl⟩ := h
    dsimp only
    rw [Matches.save_of_ne _ (by omega),ih hz (by omega)]
    exact Matches.save_of_ne _ (by omega)

end runs

section searched
variable {t : Text} {nmatches : ℕ} {root : Node} {j : ℕ}

theorem iter_any_iff {k : ℕ} {x y : Data} :
    iter (Consumes t fun _ => true) k x y ↔ y = (x.1 + k,x.2) ∧ (k = 0 ∨ x.1 + k ≤ t.length) := by
  induction k generalizing x with
  | zero => exact ⟨fun h => ⟨h.symm,Or.inl rfl⟩,fun h => h.1.symm⟩
  | succ k ih =>
    constructor
    · rintro ⟨z,⟨hlt,-,rfl⟩,hzy⟩
      obtain ⟨rfl,hk⟩ := ih.mp hzy
      dsimp only at hk ⊢
      exact ⟨by rw [Nat.add_assoc,Nat.add_comm 1 k],Or.inr (by omega)⟩
    · rintro ⟨rfl,hk⟩
      refine ⟨(x.1 + 1,x.2),⟨by omega,rfl,rfl⟩,ih.mpr ⟨?_,Or.inr ?_⟩⟩
      · rw [Nat.add_assoc,Nat.add_comm 1 k]
      · dsimp only
        omega

/-- Where a match of the pattern can begin. -/
def Node.MayBegin (root : Node) (t : Text) (i : ℕ) : Prop :=
  i ≤ t.length ∧ (root.isAnchored = true → i = 0)

theorem searched_runs_iff {m : Matches} {y : Data} :
    root.searched.Runs t nmatches 0 (0,m) y ↔
      ∃ i, root.MayBegin t i ∧ (Node.capture root).Runs t nmatches 0 (i,m) y := by
  unfold Node.searched
  cases hanchored : root.isAnchored with
  | true =>
    rw [if_pos rfl]
    refine ⟨fun h => ⟨0,⟨Nat.zero_le _,fun _ => rfl⟩,h⟩,?_⟩
    rintro ⟨i,⟨-,hi⟩,h⟩
    rwa [hi hanchored] at h
  | false =>
    rw [if_neg Bool.false_ne_true]
    constructor
    · rintro ⟨z,⟨k,-,hiter⟩,hrun⟩
      obtain ⟨rfl,hk⟩ := iter_any_iff.mp hiter
      refine ⟨0 + k,⟨?_,fun h => ?_⟩,hrun⟩
      · omega
      · cases hanchored.symm.trans h
    · rintro ⟨i,⟨hle,-⟩,hrun⟩
      have hskip : iter (Consumes t fun _ => true) i (0,m) (i,m) :=
        iter_any_iff.mpr ⟨by rw [Nat.zero_add],Or.inr (by rwa [Nat.zero_add])⟩
      exact ⟨(i,m),⟨i,⟨Nat.zero_le i,Or.inl rfl⟩,hskip⟩,hrun⟩

theorem searched_valid (h : root.Valid) : root.searched.Valid := by
  unfold Node.searched
  split
  · exact h
  · exact ⟨⟨Or.inl rfl,trivial⟩,h⟩

/-- What the program accepts are the runs of the pattern. -/
theorem accepts_iff (hvalid : root.Valid) {f : Thread} :
    Accepts t nmatches (compileNode root) j f ↔ f.1 = (compileContext root.searched 0 0).length ∧
      root.searched.Runs t nmatches 0 (0,fun _ => none) (j,f.2) := by
  have hcode : CodeAt (compileNode root) 0 (compileContext root.searched 0 0) := List.prefix_append _ _
  have hdoes : DoesCode t nmatches (compileNode root) 0 (compileContext root.searched 0 0).length
      (root.searched.Runs t nmatches 0) := by
    have hall : DoesCode t nmatches _ 0 _ _ := compileContext_does _ (searched_valid hvalid) 0 0 hcode
    rwa [Nat.zero_add] at hall
  have hlast : (compileNode root)[(compileContext root.searched 0 0).length]? = some .matched := by
    simp [compileNode]
  constructor
  · rintro ⟨hfinal,hreach⟩
    have hf : Final (compileNode root) (f.1,(j,f.2)) := hfinal
    obtain ⟨y,hrun,hrest⟩ := (hdoes.final_iff hf).mp hreach
    obtain heq | ⟨s,hstep,-⟩ := ReflTransGen.cases_head hrest
    · obtain ⟨hpc,rfl⟩ := Prod.ext_iff.mp heq
      exact ⟨hpc.symm,hrun⟩
    · obtain ⟨instr,hinstr,hgoes⟩ := hstep
      obtain rfl := Option.some.inj (hlast.symm.trans hinstr)
      cases hgoes
  · rintro ⟨hpc,hrun⟩
    refine ⟨hpc ▸ hlast,?_⟩
    unfold Reaches
    rw [hpc]
    exact hdoes.complete hrun

/-- The pattern matches somewhere in the text. -/
def Node.OccursIn (root : Node) (t : Text) (i j : ℕ) : Prop := root.MayBegin t i ∧ root.Spans t i j

theorem exists_accepts_iff (hvalid : root.Valid) :
    (∃ f, Accepts t nmatches (compileNode root) j f) ↔ ∃ i, root.OccursIn t i j := by
  constructor
  · rintro ⟨f,hf⟩
    obtain ⟨-,hrun⟩ := (accepts_iff hvalid).mp hf
    obtain ⟨i,hi,hcapture⟩ := searched_runs_iff.mp hrun
    exact ⟨i,hi,hcapture.spans⟩
  · rintro ⟨i,hi,hspan⟩
    obtain ⟨y,hy,hrun⟩ : ∃ y : Data, y.1 = j ∧ (Node.capture root).Runs t nmatches 0 (i,fun _ => none) y :=
      Node.Spans.runs (.capture root) 0 (i,fun _ => none) j hspan
    subst hy
    exact ⟨(_,y.2),(accepts_iff hvalid).mpr ⟨rfl,searched_runs_iff.mpr ⟨i,hi,hrun⟩⟩⟩

end searched

end SecureWipeOut.Regex
