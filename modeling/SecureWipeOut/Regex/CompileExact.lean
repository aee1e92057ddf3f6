import SecureWipeOut.Regex.Compile

/-! # Programs do what their patterns say

A stretch of a program that a node was compiled to does what the node matches, wherever it
stands, it has as many instructions as are counted for the node, and they go on within the
stretch or right behind it.
-/
namespace SecureWipeOut.Regex
open Relation CodeBlock

section length
variable {code : ℕ → Program} {num : ℕ}

theorem length_copies (h : ∀ pc, (code pc).length = num) (n pc : ℕ) :
    (copies code n pc).length = n * num := by
  induction n generalizing pc with
  | zero => rw [copies,List.length_nil,Nat.zero_mul]
  | succ n ih => rw [copies,List.length_append,h,ih,Nat.succ_mul,Nat.add_comm]

theorem length_optional (h : ∀ pc, (code pc).length = num) (greedy : Bool) (pc : ℕ) :
    (optional greedy code pc).length = num + 1 := by
  rw [optional,List.length_cons,h]

/-- The number of instructions emitted, wherever they stand. -/
def Node.emitted : Node → ℕ
  | .concatenation left right => left.emitted + right.emitted
  | .alternation left right => left.emitted + right.emitted + 2
  | .quantifier nmin nmax _ quantified =>
    if (nmin : ℤ) < nmax then nmin * quantified.emitted + (nmax - nmin).toNat * (quantified.emitted + 1)
    else if nmax = -1 then
      if nmin = 0 then quantified.emitted + 2 else nmin * quantified.emitted + 1
    else nmin * quantified.emitted
  | .capture captured => captured.emitted + 2
  | .epsilon => 0
  | _ => 1

theorem length_compileContext (node : Node) (n pc : ℕ) :
    (compileContext node n pc).length = node.emitted := by
  induction node generalizing n pc with
  | concatenation left right ihl ihr => simp only [compileContext,Node.emitted,List.length_append,ihl,ihr]
  | alternation left right ihl ihr =>
    simp only [compileContext,Node.emitted,List.length_append,List.length_cons,ihl,ihr]
    omega
  | quantifier nmin nmax greedy quantified ih =>
    have hcopies := length_copies (ih n)
    have hoptional := length_copies (length_optional (ih n) greedy)
    rw [compileContext,Node.emitted]
    dsimp only
    split
    · rw [List.length_append,hcopies,hoptional]
    split
    · split
      · next hzero => simp only [List.length_append,List.length_cons,List.length_nil,ih]
      · rw [List.length_append,hcopies,List.length_singleton]
    · exact hcopies nmin pc
  | capture captured ih =>
    simp only [compileContext,Node.emitted,List.length_append,List.length_cons,List.length_nil,ih]
  | _ => rfl

theorem emitted_le (node : Node) : node.emitted ≤ node.countInstructions := by
  induction node with
  | concatenation left right ihl ihr => exact Nat.add_le_add ihl ihr
  | alternation left right ihl ihr =>
    rw [Node.emitted,Node.countInstructions]
    omega
  | quantifier nmin nmax greedy quantified ih =>
    have hmul := Nat.mul_le_mul_left nmin ih
    have hmore := Nat.mul_le_mul_left (nmax - nmin).toNat (Nat.succ_le_succ ih)
    rw [Node.emitted,Node.countInstructions]
    by_cases hlt : (nmin : ℤ) < nmax
    · rw [if_pos hlt,if_pos hlt.le]
      exact Nat.add_le_add hmul hmore
    rw [if_neg hlt]
    by_cases hneg : nmax = -1
    · have hgt : ¬ (nmin : ℤ) ≤ nmax := by omega
      rw [if_pos hneg,if_neg hgt]
      by_cases hzero : nmin = 0
      · rw [if_pos hzero,if_neg (not_not.mpr hzero)]
        omega
      · rw [if_neg hzero,if_pos hzero]
        omega
    · rw [if_neg hneg]
      by_cases hle : (nmin : ℤ) ≤ nmax
      · rw [if_pos hle]
        exact hmul.trans (Nat.le_add_right _ _)
      · rw [if_neg hle]
        by_cases hzero : nmin = 0
        · rw [hzero,Nat.zero_mul]
          exact Nat.zero_le _
        · rw [if_pos hzero]
          omega
  | capture captured ih =>
    rw [Node.emitted,Node.countInstructions]
    omega
  | _ => exact le_rfl

theorem emitted_eq (node : Node) (h : node.Valid) : node.emitted = node.countInstructions := by
  induction node with
  | concatenation left right ihl ihr => rw [Node.emitted,Node.countInstructions,ihl h.1,ihr h.2]
  | alternation left right ihl ihr =>
    rw [Node.emitted,Node.countInstructions,ihl h.1,ihr h.2]
    omega
  | quantifier nmin nmax greedy quantified ih =>
    rw [Node.emitted,Node.countInstructions,ih h.2]
    rcases h.1 with hneg | hle
    · have hgt : ¬ (nmin : ℤ) ≤ nmax := by omega
      have hge : ¬ (nmin : ℤ) < nmax := by omega
      rw [if_neg hge,if_pos hneg,if_neg hgt]
      by_cases hzero : nmin = 0
      · rw [if_pos hzero,if_neg (not_not.mpr hzero)]
        omega
      · rw [if_neg hzero,if_pos hzero]
        omega
    · rw [if_pos hle]
      by_cases hlt : (nmin : ℤ) < nmax
      · rw [if_pos hlt]
      · have heq : nmax - nmin = 0 := by omega
        have hpos : ¬ nmax = -1 := by omega
        rw [if_neg hlt,if_neg hpos,heq,Int.toNat_zero,Nat.zero_mul,Nat.add_zero]
  | capture captured ih =>
    rw [Node.emitted,Node.countInstructions,ih h]
    omega
  | _ => rfl

end length

section code
variable {p : Program} {pc : ℕ} {code more : Program} {instr : Instr}

/-- The code stands in the program from pc on. -/
def CodeAt (p : Program) (pc : ℕ) (code : Program) : Prop := code <+: p.drop pc

theorem CodeAt.append (h : CodeAt p pc (code ++ more)) :
    CodeAt p pc code ∧ CodeAt p (pc + code.length) more := by
  obtain ⟨rest,hrest⟩ := h
  refine ⟨⟨more ++ rest,by rw [← hrest,List.append_assoc]⟩,⟨rest,?_⟩⟩
  rw [← List.drop_drop,← hrest,List.append_assoc,List.drop_left]

theorem CodeAt.cons (h : CodeAt p pc (instr :: more)) :
    p[pc]? = some instr ∧ CodeAt p (pc + 1) more := by
  have happ : CodeAt p pc ([instr] ++ more) := h
  refine ⟨?_,happ.append.2⟩
  obtain ⟨rest,hrest⟩ := h
  rw [← List.head?_drop,← hrest]
  rfl

end code

section does
variable {t : Text} {nmatches : ℕ} {p : Program} {pc : ℕ}

abbrev DoesCode (t : Text) (nmatches : ℕ) (p : Program) (a b : ℕ) (R : Data → Data → Prop) : Prop :=
  Does (Step t nmatches p) (Final p) a b R

theorem step_iff {instr : Instr} (h : p[pc]? = some instr) (x : Data) (s : ℕ × Data) :
    Step t nmatches p (pc,x) s ↔ instr.Goes t nmatches pc x s := by
  constructor
  · rintro ⟨i,hi,hgoes⟩
    obtain rfl : i = instr := Option.some.inj (hi.symm.trans h)
    exact hgoes
  · exact fun hgoes => ⟨instr,h,hgoes⟩

theorem not_final {instr : Instr} (h : p[pc]? = some instr) (hne : instr ≠ .matched) (x : Data) :
    ¬ Final p (pc,x) := fun hf => hne (Option.some.inj (h.symm.trans hf))

theorem does_split {greedy : Bool} {first second e : ℕ} {R S : Data → Data → Prop}
    (h : p[pc]? = some (splitTo greedy first second)) (hR : DoesCode t nmatches p first e R)
    (hS : DoesCode t nmatches p second e S) :
    DoesCode t nmatches p pc e fun x y => R x y ∨ S x y := by
  cases greedy with
  | true => exact .choice (step_iff h) (not_final h Instr.noConfusion) hR hS
  | false =>
    refine .choice (fun x s => (step_iff h x s).trans or_comm) (not_final h Instr.noConfusion) hR hS

theorem does_loop {greedy : Bool} {first e : ℕ} {R : Data → Data → Prop}
    (h : p[pc]? = some (splitTo greedy first e)) (hR : DoesCode t nmatches p first pc R) :
    DoesCode t nmatches p pc e (ReflTransGen R) := by
  cases greedy with
  | true => exact .loop (step_iff h) (not_final h Instr.noConfusion) hR
  | false => exact .loop (fun x s => (step_iff h x s).trans or_comm) (not_final h Instr.noConfusion) hR

theorem does_jump {target : ℕ} (h : p[pc]? = some (.jump target)) :
    DoesCode t nmatches p pc target Eq := by
  refine .step (fun x s => (step_iff h x s).trans ⟨fun hs => ⟨x,rfl,hs⟩,?_⟩)
    (not_final h Instr.noConfusion)
  rintro ⟨_,rfl,hs⟩
  exact hs

theorem does_save {k : ℕ} (h : p[pc]? = some (.save k)) :
    DoesCode t nmatches p pc (pc + 1) fun x y => y = (x.1,x.2.save nmatches k x.1) := by
  refine .step (fun x s => (step_iff h x s).trans ⟨fun hs => ⟨_,rfl,hs⟩,?_⟩)
    (not_final h Instr.noConfusion)
  rintro ⟨_,rfl,hs⟩
  exact hs

theorem does_copies {code : ℕ → Program} {R : Data → Data → Prop} (n : ℕ)
    (hone : ∀ pc, CodeAt p pc (code pc) → DoesCode t nmatches p pc (pc + (code pc).length) R)
    (hcode : CodeAt p pc (copies code n pc)) :
    DoesCode t nmatches p pc (pc + (copies code n pc).length) (iter R n) := by
  induction n generalizing pc with
  | zero => exact .refl pc
  | succ n ih =>
    obtain ⟨hfirst,hrest⟩ := hcode.append
    rw [copies,List.length_append,← Nat.add_assoc]
    exact (hone pc hfirst).trans (ih hrest)

theorem does_optional {code : ℕ → Program} {R : Data → Data → Prop} {greedy : Bool}
    (hone : ∀ pc, CodeAt p pc (code pc) → DoesCode t nmatches p pc (pc + (code pc).length) R)
    (pc : ℕ) (hcode : CodeAt p pc (optional greedy code pc)) :
    DoesCode t nmatches p pc (pc + (optional greedy code pc).length) fun x y => R x y ∨ x = y := by
  obtain ⟨hsplit,hbody⟩ := hcode.cons
  have hend : pc + (optional greedy code pc).length = pc + 1 + (code (pc + 1)).length := by
    rw [optional,List.length_cons]
    omega
  rw [hend]
  exact does_split hsplit (hone _ hbody) (.refl _)

theorem copies_succ (code : ℕ → Program) (n pc : ℕ) :
    copies code (n + 1) pc = copies code n pc ++ code (pc + (copies code n pc).length) := by
  induction n generalizing pc with
  | zero => rw [copies,copies,copies,List.append_nil,List.nil_append,List.length_nil,Nat.add_zero]
  | succ n ih => rw [copies,ih,copies,List.append_assoc,List.length_append,Nat.add_assoc]

section allowed
variable {R : Data → Data → Prop} {x y : Data} {nmin : ℕ}

theorem reflTransGen_iff_allowed : ReflTransGen R x y ↔ ∃ k, Allowed 0 (-1) k ∧ iter R k x y := by
  rw [reflTransGen_iff]
  exact exists_congr fun k => ⟨fun h => ⟨⟨Nat.zero_le k,Or.inl rfl⟩,h⟩,fun h => h.2⟩

theorem comp_reflTransGen_iff_allowed :
    Comp (iter R nmin) (ReflTransGen R) x y ↔ ∃ k, Allowed nmin (-1) k ∧ iter R k x y := by
  constructor
  · rintro ⟨z,hxz,hzy⟩
    obtain ⟨k,hk⟩ := reflTransGen_iff.mp hzy
    exact ⟨nmin + k,⟨Nat.le_add_right _ _,Or.inl rfl⟩,iter_add.mpr ⟨z,hxz,hk⟩⟩
  · rintro ⟨k,⟨hmin,-⟩,h⟩
    obtain ⟨k,rfl⟩ := Nat.exists_eq_add_of_le hmin
    obtain ⟨z,hxz,hzy⟩ := iter_add.mp h
    exact ⟨z,hxz,reflTransGen_iff.mpr ⟨k,hzy⟩⟩

theorem iter_iff_allowed : iter R nmin x y ↔ ∃ k, Allowed nmin nmin k ∧ iter R k x y := by
  refine ⟨fun h => ⟨nmin,⟨le_rfl,Or.inr le_rfl⟩,h⟩,?_⟩
  rintro ⟨k,⟨hmin,hmax⟩,h⟩
  obtain rfl : k = nmin := by omega
  exact h

end allowed

section quantified
variable {code : ℕ → Program} {R : Data → Data → Prop} {greedy : Bool} {nmin : ℕ} {nmax : ℤ}
  (hone : ∀ pc, CodeAt p pc (code pc) → DoesCode t nmatches p pc (pc + (code pc).length) R)
include hone

/-- Copies that are needed, with more that may be left out. -/
theorem does_between (hlt : (nmin : ℤ) < nmax)
    (hcode : CodeAt p pc (copies code nmin pc ++
      copies (optional greedy code) (nmax - nmin).toNat (pc + (copies code nmin pc).length))) :
    DoesCode t nmatches p pc (pc + (copies code nmin pc ++
      copies (optional greedy code) (nmax - nmin).toNat (pc + (copies code nmin pc).length)).length)
      fun x y => ∃ k, Allowed nmin nmax k ∧ iter R k x y := by
  obtain ⟨hleast,hmore⟩ := hcode.append
  rw [List.length_append,← Nat.add_assoc]
  refine ((does_copies nmin hone hleast).trans
    (does_copies _ (does_optional hone) hmore)).congr fun x y => ?_
  constructor
  · rintro ⟨z,hxz,hzy⟩
    obtain ⟨k,hk,hzy⟩ := iter_optional.mp hzy
    exact ⟨nmin + k,⟨Nat.le_add_right _ _,Or.inr (by omega)⟩,iter_add.mpr ⟨z,hxz,hzy⟩⟩
  · rintro ⟨k,⟨hmin,hmax⟩,h⟩
    obtain ⟨k,rfl⟩ := Nat.exists_eq_add_of_le hmin
    obtain ⟨z,hxz,hzy⟩ := iter_add.mp h
    exact ⟨z,hxz,iter_optional.mpr ⟨k,by omega,hzy⟩⟩

/-- A loop in front of which nothing is needed. -/
theorem does_star (hcode : CodeAt p pc
      (splitTo greedy (pc + 1) (pc + 1 + (code (pc + 1)).length + 1) :: code (pc + 1) ++ [.jump pc])) :
    DoesCode t nmatches p pc (pc + 1 + (code (pc + 1)).length + 1) (ReflTransGen R) := by
  obtain ⟨hsplit,hrest⟩ := CodeAt.cons hcode
  obtain ⟨hbody,hjump⟩ := hrest.append
  refine does_loop hsplit (((hone _ hbody).trans (does_jump hjump.cons.1)).congr fun x y => ?_)
  exact comp_eq_iff

/-- Copies that are needed, with a loop over the last one. -/
theorem does_plus (m : ℕ) (hcode : CodeAt p pc (copies code (m + 1) pc ++
      [splitTo greedy (pc + (copies code m pc).length) (pc + (copies code (m + 1) pc).length + 1)])) :
    DoesCode t nmatches p pc (pc + (copies code (m + 1) pc).length + 1)
      (Comp (iter R (m + 1)) (ReflTransGen R)) := by
  obtain ⟨hleast,hsplit⟩ := hcode.append
  refine (does_copies (m + 1) hone hleast).trans (does_loop hsplit.cons.1 ?_)
  have hlast := hleast
  rw [copies_succ] at hlast
  have hend : pc + (copies code (m + 1) pc).length = pc + (copies code m pc).length +
      (code (pc + (copies code m pc).length)).length := by
    rw [copies_succ,List.length_append,Nat.add_assoc]
  rw [hend]
  exact hone _ hlast.append.2

end quantified

/-- Wherever the code of a valid node stands, it does what the node matches. -/
theorem compileContext_does (node : Node) (hvalid : node.Valid) (n pc : ℕ)
    (hcode : CodeAt p pc (compileContext node n pc)) :
    DoesCode t nmatches p pc (pc + (compileContext node n pc).length) (node.Runs t nmatches n) := by
  induction node generalizing n pc with
  | epsilon => exact .refl pc
  | character ch => exact .step (step_iff hcode.cons.1) (not_final hcode.cons.1 Instr.noConfusion)
  | anyCharacter => exact .step (step_iff hcode.cons.1) (not_final hcode.cons.1 Instr.noConfusion)
  | characterClass start =>
    exact .step (step_iff hcode.cons.1) (not_final hcode.cons.1 Instr.noConfusion)
  | characterClassNegated start =>
    exact .step (step_iff hcode.cons.1) (not_final hcode.cons.1 Instr.noConfusion)
  | anchorBegin => exact .step (step_iff hcode.cons.1) (not_final hcode.cons.1 Instr.noConfusion)
  | anchorEnd => exact .step (step_iff hcode.cons.1) (not_final hcode.cons.1 Instr.noConfusion)
  | concatenation left right ihl ihr =>
    obtain ⟨hl,hr⟩ := hcode.append
    rw [compileContext,List.length_append,← Nat.add_assoc]
    exact (ihl hvalid.1 n pc hl).trans (ihr hvalid.2 _ _ hr)
  | alternation left right ihl ihr =>
    rw [compileContext] at hcode ⊢
    obtain ⟨hsplit,hbody⟩ := CodeAt.cons hcode
    obtain ⟨hl,hrest⟩ := hbody.append
    obtain ⟨hjump,hr⟩ := hrest.cons
    have hright := ihr hvalid.2 _ _ hr
    have hleft := ((ihl hvalid.1 n _ hl).trans (does_jump hjump)).congr fun x y => comp_eq_iff
    have hend : ∀ l r : Program, pc + (l.length + (r.length + 1) + 1) = pc + 1 + l.length + 1 + r.length := by
      omega
    simp only [List.length_cons,List.length_append,List.cons_append]
    rw [hend]
    exact .choice (step_iff hsplit) (not_final hsplit Instr.noConfusion) hleft hright
  | quantifier nmin nmax greedy quantified ih =>
    have hone := fun pc => ih hvalid.2 n pc
    rw [compileContext] at hcode ⊢
    dsimp only at hcode ⊢
    split_ifs at hcode ⊢ with hlt hneg hzero
    · exact does_between hone hlt hcode
    · subst hzero hneg
      have hstar := (does_star hone hcode).congr fun x y => reflTransGen_iff_allowed
      have hend : ∀ body : Program, pc + (body.length + (0 + 1) + 1) = pc + 1 + body.length + 1 := by
        omega
      simp only [copies,List.length_nil,Nat.add_zero,List.length_append,List.length_cons]
      rw [hend]
      exact hstar
    · obtain ⟨m,rfl⟩ := Nat.exists_eq_succ_of_ne_zero hzero
      subst hneg
      have hplus := does_plus hone m hcode
      rw [List.length_append,← Nat.add_assoc]
      exact hplus.congr fun x y => comp_reflTransGen_iff_allowed
    · obtain rfl : nmax = nmin := by
        rcases hvalid.1 with h | h
        · exact absurd h hneg
        · omega
      exact (does_copies nmin hone hcode).congr fun x y => iter_iff_allowed
  | capture captured ih =>
    rw [compileContext] at hcode ⊢
    obtain ⟨hopen,hrest⟩ := CodeAt.cons hcode
    obtain ⟨hbody,hclose⟩ := hrest.append
    have hall := (does_save hopen).trans ((ih hvalid (n + 1) _ hbody).trans (does_save hclose.cons.1))
    simp only [List.length_cons,List.length_append,List.length_nil]
    have hend : pc + ((compileContext captured (n + 1) (pc + 1)).length + (0 + 1) + 1) =
        pc + 1 + (compileContext captured (n + 1) (pc + 1)).length + 1 := by omega
    rw [hend]
    refine hall.congr fun x y => ?_
    constructor
    · rintro ⟨_,rfl,z,hz,rfl⟩
      exact ⟨z,hz,rfl⟩
    · rintro ⟨z,hz,rfl⟩
      exact ⟨_,rfl,z,hz,rfl⟩

end does

/-- Code at pc that goes on between two instructions only. -/
def Inside (lo hi pc : ℕ) (code : Program) : Prop :=
  ∀ k (instr : Instr), code[k]? = some instr →
    ∀ target ∈ instr.targets (pc + k), lo ≤ target ∧ target ≤ hi

section inside
variable {lo hi lo' hi' pc : ℕ} {code more : Program} {instr : Instr}

theorem Inside.nil : Inside lo hi pc [] := fun k _ h => by cases h

theorem Inside.mono (h : Inside lo hi pc code) (hlo : lo' ≤ lo) (hhi : hi ≤ hi') :
    Inside lo' hi' pc code := fun k instr hk target htarget =>
  ⟨hlo.trans (h k instr hk target htarget).1,(h k instr hk target htarget).2.trans hhi⟩

theorem Inside.cons (h : ∀ target ∈ instr.targets pc, lo ≤ target ∧ target ≤ hi)
    (hmore : Inside lo hi (pc + 1) more) : Inside lo hi pc (instr :: more) := by
  intro k instr' hk target htarget
  cases k with
  | zero =>
    obtain rfl := Option.some.inj hk
    exact h target htarget
  | succ k =>
    refine hmore k instr' hk target ?_
    rwa [Nat.add_assoc,Nat.add_comm 1 k]

theorem Inside.append (h : Inside lo hi pc code) (hmore : Inside lo hi (pc + code.length) more) :
    Inside lo hi pc (code ++ more) := by
  induction code generalizing pc with
  | nil => exact hmore
  | cons instr code ih =>
    refine .cons (h 0 instr rfl) (ih (fun k instr' hk => ?_) ?_)
    · rw [Nat.add_assoc,Nat.add_comm 1 k]
      exact h (k + 1) instr' hk
    · rwa [Nat.add_assoc,Nat.add_comm 1,← List.length_cons]

theorem Inside.single (h : ∀ target ∈ instr.targets pc, lo ≤ target ∧ target ≤ hi) :
    Inside lo hi pc [instr] := .cons h .nil

theorem splitTo_targets {greedy : Bool} {first second : ℕ} (hfirst : lo ≤ first ∧ first ≤ hi)
    (hsecond : lo ≤ second ∧ second ≤ hi) :
    ∀ target ∈ (splitTo greedy first second).targets pc, lo ≤ target ∧ target ≤ hi := by
  cases greedy <;> simp only [splitTo,if_true,Bool.false_eq_true,if_false,Instr.targets,
    List.forall_mem_cons,List.not_mem_nil,false_implies,implies_true,and_true]
  · exact ⟨hsecond,hfirst⟩
  · exact ⟨hfirst,hsecond⟩

/-- Code that goes on within itself or right behind it, wherever it stands. -/
def Own (code : ℕ → Program) : Prop := ∀ pc, Inside pc (pc + (code pc).length) pc (code pc)

theorem Own.copies {code : ℕ → Program} (h : Own code) (n : ℕ) : Own (copies code n) := by
  induction n with
  | zero => exact fun pc => .nil
  | succ n ih =>
    intro pc
    rw [Regex.copies,List.length_append,← Nat.add_assoc]
    exact .append ((h pc).mono le_rfl (Nat.le_add_right _ _)) ((ih _).mono (Nat.le_add_right _ _) le_rfl)

theorem Own.optional {code : ℕ → Program} (h : Own code) (greedy : Bool) :
    Own (optional greedy code) := by
  intro pc
  rw [Regex.optional,List.length_cons]
  refine .cons (splitTo_targets ⟨?_,?_⟩ ⟨?_,?_⟩) ((h (pc + 1)).mono ?_ ?_) <;> omega

theorem length_copies_pred (node : Node) (n m pc : ℕ) :
    (copies (compileContext node n) m pc).length ≤ (copies (compileContext node n) (m + 1) pc).length := by
  induction m generalizing pc with
  | zero => exact Nat.zero_le _
  | succ m ih =>
    rw [copies,List.length_append,copies,List.length_append]
    exact Nat.add_le_add_left (ih _) _

theorem compileContext_own (node : Node) (n : ℕ) : Own (compileContext node n) := by
  induction node generalizing n with
  | epsilon => exact fun pc => .nil
  | character _ | anyCharacter | characterClass _ | characterClassNegated _ | anchorBegin | anchorEnd =>
    exact fun pc => .single (List.forall_mem_singleton.mpr ⟨Nat.le_succ pc,le_rfl⟩)
  | concatenation left right ihl ihr =>
    intro pc
    rw [compileContext,List.length_append,← Nat.add_assoc]
    exact .append ((ihl n pc).mono le_rfl (Nat.le_add_right _ _))
      ((ihr _ _).mono (Nat.le_add_right _ _) le_rfl)
  | alternation left right ihl ihr =>
    intro pc
    rw [compileContext]
    set l := compileContext left n (pc + 1) with hl
    set second := pc + 1 + l.length + 1 with hsecond
    set r := compileContext right (left.ncaptures n) second with hr
    simp only [List.cons_append,List.length_cons,List.length_append]
    have hend : second + r.length = pc + (l.length + (r.length + 1) + 1) := by omega
    refine .cons ?_ (.append ((ihl n (pc + 1)).mono ?_ ?_) (.cons ?_ ((ihr _ second).mono ?_ ?_)))
    · simp only [Instr.targets,List.forall_mem_cons,List.not_mem_nil,false_implies,implies_true,and_true]
      omega
    · omega
    · rw [← hl]
      omega
    · exact List.forall_mem_singleton.mpr (by omega)
    · omega
    · rw [← hr]
      omega
  | quantifier nmin nmax greedy quantified ih =>
    intro pc
    have hleast := (ih n).copies nmin pc
    rw [compileContext]
    dsimp only
    split_ifs with hlt hneg hzero
    · rw [List.length_append,← Nat.add_assoc]
      exact .append (hleast.mono le_rfl (Nat.le_add_right _ _))
        ((((ih n).optional greedy).copies _ _).mono (Nat.le_add_right _ _) le_rfl)
    · subst hzero
      simp only [copies,List.length_nil,Nat.add_zero,List.cons_append,List.length_cons,List.length_append]
      refine .cons (splitTo_targets ⟨?_,?_⟩ ⟨?_,?_⟩) (.append ((ih n (pc + 1)).mono ?_ ?_) (.single ?_))
      · omega
      · omega
      · omega
      · omega
      · omega
      · omega
      · exact List.forall_mem_singleton.mpr (by omega)
    · obtain ⟨m,rfl⟩ := Nat.exists_eq_succ_of_ne_zero hzero
      have hle := length_copies_pred quantified n m pc
      rw [Nat.succ_sub_one,List.length_append,List.length_singleton]
      refine .append (hleast.mono le_rfl (Nat.le_succ _)) (.single (splitTo_targets ⟨?_,?_⟩ ⟨?_,?_⟩))
      · exact Nat.le_add_right _ _
      · exact (Nat.add_le_add_left hle pc).trans (Nat.le_succ _)
      · omega
      · omega
    · exact hleast
  | capture captured ih =>
    intro pc
    rw [compileContext]
    simp only [List.cons_append,List.length_cons,List.length_append,List.length_nil]
    refine .cons ?_ (.append ((ih (n + 1) (pc + 1)).mono ?_ ?_) (.single ?_))
    · exact List.forall_mem_singleton.mpr (by omega)
    · omega
    · omega
    · exact List.forall_mem_singleton.mpr (by omega)

/-- The program of a pattern does not go on outside of itself. -/
theorem compileNode_closed (root : Node) : (compileNode root).Closed := by
  refine ⟨by simp [compileNode],fun pc instr hinstr target htarget => ?_⟩
  have hown := compileContext_own root.searched 0 0
  have hall : Inside 0 (compileContext root.searched 0 0).length 0 (compileNode root) :=
    .append (by simpa using hown) (.single fun target htarget => absurd htarget List.not_mem_nil)
  have hle := (hall pc instr hinstr target (by rwa [Nat.zero_add])).2
  simpa [compileNode] using Nat.lt_succ_of_le hle

end inside

end SecureWipeOut.Regex
