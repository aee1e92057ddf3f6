import SecureWipeOut.Regex.Spans

/-! # The leftmost match

A program that searches skips characters until it saves where the match begins. The threads
that still skip are behind all others in the list, and those that have begun are in the order
in which they began.
-/
namespace SecureWipeOut.Regex
open Relation CodeBlock MarkedWalk

/-- A program that begins a match at instruction a and never comes back there. -/
structure Searches (p : Program) (a : ℕ) : Prop where
  begins : p[a]? = some (.save 0)
  behind : ∀ pc > a, ∀ instr : Instr, p[pc]? = some instr →
    (∀ target ∈ instr.targets pc, a < target) ∧ instr ≠ .save 0
  skips : a = 0 ∨ (a = 3 ∧ p[0]? = some (.split 3 1) ∧ p[1]? = some .anyCharacter ∧ p[2]? = some (.jump 0))

/-- What is in front of a match. -/
theorem Searches.cases {p : Program} {a pc : ℕ} (h : Searches p a) (hle : pc ≤ a) :
    (pc = a ∧ p[pc]? = some (.save 0)) ∨ (a = 3 ∧ (p[pc]? = some (.split 3 1) ∨
      (pc = 1 ∧ p[pc]? = some .anyCharacter) ∨ p[pc]? = some (.jump 0))) := by
  rcases Nat.lt_or_eq_of_le hle with hlt | rfl
  · rcases h.skips with rfl | ⟨rfl,hsplit,hany,hjump⟩
    · exact absurd hlt (Nat.not_lt_zero _)
    obtain rfl | rfl | rfl : pc = 0 ∨ pc = 1 ∨ pc = 2 := by omega
    · exact Or.inr ⟨rfl,Or.inl hsplit⟩
    · exact Or.inr ⟨rfl,Or.inr (Or.inl ⟨rfl,hany⟩)⟩
    · exact Or.inr ⟨rfl,Or.inr (Or.inr hjump)⟩
  · exact Or.inl ⟨rfl,h.begins⟩

theorem Searches.leaf {p : Program} {a pc : ℕ} (h : Searches p a) (hle : pc ≤ a)
    (hleaf : isLeaf p pc = true) : pc = 1 ∧ p[pc]? = some .anyCharacter := by
  rcases h.cases hle with ⟨-,hinstr⟩ | ⟨-,hinstr | hone | hinstr⟩
  · simp only [isLeaf,hinstr,Bool.false_eq_true] at hleaf
  · simp only [isLeaf,hinstr,Bool.false_eq_true] at hleaf
  · exact hone
  · simp only [isLeaf,hinstr,Bool.false_eq_true] at hleaf

section compiled

theorem mem_copies {code : ℕ → Program} {n pc : ℕ} {instr : Instr} (h : instr ∈ copies code n pc) :
    ∃ pc, instr ∈ code pc := by
  induction n generalizing pc with
  | zero => cases h
  | succ n ih =>
    rcases List.mem_append.mp h with h | h
    · exact ⟨pc,h⟩
    · exact ih h

theorem splitTo_ne_save {greedy : Bool} {first second k : ℕ} : splitTo greedy first second ≠ .save k := by
  cases greedy <;> exact Instr.noConfusion

/-- A node saves from its own first capture on. -/
theorem compileContext_saves (node : Node) {n pc k : ℕ} (h : Instr.save k ∈ compileContext node n pc) :
    2 * n ≤ k := by
  induction node generalizing n pc with
  | epsilon => cases h
  | character _ | anyCharacter | characterClass _ | characterClassNegated _ | anchorBegin | anchorEnd =>
    cases List.mem_singleton.mp h
  | concatenation left right ihl ihr =>
    have hle := left.ncaptures_le n
    rcases List.mem_append.mp h with h | h
    · exact ihl h
    · have hr := ihr h
      omega
  | alternation left right ihl ihr =>
    have hle := left.ncaptures_le n
    rw [compileContext] at h
    simp only [List.cons_append,List.mem_cons,List.mem_append,reduceCtorEq,false_or] at h
    rcases h with h | h
    · exact ihl h
    · have hr := ihr h
      omega
  | quantifier nmin nmax greedy quantified ih =>
    rw [compileContext] at h
    dsimp only at h
    have hcopies : ∀ m pc, Instr.save k ∈ copies (compileContext quantified n) m pc → 2 * n ≤ k := by
      intro m pc hm
      obtain ⟨pc',hpc'⟩ := mem_copies hm
      exact ih hpc'
    split_ifs at h
    · rcases List.mem_append.mp h with h | h
      · exact hcopies _ _ h
      · obtain ⟨pc',hpc'⟩ := mem_copies h
        rcases List.mem_cons.mp hpc' with heq | hmem
        · exact absurd heq.symm splitTo_ne_save
        · exact ih hmem
    · simp only [List.cons_append,List.mem_cons,List.mem_append,reduceCtorEq,List.not_mem_nil,
        or_false] at h
      rcases h with heq | h
      · exact absurd heq.symm splitTo_ne_save
      · exact ih h
    · rcases List.mem_append.mp h with h | h
      · exact hcopies _ _ h
      · exact absurd (List.mem_singleton.mp h).symm splitTo_ne_save
    · exact hcopies _ _ h
  | capture captured ih =>
    rw [compileContext] at h
    simp only [List.cons_append,List.mem_cons,List.mem_append,List.not_mem_nil,or_false,
      Instr.save.injEq] at h
    rcases h with rfl | h | rfl
    · exact le_rfl
    · have hk := ih h
      omega
    · exact Nat.le_succ _

/-- The instructions in front of the capture that is the whole match. -/
def Node.skip (root : Node) : Program :=
  if root.isAnchored then [] else [.split 3 1,.anyCharacter,.jump 0]

theorem compileNode_eq (root : Node) : compileNode root = root.skip ++ [.save 0] ++
    (compileContext root 1 (root.skip.length + 1) ++ [.save 1,.matched]) := by
  have hnone : (Node.quantifier 0 (-1) false .anyCharacter).ncaptures 0 = 0 := ite_self 0
  unfold compileNode Node.searched Node.skip
  split
  · simp [compileContext]
  · simp [compileContext,copies,splitTo,hnone]

theorem compileNode_searches (root : Node) : Searches (compileNode root) root.skip.length := by
  refine ⟨?_,fun pc hpc instr hinstr => ?_,?_⟩
  · rw [compileNode_eq,List.append_assoc,List.getElem?_append_right le_rfl,Nat.sub_self]
    rfl
  · obtain ⟨k,rfl⟩ := Nat.exists_eq_add_of_lt hpc
    have hown := compileContext_own root 1 (root.skip.length + 1)
    have hinside : Inside (root.skip.length + 1) (root.skip.length + 1 +
        (compileContext root 1 (root.skip.length + 1)).length + 1) (root.skip.length + 1)
        (compileContext root 1 (root.skip.length + 1) ++ [.save 1,.matched]) := by
      refine .append (hown.mono le_rfl (Nat.le_succ _)) (.cons ?_ (.single ?_))
      · exact List.forall_mem_singleton.mpr (by omega)
      · exact fun target htarget => absurd htarget List.not_mem_nil
    have hlen : (root.skip ++ [Instr.save 0]).length = root.skip.length + 1 := by
      rw [List.length_append,List.length_singleton]
    have hk : (compileContext root 1 (root.skip.length + 1) ++ [.save 1,.matched])[k]? = some instr := by
      rw [compileNode_eq,List.getElem?_append_right (by omega),hlen] at hinstr
      rw [← hinstr]
      congr 1
      omega
    refine ⟨fun target htarget => ?_,?_⟩
    · refine (hinside k instr hk target ?_).1
      rwa [Nat.add_right_comm]
    · rintro rfl
      have hmem := List.mem_of_getElem? hk
      simp only [List.mem_append,List.mem_cons,List.not_mem_nil,or_false,Instr.save.injEq,
        reduceCtorEq,zero_ne_one] at hmem
      have hle := compileContext_saves root hmem
      omega
  · rw [compileNode_eq]
    unfold Node.skip
    split
    · exact Or.inl rfl
    · exact Or.inr ⟨rfl,rfl,rfl,rfl⟩

end compiled

section begun
variable {t : Text} {nmatches : ℕ} {p : Program} {a i : ℕ} {u v : Thread}

/-- A thread that has begun its match where it is said to have. -/
def Begun (a : ℕ) (u : Thread) (s : ℕ) : Prop := a < u.1 ∧ u.2 0 = some s

def Skips (a : ℕ) (u : Thread) : Prop := u.1 ≤ a ∧ u.2 0 = none

theorem Begun.step (h : Searches p a) {s : ℕ} (hu : Begun a u s) {i' : ℕ}
    (hstep : Step t nmatches p (u.1,(i,u.2)) (v.1,(i',v.2))) : Begun a v s := by
  obtain ⟨instr,hinstr,hgoes⟩ := hstep
  obtain ⟨htargets,hsave⟩ := h.behind u.1 hu.1 instr hinstr
  have hnext : ∀ {x : Matches} {k : ℕ}, (v.1,(i',v.2)) = (k,(i,x)) → v.1 = k ∧ v.2 = x := by
    intro x k heq
    simp only [Prod.mk.injEq] at heq
    exact ⟨heq.1,heq.2.2⟩
  cases instr with
  | matched => cases hgoes
  | split first second =>
    simp only [Instr.targets,List.mem_cons,List.not_mem_nil,or_false,forall_eq_or_imp,forall_eq] at htargets
    rcases hgoes with heq | heq
    · obtain ⟨hpc,hm⟩ := hnext heq
      exact ⟨hpc ▸ htargets.1,hm ▸ hu.2⟩
    · obtain ⟨hpc,hm⟩ := hnext heq
      exact ⟨hpc ▸ htargets.2,hm ▸ hu.2⟩
  | jump target =>
    obtain ⟨hpc,hm⟩ := hnext hgoes
    exact ⟨hpc ▸ htargets target (List.mem_singleton_self _),hm ▸ hu.2⟩
  | save k =>
    obtain ⟨hpc,hm⟩ := hnext hgoes
    refine ⟨hpc ▸ Nat.lt_succ_of_lt hu.1,?_⟩
    rw [hm,Matches.save_of_ne _ fun hk : 0 = k => hsave (hk ▸ rfl)]
    exact hu.2
  | assertBegin | assertEnd =>
    obtain ⟨y,⟨-,rfl⟩,heq⟩ := hgoes
    obtain ⟨hpc,hm⟩ := hnext heq
    exact ⟨hpc ▸ Nat.lt_succ_of_lt hu.1,hm ▸ hu.2⟩
  | character _ | anyCharacter | characterClass _ | characterClassNegated _ =>
    obtain ⟨y,⟨-,-,rfl⟩,heq⟩ := hgoes
    simp only [Prod.mk.injEq] at heq
    exact ⟨heq.1 ▸ Nat.lt_succ_of_lt hu.1,heq.2.2 ▸ hu.2⟩

/-- A thread that skips goes on skipping, or begins its match at its offset. -/
theorem Skips.step (h : Searches p a) (hm : 0 < nmatches) (hu : Skips a u) {i' : ℕ}
    (hstep : Step t nmatches p (u.1,(i,u.2)) (v.1,(i',v.2))) : Skips a v ∨ Begun a v i := by
  obtain ⟨instr,hinstr,hgoes⟩ := hstep
  obtain ⟨hle,hnone⟩ := hu
  rcases h.cases hle with ⟨heq,hcode⟩ | ⟨rfl,hcode | ⟨hpc,hcode⟩ | hcode⟩ <;>
    obtain rfl := Option.some.inj (hinstr.symm.trans hcode)
  · obtain ⟨hv,hi,hvm⟩ : v.1 = u.1 + 1 ∧ i' = i ∧ v.2 = u.2.save nmatches 0 i := by
      simpa only [Instr.Goes,Prod.mk.injEq] using hgoes
    refine Or.inr ⟨by omega,?_⟩
    rw [hvm]
    exact Matches.save_self _ hm (by decide)
  · simp only [Instr.Goes,Prod.mk.injEq] at hgoes
    rcases hgoes with ⟨hv,-,hvm⟩ | ⟨hv,-,hvm⟩
    · exact Or.inl ⟨hv.le,hvm ▸ hnone⟩
    · exact Or.inl ⟨by omega,hvm ▸ hnone⟩
  · obtain ⟨y,⟨-,-,rfl⟩,heq⟩ := hgoes
    simp only [Prod.mk.injEq] at heq
    exact Or.inl ⟨by omega,heq.2.2 ▸ hnone⟩
  · simp only [Instr.Goes,Prod.mk.injEq] at hgoes
    exact Or.inl ⟨by omega,hgoes.2.2 ▸ hnone⟩

theorem Begun.follows (h : Searches p a) (hi : i ≤ t.length) {s : ℕ} (hu : Begun a u s)
    (hfollows : Follows t nmatches p i u v) : Begun a v s := by
  induction hfollows with
  | refl => exact hu
  | tail _ hinner ih => exact ih.step h ((step_iff_follow hi hinner.1 _).mpr ⟨_,hinner.2,rfl⟩)

theorem Skips.follows (h : Searches p a) (hm : 0 < nmatches) (hi : i ≤ t.length) (hu : Skips a u)
    (hfollows : Follows t nmatches p i u v) : Skips a v ∨ Begun a v i := by
  induction hfollows with
  | refl => exact Or.inl hu
  | tail _ hinner ih =>
    have hstep := (step_iff_follow hi hinner.1 _).mpr ⟨_,hinner.2,rfl⟩
    exact ih.elim (fun ih => ih.step h hm hstep) (fun ih => Or.inr (ih.step h hstep))

/-- Every thread skips, or has begun its match no later than here. -/
theorem Reaches.skips_or_begun (h : Searches p a) (hm : 0 < nmatches) (hreach : Reaches t nmatches p i u) :
    Skips a u ∨ ∃ s ≤ i, Begun a u s := by
  have hall : ∀ s, ReflTransGen (Step t nmatches p) (0,(0,fun _ => none)) s →
      Skips a (s.1,s.2.2) ∨ ∃ k ≤ s.2.1, Begun a (s.1,s.2.2) k := by
    intro s hs
    induction hs with
    | refl => exact Or.inl ⟨Nat.zero_le a,rfl⟩
    | @tail r s _ hstep ih =>
      have hle : r.2.1 ≤ s.2.1 := hstep.le
      rcases ih with ih | ⟨k,hk,ih⟩
      · rcases ih.step (v := (s.1,s.2.2)) h hm hstep with hskips | hbegun
        · exact Or.inl hskips
        · exact Or.inr ⟨r.2.1,hle,hbegun⟩
      · exact Or.inr ⟨k,hk.trans hle,ih.step (v := (s.1,s.2.2)) h hstep⟩
  exact hall _ hreach

end begun

section order
variable {t : Text} {nmatches : ℕ} {p : Program} {a i : ℕ} {u v : Thread}

/-- Where the match of a thread began; threads that skip come last. -/
def beginning (t : Text) (u : Thread) : ℕ := (u.2 0).getD (t.length + 1)

theorem Begun.beginning {s : ℕ} (h : Begun a u s) : beginning t u = s := by
  rw [Regex.beginning,h.2]
  rfl

theorem Skips.beginning (h : Skips a u) : beginning t u = t.length + 1 := by
  rw [Regex.beginning,h.2]
  rfl

theorem Reaches.beginning_le (h : Searches p a) (hm : 0 < nmatches) (hreach : Reaches t nmatches p i u) :
    beginning t u ≤ t.length + 1 := by
  have hi := hreach.cases.1
  rcases hreach.skips_or_begun h hm with hu | ⟨s,hs,hu⟩
  · exact hu.beginning.le
  · rw [hu.beginning]
    omega

theorem Leads.beginning (h : Searches p a) (hm : 0 < nmatches) (hleads : Leads t nmatches p i u v) :
    (∃ s ≤ i, Begun a u s ∧ Begun a v s) ∨ (Skips a u ∧ (Skips a v ∨ Begun a v (i + 1))) := by
  obtain ⟨hleaf,hreach,htakes,hfollows⟩ := hleads
  have hstep : Step t nmatches p (u.1,(i,u.2)) (u.1 + 1,(i + 1,u.2)) :=
    (step_iff_takes hleaf _).mpr ⟨htakes,rfl⟩
  rcases hreach.skips_or_begun h hm with hu | ⟨s,hs,hu⟩
  · refine Or.inr ⟨hu,?_⟩
    rcases hu.step (v := (u.1 + 1,u.2)) h hm hstep with hnext | hnext
    · exact hnext.follows h hm htakes.1 hfollows
    · cases hu.2.symm.trans hnext.2
  · exact Or.inl ⟨s,hs,hu,(hu.step (v := (u.1 + 1,u.2)) h hstep).follows h htakes.1 hfollows⟩

/-- The branches of a thread that skips are in order: what begins a match is in front. -/
theorem branches_sorted (h : Searches p a) (hm : 0 < nmatches) (hreach : Reaches t nmatches p i u)
    (hleaf : isLeaf p u.1 = false) :
    (follow t nmatches p i u).Pairwise (Before (isLeaf p) (follow t nmatches p i)
      fun u v => beginning t u ≤ beginning t v) := by
  have hi := hreach.cases.1
  rcases hreach.skips_or_begun h hm with ⟨hle,hnone⟩ | ⟨s,hs,hu⟩
  · rcases h.cases hle with ⟨-,hcode⟩ | ⟨rfl,hcode | ⟨-,hcode⟩ | hcode⟩
    · rw [follow,hcode]
      exact List.pairwise_singleton _ _
    · have hbranches : follow t nmatches p i u = [(3,u.2),(1,u.2)] := by rw [follow,hcode]
      have hthree : Reaches t nmatches p i (3,u.2) :=
        hreach.follows hi (.single ⟨hleaf,hbranches ▸ List.mem_cons_self⟩)
      rw [hbranches]
      refine List.pairwise_pair.mpr fun v v' hv hv' _ hleaf' => ?_
      have hlast : Skips 3 ((1,u.2) : Thread) := ⟨Nat.one_le_ofNat,hnone⟩
      have hone : isLeaf p 1 = true := by
        rcases h.skips with h | ⟨-,-,hany,-⟩
        · omega
        · simp only [isLeaf,hany]
      obtain rfl : v' = (1,u.2) := by
        rcases ReflTransGen.cases_head hv' with heq | ⟨w,hw,-⟩
        · exact heq.symm
        · cases hone.symm.trans hw.1
      exact ((hthree.follows hi hv).beginning_le h hm).trans hlast.beginning.ge
    · simp only [isLeaf,hcode,Bool.true_eq_false] at hleaf
    · rw [follow,hcode]
      exact List.pairwise_singleton _ _
  · refine List.pairwise_of_forall_mem_list fun q hq q' hq' v v' hv hv' _ _ => ?_
    have hfront := hu.follows h hi (.head ⟨hleaf,hq⟩ hv)
    have hbehind := hu.follows h hi (.head ⟨hleaf,hq'⟩ hv')
    exact hfront.beginning.le.trans hbehind.beginning.ge

theorem begun_of_accepts (h : Searches p a) (hm : 0 < nmatches) (hu : Accepts t nmatches p i u) :
    ∃ s ≤ i, Begun a u s := by
  rcases hu.2.skips_or_begun h hm with hskips | hbegun
  · obtain ⟨-,hany⟩ := h.leaf hskips.1 (isLeaf_of_matched hu.1)
    cases hany.symm.trans hu.1
  · exact hbegun

theorem beginning_eq {s : ℕ} (hu : Skips a u ∨ Begun a u s) (hv : Skips a v ∨ Begun a v s)
    (heq : u.1 = v.1) : beginning t u = beginning t v := by
  rcases hu with hu | hu <;> rcases hv with hv | hv
  · rw [hu.beginning,hv.beginning]
  · exact absurd hv.1 (Nat.not_lt.mpr (heq ▸ hu.1))
  · exact absurd hu.1 (Nat.not_lt.mpr (heq ▸ hv.1))
  · rw [hu.beginning,hv.beginning]

/-- The lists of the machine are in the order in which the matches began. -/
theorem beginning_ordered (h : Searches p a) (hm : 0 < nmatches) :
    Ordered t nmatches p (beginning t) where
  walk {i u} list found hreach hfound := by
    have hi := hreach.cases.1
    rw [vmAddThread_eq] at hfound
    obtain ⟨found',hfound',hsorted,-⟩ : Sorts (isLeaf p) (follow t nmatches p i)
        (fun u v => beginning t u ≤ beginning t v) [u] list (walk _ _ (i + 1) p.length list u) :=
      walk_sorts _ _ _ fun q hq hleaf => branches_sorted h hm (hreach.follows hi hq) hleaf
    obtain rfl := List.append_cancel_left (hfound'.symm.trans hfound)
    exact hsorted
  leads {i u u' v v'} hleads hleads' hleaf hleaf' hne hle := by
    have hi := hleads.reaches.cases.1
    rcases hleads.beginning h hm with ⟨s,hs,hu,hv⟩ | ⟨hu,hv⟩
    · rw [hu.beginning] at hle
      rw [hv.beginning]
      rcases hleads'.beginning h hm with ⟨s',hs',hu',hv'⟩ | ⟨hu',hv'⟩
      · rwa [hv'.beginning,← hu'.beginning (t := t)]
      · rcases hv' with hv' | hv' <;> rw [hv'.beginning] <;> omega
    · rcases hleads'.beginning h hm with ⟨s',hs',hu',hv'⟩ | ⟨hu',hv'⟩
      · rw [hu.beginning,hu'.beginning] at hle
        omega
      · refine (beginning_eq hv hv' (hne.resolve_left (not_not.mpr ?_))).le
        rw [(h.leaf hu.1 hleads.1).1,(h.leaf hu'.1 hleads'.1).1]
  start {u v} hu hv heq := by
    have hroot : Skips a ((0,fun _ => none) : Thread) := ⟨Nat.zero_le a,rfl⟩
    exact (beginning_eq (hroot.follows h hm (Nat.zero_le _) hu) (hroot.follows h hm (Nat.zero_le _) hv) heq).le
  cut {i u v j f} hleads hleaf hj hf hle := by
    have hi := hleads.reaches.cases.1
    obtain ⟨s,hs,hbegun⟩ := begun_of_accepts h hm hf
    rw [hbegun.beginning] at hle ⊢
    rcases hleads.beginning h hm with ⟨s',hs',hu,hv⟩ | ⟨hu,hv⟩
    · rwa [hv.beginning,← hu.beginning (t := t)]
    · rw [hu.beginning] at hle
      omega
  kept {i u v j f} hleads hleaf hj hf hle := by
    have hi := hleads.reaches.cases.1
    obtain ⟨s,hs,hbegun⟩ := begun_of_accepts h hm hf
    rw [hbegun.beginning] at hle ⊢
    rcases hleads.beginning h hm with ⟨s',hs',hu,hv⟩ | ⟨hu,hv⟩
    · rwa [hv.beginning,← hu.beginning (t := t)]
    · rcases hv with hv | hv <;> rw [hv.beginning] <;> omega

end order

end SecureWipeOut.Regex
