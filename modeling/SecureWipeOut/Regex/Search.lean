import SecureWipeOut.Regex.Leftmost

/-! # Searching a text

What the machine returns for the program of a pattern, and what it writes on its way.
-/
namespace SecureWipeOut.Regex
open Relation CodeBlock MarkedWalk

section searching
variable (t : Text) (nmatches : ℕ) (root : Node)

theorem unordered (p : Program) : Ordered t nmatches p fun _ => 0 where
  walk _ _ _ _ := List.pairwise_of_forall fun _ _ => le_rfl
  leads _ _ _ _ _ _ := le_rfl
  start _ _ _ := le_rfl
  cut _ _ _ _ _ := le_rfl
  kept _ _ _ _ _ := le_rfl

/-- The machine always returns, and it finds a match if and only if the pattern occurs. -/
theorem cregexProgramRun_finds (hvalid : root.Valid) :
    ∃ r, cregexProgramRun t nmatches (compileNode root) = some r ∧
      (r.isSome = true ↔ ∃ i j, root.OccursIn t i j) := by
  obtain ⟨best,hrun,hacc,hall⟩ := cregexProgramRun_best (compileNode_closed root)
    (unordered t nmatches (compileNode root))
  refine ⟨_,hrun,?_⟩
  rw [Option.isSome_map]
  constructor
  · intro hsome
    obtain ⟨b,hb⟩ := Option.isSome_iff_exists.mp hsome
    obtain ⟨i,hi⟩ := (exists_accepts_iff hvalid).mp ⟨b.2,hacc b hb⟩
    exact ⟨i,b.1,hi⟩
  · rintro ⟨i,j,hoccurs⟩
    obtain ⟨f,hf⟩ := (exists_accepts_iff hvalid).mpr ⟨i,hoccurs⟩
    obtain ⟨b,hb,-⟩ := hall j f hf
    rw [hb]
    rfl

/-- A run of the whole pattern has its two ends in the first two matches. -/
theorem capture_ends {i : ℕ} {m : Matches} {y : Data} (hm : 0 < nmatches)
    (h : (Node.capture root).Runs t nmatches 0 (i,m) y) :
    y.2 0 = some i ∧ (1 < nmatches → y.2 1 = some y.1) := by
  obtain ⟨z,hz,rfl⟩ := h
  constructor
  · dsimp only
    rw [Matches.save_of_ne _ Nat.zero_ne_one,hz.keeps root Nat.two_pos]
    exact Matches.save_self m hm (by decide)
  · exact fun hone => Matches.save_self z.2 hone (by decide)

end searching

def sampleText : Text where
  bytes i := [120,97,98].getD i 0
  length := 3
  nul := rfl
  inside := by decide

section lists
variable {t : Text} {nmatches : ℕ} {p : Program}

/-- A list whose threads stand at different instructions of the program, as its marks say. -/
structure Fits (p : Program) (stamp : ℕ) (list : ThreadList) : Prop where
  nodup : (list.leaves.map Prod.fst).Nodup
  marked : ∀ a ∈ list.leaves.map Prod.fst, isLeaf p a = true ∧ list.marks a = stamp

theorem isLeaf_lt {pc : ℕ} (h : isLeaf p pc = true) : pc < p.length := by
  by_contra hge
  rw [isLeaf,List.getElem?_eq_none (Nat.not_lt.mp hge)] at h
  cases h

/-- A list that fits has room for every thread it is given. -/
theorem Fits.length_le {stamp : ℕ} {list : ThreadList} (h : Fits p stamp list) :
    list.leaves.length ≤ p.length := by
  rw [← List.length_map Prod.fst,← List.toFinset_card_of_nodup h.nodup]
  refine (Finset.card_le_card fun a ha => ?_).trans (Finset.card_range p.length).le
  exact Finset.mem_range.mpr (isLeaf_lt (h.marked a (List.mem_toFinset.mp ha)).1)

theorem Fits.empty {stamp : ℕ} {list : ThreadList} (h : list.leaves = []) : Fits p stamp list :=
  ⟨by rw [h]; exact List.nodup_nil,by simp [h]⟩

theorem Fits.add {i pc : ℕ} {list : ThreadList} (h : Fits p (i + 1) list) (hclosed : p.Closed)
    (hpc : pc < p.length) (m : Matches) :
    Fits p (i + 1) (vmAddThread t nmatches p i p.length list pc m) := by
  have hadds := vmAddThread_adds t nmatches (i := i) (u := (pc,m)) hclosed hpc list
  obtain ⟨found,hfound,hnodup,hiff,-⟩ := hadds.leaves
  dsimp only at hadds hfound hiff
  constructor
  · rw [hfound,List.map_append]
    refine h.nodup.append hnodup fun a ha ha' => ?_
    exact ((hiff a).mpr ha').1 (h.marked a ha).2
  · intro a ha
    rw [hfound,List.map_append] at ha
    rcases List.mem_append.mp ha with ha | ha
    · exact ⟨(h.marked a ha).1,hadds.mono a (h.marked a ha).2⟩
    · exact ⟨((hiff a).mpr ha).2.2,((hiff a).mpr ha).2.1⟩

variable (t nmatches) in
theorem Fits.runThreads {i : ℕ} {next : ThreadList} (h : Fits p (i + 2) next) (hclosed : p.Closed)
    (threads : List Thread) (result : Option Matches) :
    Fits p (i + 2) (runThreads t nmatches p i threads next result).1 := by
  induction threads generalizing next with
  | nil => exact h
  | cons u threads ih =>
    obtain ⟨pc,m⟩ := u
    cases hinstr : p[pc]? with
    | none =>
      simp only [Regex.runThreads,hinstr]
      exact ih h
    | some instr =>
      by_cases hmatched : instr = .matched
      · subst hmatched
        simp only [Regex.runThreads,hinstr]
        exact h
      rw [runThreads_cons hinstr hmatched]
      split
      · next htake => exact ih (h.add hclosed (takes_next_lt hclosed hinstr htake) m)
      · exact ih h

/-- The states that the machine comes to. -/
def VmReached (t : Text) (nmatches : ℕ) (p : Program) : VmState → Prop :=
  ReflTransGen (fun s s' => vmStep t nmatches p s = .inl s') (vmStart t nmatches p)

theorem VmReached.fits {s : VmState} (hclosed : p.Closed) (h : VmReached t nmatches p s) :
    Fits p (s.sp + 1) s.current ∧ s.next.leaves = [] := by
  induction h with
  | refl =>
    have hstart : Fits p (0 + 1) ⟨fun _ => 0,[]⟩ := .empty rfl
    exact ⟨hstart.add hclosed hclosed.1 _,rfl⟩
  | @tail s s' _ hstep ih =>
    have hnext : Fits p (s.sp + 2) s.next := .empty ih.2
    have hrun := hnext.runThreads t nmatches hclosed s.current.leaves s.result
    unfold vmStep at hstep
    dsimp only at hstep
    split at hstep
    · cases hstep
    · obtain rfl := Sum.inl.inj hstep
      exact ⟨hrun,rfl⟩

end lists

section instructions
variable (root : Node)

end instructions

end SecureWipeOut.Regex
