import SecureWipeOut.Regex.Vm

/-! # What the machine finds

The list of an offset has a thread at every instruction at which a run of the program can stand
there, until a match with better threads cut it off. How threads compare is a parameter:
with nothing to compare the machine finds a match where there is one. A run is over after one
offset for each character and the terminator at the latest.
-/
namespace SecureWipeOut.Regex
open Relation CodeBlock MarkedWalk

section adding
variable {t : Text} {nmatches : ℕ} {p : Program} {i : ℕ} {list : ThreadList} {u : ℕ × Matches}

theorem mem_targets_of_follow {q : ℕ × Matches} (h : q ∈ follow t nmatches p i u) :
    ∃ instr, p[u.1]? = some instr ∧ q.1 ∈ instr.targets u.1 := by
  unfold follow at h
  cases hinstr : p[u.1]? with
  | none => simp [hinstr] at h
  | some instr =>
    refine ⟨instr,rfl,?_⟩
    cases instr <;> simp only [hinstr,List.not_mem_nil] at h
    case split first second =>
      simp only [List.mem_cons,List.not_mem_nil,or_false] at h
      rcases h with rfl | rfl <;> simp [Instr.targets]
    case jump target => simp [Instr.targets,List.mem_singleton.mp h]
    case save k => simp [Instr.targets,List.mem_singleton.mp h]
    all_goals
      split at h
      · simp [Instr.targets,List.mem_singleton.mp h]
      · cases h

variable (t nmatches) in
/-- Adding a thread adds one for every instruction at which it can stay. -/
theorem vmAddThread_adds (hclosed : p.Closed) (hu : u.1 < p.length) (list : ThreadList) :
    Adds (isLeaf p) (follow t nmatches p i) (i + 1) [u] list
      (vmAddThread t nmatches p i p.length list u.1 u.2) := by
  rw [vmAddThread_eq]
  refine walk_adds (U := Finset.range p.length) (fun a ha d q hq => ?_) (follow_steady t nmatches p i)
    _ _ _ (Finset.mem_range.mpr hu) ?_
  · obtain ⟨instr,hinstr,hq⟩ := mem_targets_of_follow hq
    exact Finset.mem_range.mpr (hclosed.2 a instr hinstr _ hq)
  · exact (Finset.card_filter_le _ _).trans (Finset.card_range _).le

theorem takes_next_lt {pc : ℕ} {instr : Instr} {c : UInt8} (hclosed : p.Closed)
    (hinstr : p[pc]? = some instr) (htake : instr.takes c = true) : pc + 1 < p.length := by
  refine hclosed.2 pc instr hinstr _ ?_
  cases instr with
  | matched | split _ _ | jump _ | assertBegin | assertEnd | save _ => cases htake
  | character _ | anyCharacter | characterClass _ | characterClassNegated _ =>
    exact List.mem_singleton_self _

theorem next_lt (hclosed : p.Closed) (htakes : Takes t p i u.1) : u.1 + 1 < p.length := by
  obtain ⟨-,instr,hinstr,htake⟩ := htakes
  exact takes_next_lt hclosed hinstr htake

end adding

section invariant
variable (t : Text) (nmatches : ℕ) (p : Program)

abbrev Thread := ℕ × Matches

/-- A match, with the offset at which it ends. -/
def Accepts (j : ℕ) (f : Thread) : Prop := p[f.1]? = some .matched ∧ Reaches t nmatches p j f

/-- A comparison of threads that the order of the list respects. -/
structure Ordered (κ : Thread → ℕ) : Prop where
  walk : ∀ {i u} (list : ThreadList) (found : List Thread), Reaches t nmatches p i u →
    (vmAddThread t nmatches p i p.length list u.1 u.2).leaves = list.leaves ++ found →
      found.Pairwise fun u v => κ u ≤ κ v
  leads : ∀ {i u u' v v'}, Leads t nmatches p i u v → Leads t nmatches p i u' v' →
    isLeaf p v.1 = true → isLeaf p v'.1 = true → u.1 ≠ u'.1 ∨ v.1 = v'.1 →
      κ u ≤ κ u' → κ v ≤ κ v'
  start : ∀ {u v}, Follows t nmatches p 0 (0,fun _ => none) u →
    Follows t nmatches p 0 (0,fun _ => none) v → u.1 = v.1 → κ u ≤ κ v
  cut : ∀ {i u v j f}, Leads t nmatches p i u v → isLeaf p v.1 = true → j ≤ i →
    Accepts t nmatches p j f → κ u ≤ κ f → κ v ≤ κ f
  kept : ∀ {i u v j f}, Leads t nmatches p i u v → isLeaf p v.1 = true → j ≤ i →
    Accepts t nmatches p j f → κ f ≤ κ u → κ f ≤ κ v

variable (κ : Thread → ℕ)

/-- There is a match recorded that is no worse. -/
def Beaten (best : Option (ℕ × Thread)) (k : ℕ) : Prop := ∃ b, best = some b ∧ κ b.2 ≤ k

/-- The list of an offset, with the best match recorded so far. -/
structure Inv (i : ℕ) (threads : List Thread) (best : Option (ℕ × Thread)) : Prop where
  sound : ∀ u ∈ threads, isLeaf p u.1 = true ∧ Reaches t nmatches p i u
  nodup : (threads.map Prod.fst).Nodup
  sorted : threads.Pairwise fun u v => κ u ≤ κ v
  live : ∀ u, isLeaf p u.1 = true → Reaches t nmatches p i u →
    (∃ w ∈ threads, w.1 = u.1 ∧ κ w ≤ κ u) ∨ Beaten κ best (κ u)
  found : ∀ b, best = some b → b.1 < i ∧ Accepts t nmatches p b.1 b.2 ∧
    ∀ u ∈ threads, κ u ≤ κ b.2
  past : ∀ j < i, ∀ f, Accepts t nmatches p j f → Beaten κ best (κ f)

/-- The list of the next offset, built from some threads of this one. -/
structure Built (i : ℕ) (done : List Thread) (next : ThreadList) : Prop where
  leaf : ∀ a, isLeaf p a = true → (next.marks a = i + 2 ↔ a ∈ next.leaves.map Prod.fst)
  closed : ∀ a, next.marks a = i + 2 → isLeaf p a = false →
    ∀ d, ∀ q ∈ follow t nmatches p (i + 1) (a,d), next.marks q.1 = i + 2
  nodup : (next.leaves.map Prod.fst).Nodup
  sound : ∀ v ∈ next.leaves, isLeaf p v.1 = true ∧ ∃ u ∈ done, Leads t nmatches p i u v
  complete : ∀ u ∈ done, ∀ v, isLeaf p v.1 = true → Leads t nmatches p i u v →
    ∃ w ∈ next.leaves, w.1 = v.1 ∧ κ w ≤ κ v
  sorted : next.leaves.Pairwise fun u v => κ u ≤ κ v

end invariant

section built
variable {t : Text} {nmatches : ℕ} {p : Program} {κ : Thread → ℕ} {i : ℕ} {done : List Thread}
  {next : ThreadList} {u v : Thread}

theorem Built.nil (hmarks : ∀ a, next.marks a ≠ i + 2) (hleaves : next.leaves = []) :
    Built t nmatches p κ i [] next where
  leaf a _ := by simp [hmarks a,hleaves]
  closed a ha := absurd ha (hmarks a)
  nodup := by simp [hleaves]
  sound v hv := by simp [hleaves] at hv
  complete u hu := absurd hu List.not_mem_nil
  sorted := by simp [hleaves]

theorem Built.skip (h : Built t nmatches p κ i done next) (hu : ¬ Takes t p i u.1) :
    Built t nmatches p κ i (done ++ [u]) next where
  leaf := h.leaf
  closed := h.closed
  nodup := h.nodup
  sound v hv := by
    obtain ⟨hleaf,w,hw,hleads⟩ := h.sound v hv
    exact ⟨hleaf,w,List.mem_append_left _ hw,hleads⟩
  complete w hw v hleaf hleads := by
    rcases List.mem_append.mp hw with hw | hw
    · exact h.complete w hw v hleaf hleads
    · rw [List.mem_singleton.mp hw] at hleads
      exact absurd hleads.2.2.1 hu
  sorted := h.sorted

/-- A thread that takes its character adds what it can go on to. -/
theorem Built.add (hclosed : p.Closed) (hord : Ordered t nmatches p κ)
    (h : Built t nmatches p κ i done next) (hleaf : isLeaf p u.1 = true)
    (hreach : Reaches t nmatches p i u) (htakes : Takes t p i u.1)
    (hdone : ∀ w ∈ done, w.1 ≠ u.1 ∧ κ w ≤ κ u) :
    Built t nmatches p κ i (done ++ [u])
      (vmAddThread t nmatches p (i + 1) p.length next (u.1 + 1) u.2) := by
  have hadds := vmAddThread_adds t nmatches (i := i + 1) (u := (u.1 + 1,u.2))
    hclosed (next_lt hclosed htakes) next
  obtain ⟨found,hfound,hnodup,hiff,hfrom⟩ := hadds.leaves
  dsimp only at hadds hfound hiff
  generalize hlist : vmAddThread t nmatches p (i + 1) p.length next (u.1 + 1) u.2 = list at *
  have hnew : ∀ v ∈ found, isLeaf p v.1 = true ∧ Leads t nmatches p i u v := by
    intro v hv
    obtain ⟨r,hr,hfollows⟩ := hfrom v hv
    rw [List.mem_singleton.mp hr] at hfollows
    exact ⟨((hiff v.1).mpr (List.mem_map_of_mem hv)).2.2,hleaf,hreach,htakes,hfollows⟩
  have hsound : ∀ v ∈ list.leaves, isLeaf p v.1 = true ∧ ∃ w ∈ done ++ [u],
      κ w ≤ κ u ∧ Leads t nmatches p i w v := by
    intro v hv
    rw [hfound] at hv
    rcases List.mem_append.mp hv with hv | hv
    · obtain ⟨hvleaf,w,hw,hleads⟩ := h.sound v hv
      exact ⟨hvleaf,w,List.mem_append_left _ hw,(hdone w hw).2,hleads⟩
    · exact ⟨(hnew v hv).1,u,by simp,le_rfl,(hnew v hv).2⟩
  have hmem : ∀ a, isLeaf p a = true → (list.marks a = i + 2 ↔ a ∈ list.leaves.map Prod.fst) := by
    intro a ha
    rw [hfound,List.map_append,List.mem_append,← h.leaf a ha,← hiff a]
    constructor
    · intro hmark
      by_cases hold : next.marks a = i + 2
      · exact Or.inl hold
      · exact Or.inr ⟨hold,hmark,ha⟩
    · rintro (hold | ⟨-,hmark,-⟩)
      · exact hadds.mono a hold
      · exact hmark
  have hclose : ∀ a, next.marks a = i + 2 → isLeaf p a = false → ∀ d,
      ∀ q ∈ follow t nmatches p (i + 1) (a,d), list.marks q.1 = i + 2 :=
    fun a ha hinner d q hq => hadds.mono _ (h.closed a ha hinner d q hq)
  refine ⟨hmem,fun a ha hinner d q hq => ?_,?_,fun v hv => ?_,fun w hw v hvleaf hleads => ?_,?_⟩
  · by_cases hold : next.marks a = i + 2
    · exact hclose a hold hinner d q hq
    · exact hadds.closed a hold ha hinner d q hq
  · rw [hfound,List.map_append]
    refine h.nodup.append hnodup fun a ha ha' => ?_
    obtain ⟨hfresh,-,haleaf⟩ := (hiff a).mpr ha'
    exact hfresh ((h.leaf a haleaf).mpr ha)
  · obtain ⟨hvleaf,w,hw,-,hleads⟩ := hsound v hv
    exact ⟨hvleaf,w,hw,hleads⟩
  · rcases List.mem_append.mp hw with hw | hw
    · obtain ⟨x,hx,heq,hle⟩ := h.complete w hw v hvleaf hleads
      exact ⟨x,by rw [hfound]; exact List.mem_append_left _ hx,heq,hle⟩
    · rw [List.mem_singleton.mp hw] at hleads
      have hmark := hadds.marked_of_reach hclose hleads.2.2.2
      obtain ⟨x,hx,heq⟩ := List.mem_map.mp ((hmem v.1 hvleaf).mp hmark)
      obtain ⟨hxleaf,y,-,hle,hyx⟩ := hsound x hx
      exact ⟨x,hx,heq,hord.leads hyx hleads hxleaf hvleaf (Or.inr heq) hle⟩
  · rw [hfound,List.pairwise_append]
    have hnext : Reaches t nmatches p (i + 1) (u.1 + 1,u.2) := hreach.takes hleaf htakes
    refine ⟨h.sorted,hord.walk next found hnext (hlist ▸ hfound),fun v hv w hw => ?_⟩
    obtain ⟨hvleaf,x,hx,hleads⟩ := h.sound v hv
    obtain ⟨hne,hle⟩ := hdone x hx
    exact hord.leads hleads (hnew w hw).2 hvleaf (hnew w hw).1 (Or.inl hne) hle

theorem runThreads_cons {pc : ℕ} {instr : Instr} (hinstr : p[pc]? = some instr) (hne : instr ≠ .matched)
    (m : Matches) (threads : List Thread) (next : ThreadList) (result : Option Matches) :
    runThreads t nmatches p i ((pc,m) :: threads) next result =
      runThreads t nmatches p i threads (if instr.takes (t.bytes i) = true then
        vmAddThread t nmatches p (i + 1) p.length next (pc + 1) m else next) result := by
  rw [runThreads,hinstr]
  cases instr with
  | matched => exact absurd rfl hne
  | _ => dsimp only; split <;> rfl

/-- The list of the next offset comes from the threads in front of the first match. -/
theorem runThreads_built (hclosed : p.Closed) (hord : Ordered t nmatches p κ) (result : Option Matches)
    {threads : List Thread} (h : i < t.length → Built t nmatches p κ i done next)
    (hsound : ∀ u ∈ threads, isLeaf p u.1 = true ∧ Reaches t nmatches p i u)
    (hnodup : ((done ++ threads).map Prod.fst).Nodup)
    (hsorted : (done ++ threads).Pairwise fun u v => κ u ≤ κ v) :
    ((∀ u ∈ threads, p[u.1]? ≠ some .matched) ∧
      (runThreads t nmatches p i threads next result).2 = result ∧ (i < t.length →
      Built t nmatches p κ i (done ++ threads) (runThreads t nmatches p i threads next result).1)) ∨
    ∃ pre f post, threads = pre ++ f :: post ∧ p[f.1]? = some .matched ∧
      (∀ u ∈ pre, p[u.1]? ≠ some .matched) ∧
      (runThreads t nmatches p i threads next result).2 = some f.2 ∧ (i < t.length →
      Built t nmatches p κ i (done ++ pre) (runThreads t nmatches p i threads next result).1) := by
  induction threads generalizing done next with
  | nil => exact Or.inl ⟨fun u hu => absurd hu List.not_mem_nil,rfl,by rwa [List.append_nil]⟩
  | cons u threads ih =>
    obtain ⟨pc,m⟩ := u
    obtain ⟨hleaf,hreach⟩ := hsound (pc,m) List.mem_cons_self
    have hrest : ∀ u ∈ threads, isLeaf p u.1 = true ∧ Reaches t nmatches p i u :=
      fun u hu => hsound u (List.mem_cons_of_mem _ hu)
    have hdone : ∀ w ∈ done, w.1 ≠ pc ∧ κ w ≤ κ (pc,m) := by
      intro w hw
      refine ⟨fun heq => ?_,(List.pairwise_append.mp hsorted).2.2 w hw _ List.mem_cons_self⟩
      rw [List.map_append] at hnodup
      refine (List.disjoint_of_nodup_append hnodup) (List.mem_map_of_mem hw) ?_
      rw [heq]
      exact List.mem_cons_self
    obtain ⟨instr,hinstr⟩ : ∃ instr, p[pc]? = some instr := by
      cases hinstr : p[pc]? with
      | none => simp [isLeaf,hinstr] at hleaf
      | some instr => exact ⟨instr,rfl⟩
    by_cases hmatched : instr = .matched
    · subst hmatched
      refine Or.inr ⟨[],(pc,m),threads,rfl,hinstr,fun u hu => absurd hu List.not_mem_nil,?_,?_⟩
      · simp only [runThreads,hinstr]
      · simp only [runThreads,hinstr]
        rwa [List.append_nil]
    have hne : p[pc]? ≠ some .matched := by
      rw [hinstr]
      exact fun heq => hmatched (Option.some.inj heq)
    have hbuilt : i < t.length → Built t nmatches p κ i (done ++ [(pc,m)])
        (if instr.takes (t.bytes i) = true then
          vmAddThread t nmatches p (i + 1) p.length next (pc + 1) m else next) := by
      intro hlt
      split
      · next htake => exact (h hlt).add hclosed hord hleaf hreach ⟨hlt,instr,hinstr,htake⟩ hdone
      · next htake =>
        refine (h hlt).skip ?_
        rintro ⟨-,instr',hcode,htake'⟩
        obtain rfl := Option.some.inj (hinstr.symm.trans hcode)
        exact htake htake'
    rw [runThreads_cons hinstr hmatched]
    rw [List.append_cons] at hnodup hsorted
    rcases ih hbuilt hrest hnodup hsorted with ⟨hnone,hresult,hall⟩ |
      ⟨pre,f,post,rfl,hf,hpre,hresult,hall⟩
    · rw [← List.append_cons] at hall
      exact Or.inl ⟨List.forall_mem_cons.mpr ⟨hne,hnone⟩,hresult,hall⟩
    · rw [← List.append_cons] at hall
      exact Or.inr ⟨(pc,m) :: pre,f,post,rfl,hf,List.forall_mem_cons.mpr ⟨hne,hpre⟩,hresult,hall⟩

end built

section offsets
variable {t : Text} {nmatches : ℕ} {p : Program} {κ : Thread → ℕ} {i : ℕ} {threads : List Thread}
  {best : Option (ℕ × Thread)} {next : ThreadList} {u v : Thread}

/-- What can be followed does not depend on what is saved. -/
theorem Follows.steady (h : Follows t nmatches p i u v) (m : Matches) :
    ∃ m', Follows t nmatches p i (u.1,m) (v.1,m') := by
  induction h with
  | refl => exact ⟨m,.refl⟩
  | @tail a b _ hstep ih =>
    obtain ⟨m',hrun⟩ := ih
    have hmem := List.mem_map_of_mem (f := Prod.fst) hstep.2
    rw [follow_steady t nmatches p i a.1 a.2 m'] at hmem
    obtain ⟨b',hb',heq⟩ := List.mem_map.mp hmem
    exact ⟨b'.2,hrun.tail ⟨hstep.1,heq ▸ hb'⟩⟩

theorem isLeaf_of_matched (h : p[u.1]? = some .matched) : isLeaf p u.1 = true := by
  simp only [isLeaf,h]

theorem not_takes_of_matched (h : p[u.1]? = some .matched) : ¬ Takes t p i u.1 := by
  rintro ⟨-,instr,hinstr,htake⟩
  obtain rfl := Option.some.inj (hinstr.symm.trans h)
  cases htake

/-- What is reached at the next offset is in the list, or is reached from a thread that is beaten. -/
theorem Inv.leads (h : Inv t nmatches p κ i threads best) (hord : Ordered t nmatches p κ)
    (hv : isLeaf p v.1 = true) (hreach : Reaches t nmatches p (i + 1) v) :
    (∃ w ∈ threads, ∃ v', v'.1 = v.1 ∧ Leads t nmatches p i w v' ∧ κ v' ≤ κ v ∧
        ∃ q, Leads t nmatches p i q v ∧ κ w ≤ κ q) ∨
      ∃ q, Leads t nmatches p i q v ∧ Beaten κ best (κ q) := by
  obtain ⟨-,⟨hzero,-⟩ | ⟨j,q,heq,hleads⟩⟩ := hreach.cases
  · omega
  obtain rfl : i = j := by omega
  rcases h.live q hleads.1 hleads.2.1 with ⟨w,hw,hwq,hle⟩ | hbeaten
  · obtain ⟨hwleaf,hwreach⟩ := h.sound w hw
    obtain ⟨m,hfollows⟩ := hleads.2.2.2.steady w.2
    have hwleads : Leads t nmatches p i w (v.1,m) := by
      refine ⟨hwleaf,hwreach,hwq ▸ hleads.2.2.1,?_⟩
      rw [hwq]
      exact hfollows
    exact Or.inl ⟨w,hw,(v.1,m),rfl,hwleads,hord.leads hwleads hleads hv hv (Or.inr rfl) hle,q,hleads,hle⟩
  · exact Or.inr ⟨q,hleads,hbeaten⟩

theorem Inv.beaten (h : Inv t nmatches p κ i threads best) (hord : Ordered t nmatches p κ)
    {q : Thread} (hleads : Leads t nmatches p i q v) (hv : isLeaf p v.1 = true)
    (hb : Beaten κ best (κ q)) : Beaten κ best (κ v) := by
  obtain ⟨b,hbest,hle⟩ := hb
  obtain ⟨hlt,hacc,-⟩ := h.found b hbest
  exact ⟨b,hbest,hord.kept hleads hv hlt.le hacc hle⟩

/-- Without a match at this offset the record holds for it as well. -/
theorem Inv.past_of_none (h : Inv t nmatches p κ i threads best)
    (hnone : ∀ u ∈ threads, p[u.1]? ≠ some .matched) {j : ℕ} (hj : j ≤ i) {g : Thread}
    (hg : Accepts t nmatches p j g) : Beaten κ best (κ g) := by
  rcases Nat.lt_or_eq_of_le hj with hlt | rfl
  · exact h.past j hlt g hg
  rcases h.live g (isLeaf_of_matched hg.1) hg.2 with ⟨w,hw,hwg,-⟩ | hbeaten
  · exact absurd (hwg ▸ hg.1) (hnone w hw)
  · exact hbeaten

section matched
variable {pre post : List Thread} {f : Thread}

theorem Inv.le_behind (h : Inv t nmatches p κ i (pre ++ f :: post) best) {w : Thread}
    (hw : w ∈ f :: post) : κ f ≤ κ w := by
  obtain ⟨-,hpost,-⟩ := List.pairwise_append.mp h.sorted
  rcases List.mem_cons.mp hw with rfl | hw
  · exact le_rfl
  · exact (List.pairwise_cons.mp hpost).1 w hw

theorem Inv.le_of_beaten (h : Inv t nmatches p κ i (pre ++ f :: post) best) {k : ℕ}
    (hb : Beaten κ best k) : κ f ≤ k := by
  obtain ⟨b,hbest,hle⟩ := hb
  exact ((h.found b hbest).2.2 f (List.mem_append_right _ List.mem_cons_self)).trans hle

theorem Inv.accepts (h : Inv t nmatches p κ i (pre ++ f :: post) best)
    (hf : p[f.1]? = some .matched) : Accepts t nmatches p i f :=
  ⟨hf,(h.sound f (List.mem_append_right _ List.mem_cons_self)).2⟩

theorem Inv.past_of_matched (h : Inv t nmatches p κ i (pre ++ f :: post) best)
    (hpre : ∀ u ∈ pre, p[u.1]? ≠ some .matched) {j : ℕ} (hj : j ≤ i) {g : Thread}
    (hg : Accepts t nmatches p j g) : Beaten κ (some (i,f)) (κ g) := by
  rcases Nat.lt_or_eq_of_le hj with hlt | rfl
  · exact ⟨(i,f),rfl,h.le_of_beaten (h.past j hlt g hg)⟩
  rcases h.live g (isLeaf_of_matched hg.1) hg.2 with ⟨w,hw,hwg,hle⟩ | hbeaten
  · rcases List.mem_append.mp hw with hw | hw
    · exact absurd (hwg ▸ hg.1) (hpre w hw)
    · exact ⟨(j,f),rfl,(h.le_behind hw).trans hle⟩
  · exact ⟨(j,f),rfl,h.le_of_beaten hbeaten⟩

end matched

/-- Without a match at this offset the record stays. -/
theorem Inv.goes_on (h : Inv t nmatches p κ i threads best) (hord : Ordered t nmatches p κ)
    (hnone : ∀ u ∈ threads, p[u.1]? ≠ some .matched) (hbuilt : Built t nmatches p κ i threads next) :
    Inv t nmatches p κ (i + 1) next.leaves best := by
  refine ⟨fun v hv => ?_,hbuilt.nodup,hbuilt.sorted,fun v hv hreach => ?_,fun b hb => ?_,fun j hj f hf =>
    h.past_of_none hnone (Nat.lt_succ_iff.mp hj) hf⟩
  · obtain ⟨hleaf,u,-,hleads⟩ := hbuilt.sound v hv
    exact ⟨hleaf,hleads.reaches⟩
  · rcases h.leads hord hv hreach with ⟨w,hw,v',heq,hleads,hle,-⟩ | ⟨q,hleads,hbeaten⟩
    · obtain ⟨x,hx,hxv,hxle⟩ := hbuilt.complete w hw v' (heq ▸ hv) hleads
      exact Or.inl ⟨x,hx,hxv.trans heq,hxle.trans hle⟩
    · exact Or.inr (h.beaten hord hleads hv hbeaten)
  · obtain ⟨hlt,hacc,hall⟩ := h.found b hb
    refine ⟨Nat.lt_succ_of_lt hlt,hacc,fun v hv => ?_⟩
    obtain ⟨hleaf,u,hu,hleads⟩ := hbuilt.sound v hv
    exact hord.cut hleads hleaf hlt.le hacc (hall u hu)

/-- A match at this offset beats the one recorded, and the threads behind it. -/
theorem Inv.goes_on_matched {pre post : List Thread} {f : Thread}
    (h : Inv t nmatches p κ i (pre ++ f :: post) best) (hord : Ordered t nmatches p κ)
    (hf : p[f.1]? = some .matched) (hpre : ∀ u ∈ pre, p[u.1]? ≠ some .matched)
    (hbuilt : Built t nmatches p κ i pre next) :
    Inv t nmatches p κ (i + 1) next.leaves (some (i,f)) := by
  have hacc := h.accepts hf
  obtain ⟨-,-,hcross⟩ := List.pairwise_append.mp h.sorted
  refine ⟨fun v hv => ?_,hbuilt.nodup,hbuilt.sorted,fun v hv hreach => ?_,fun b hb => ?_,fun j hj g hg =>
    h.past_of_matched hpre (Nat.lt_succ_iff.mp hj) hg⟩
  · obtain ⟨hleaf,u,-,hleads⟩ := hbuilt.sound v hv
    exact ⟨hleaf,hleads.reaches⟩
  · have hlater : ∀ q, Leads t nmatches p i q v → κ f ≤ κ q →
        Beaten κ (some (i,f)) (κ v) :=
      fun q hleads hle => ⟨(i,f),rfl,hord.kept hleads hv le_rfl hacc hle⟩
    rcases h.leads hord hv hreach with ⟨w,hw,v',heq,hwleads,hle,q,hleads,hwq⟩ | ⟨q,hleads,hbeaten⟩
    · rcases List.mem_append.mp hw with hw | hw
      · obtain ⟨x,hx,hxv,hxle⟩ := hbuilt.complete w hw v' (heq ▸ hv) hwleads
        exact Or.inl ⟨x,hx,hxv.trans heq,hxle.trans hle⟩
      · exact Or.inr (hlater q hleads ((h.le_behind hw).trans hwq))
    · exact Or.inr (hlater q hleads (h.le_of_beaten hbeaten))
  · obtain rfl := Option.some.inj hb
    refine ⟨Nat.lt_succ_self i,hacc,fun v hv => ?_⟩
    obtain ⟨hleaf,u,hu,hleads⟩ := hbuilt.sound v hv
    exact hord.cut hleads hleaf le_rfl hacc (hcross u hu f List.mem_cons_self)

/-- What is past when an offset is done, whether or not there is a next one. -/
def Settled (t : Text) (nmatches : ℕ) (p : Program) (κ : Thread → ℕ) (i : ℕ)
    (best : Option (ℕ × Thread)) : Prop :=
  (∀ b, best = some b → Accepts t nmatches p b.1 b.2) ∧
    ∀ j ≤ i, ∀ f, Accepts t nmatches p j f → Beaten κ best (κ f)

/-- One offset: the record is brought up to date, and so is the list while the text goes on. -/
theorem Inv.step (h : Inv t nmatches p κ i threads best) (hclosed : p.Closed)
    (hord : Ordered t nmatches p κ) (hmarks : ∀ a, next.marks a ≠ i + 2) (hleaves : next.leaves = []) :
    ∃ best', (runThreads t nmatches p i threads next (best.map fun b => b.2.2)).2 =
        best'.map (fun b => b.2.2) ∧ Settled t nmatches p κ i best' ∧
      (i < t.length → Inv t nmatches p κ (i + 1)
        (runThreads t nmatches p i threads next (best.map fun b => b.2.2)).1.leaves best') := by
  rcases runThreads_built hclosed hord (best.map fun b => b.2.2) (fun _ => .nil hmarks hleaves)
    h.sound h.nodup h.sorted with ⟨hnone,hresult,hbuilt⟩ | ⟨pre,f,post,rfl,hf,hpre,hresult,hbuilt⟩
  · exact ⟨best,hresult,⟨fun b hb => (h.found b hb).2.1,fun j hj g hg => h.past_of_none hnone hj hg⟩,
      fun hlt => h.goes_on hord hnone (hbuilt hlt)⟩
  · refine ⟨some (i,f),hresult,⟨fun b hb => ?_,fun j hj g hg => h.past_of_matched hpre hj hg⟩,fun hlt =>
      h.goes_on_matched hord hf hpre (hbuilt hlt)⟩
    obtain rfl := Option.some.inj hb
    exact h.accepts hf

end offsets

section ends
variable {t : Text} {nmatches : ℕ} {p : Program} {κ : Thread → ℕ} {i : ℕ} {threads : List Thread}
  {best : Option (ℕ × Thread)} {next : ThreadList}

/-- Behind a list without threads nothing is found any more. -/
theorem Inv.empty (h : Inv t nmatches p κ i [] best) (hord : Ordered t nmatches p κ) (k : ℕ) :
    Inv t nmatches p κ (i + k) [] best := by
  induction k with
  | zero => exact h
  | succ k ih =>
    have hbuilt : Built t nmatches p κ (i + k) [] ⟨fun _ => 0,[]⟩ := .nil (fun a => (Nat.succ_ne_zero _).symm) rfl
    exact ih.goes_on hord (fun u hu => absurd hu List.not_mem_nil) hbuilt

/-- The list of the first offset. -/
theorem Inv.zero (hclosed : p.Closed) (hord : Ordered t nmatches p κ) :
    Inv t nmatches p κ 0 (vmStart t nmatches p).current.leaves none := by
  have hadds := vmAddThread_adds t nmatches (i := 0) (u := (0,fun _ => none))
    hclosed hclosed.1 ⟨fun _ => 0,[]⟩
  obtain ⟨found,hfound,hnodup,hiff,hfrom⟩ := hadds.leaves
  have hleaves : (vmStart t nmatches p).current.leaves = found := hfound
  have hfollows : ∀ v ∈ found, Follows t nmatches p 0 (0,fun _ => none) v := by
    intro v hv
    obtain ⟨r,hr,hrun⟩ := hfrom v hv
    rwa [List.mem_singleton.mp hr] at hrun
  rw [hleaves]
  have hroot : Reaches t nmatches p 0 (0,fun _ => none) := .refl
  refine ⟨fun v hv => ⟨?_,?_⟩,hnodup,hord.walk _ found hroot hfound,fun v hleaf hreach => Or.inl ?_,
    fun b hb => (nomatch hb),fun j hj => absurd hj (Nat.not_lt_zero j)⟩
  · exact ((hiff v.1).mpr (List.mem_map_of_mem hv)).2.2
  · exact hroot.follows (Nat.zero_le _) (hfollows v hv)
  · obtain ⟨-,⟨-,hrun⟩ | ⟨j,q,heq,-⟩⟩ := hreach.cases
    · have hmark := hadds.marked_of_reach (fun a ha => absurd ha (Nat.succ_ne_zero _).symm) hrun
      obtain ⟨x,hx,hxv⟩ := List.mem_map.mp ((hiff v.1).mp ⟨(Nat.succ_ne_zero _).symm,hmark,hleaf⟩)
      exact ⟨x,hx,hxv,hord.start (hfollows x hx) hrun hxv⟩
    · exact absurd heq (Nat.succ_ne_zero j).symm

variable (nmatches) in
theorem runThreads_marks (hclosed : p.Closed) (threads : List Thread) (next : ThreadList)
    (result : Option Matches) (hlt : i < t.length) (a : ℕ) :
    (runThreads t nmatches p i threads next result).1.marks a = i + 2 ∨
      (runThreads t nmatches p i threads next result).1.marks a = next.marks a := by
  induction threads generalizing next with
  | nil => exact Or.inr rfl
  | cons u threads ih =>
    obtain ⟨pc,m⟩ := u
    cases hinstr : p[pc]? with
    | none =>
      simp only [runThreads,hinstr]
      exact ih next
    | some instr =>
      by_cases hmatched : instr = .matched
      · subst hmatched
        simp only [runThreads,hinstr]
        exact Or.inr trivial
      rw [runThreads_cons hinstr hmatched]
      split
      · next htake =>
        have htakes : Takes t p i pc := ⟨hlt,instr,hinstr,htake⟩
        have hadds := vmAddThread_adds t nmatches (i := i + 1) (u := (pc + 1,m))
          hclosed (next_lt (u := (pc,m)) hclosed htakes) next
        by_cases hnew : (vmAddThread t nmatches p (i + 1) p.length next (pc + 1) m).marks a = i + 2
        · rw [← hnew]
          rcases ih (vmAddThread t nmatches p (i + 1) p.length next (pc + 1) m) with h | h
          · exact Or.inl (h.trans hnew.symm)
          · exact Or.inl h
        · rw [← hadds.other a hnew]
          exact ih _
      · exact ih next

variable (t nmatches p κ) in
/-- What holds of the machine in front of every offset. -/
structure VmInv (s : VmState) (best : Option (ℕ × Thread)) : Prop where
  threads : Inv t nmatches p κ s.sp s.current.leaves best
  result : s.result = best.map fun b => b.2.2
  next : s.next.leaves = []
  marks : ∀ a, s.next.marks a < s.sp + 2 ∧ s.current.marks a < s.sp + 2
  inside : s.sp ≤ t.length

theorem VmInv.start (hclosed : p.Closed) (hord : Ordered t nmatches p κ) :
    VmInv t nmatches p κ (vmStart t nmatches p) none where
  threads := .zero hclosed hord
  result := rfl
  next := rfl
  marks a := by
    have hadds := vmAddThread_adds t nmatches (i := 0) (u := (0,fun _ => none))
      hclosed hclosed.1 ⟨fun _ => 0,[]⟩
    refine ⟨Nat.two_pos,?_⟩
    by_cases hmark : (vmStart t nmatches p).current.marks a = 0 + 1
    · rw [hmark]
      exact Nat.one_lt_two
    · exact (hadds.other a hmark).trans_lt Nat.two_pos
  inside := Nat.zero_le _

/-- The machine goes on with its invariant, or leaves with all matches beaten. -/
theorem VmInv.step {s : VmState} (h : VmInv t nmatches p κ s best) (hclosed : p.Closed)
    (hord : Ordered t nmatches p κ) :
    (∃ s' best', vmStep t nmatches p s = .inl s' ∧ s'.sp = s.sp + 1 ∧ VmInv t nmatches p κ s' best') ∨
    ∃ best', vmStep t nmatches p s = .inr (best'.map fun b => b.2.2) ∧
      (∀ b, best' = some b → Accepts t nmatches p b.1 b.2) ∧
      ∀ j f, Accepts t nmatches p j f → Beaten κ best' (κ f) := by
  obtain ⟨best',hresult,⟨hacc,hall⟩,hnext⟩ := h.threads.step hclosed hord
    (fun a => (h.marks a).1.ne) h.next
  rw [← h.result] at hresult hnext
  unfold vmStep
  generalize hr : runThreads t nmatches p s.sp s.current.leaves s.next s.result = r at *
  dsimp only
  by_cases hzero : t.bytes s.sp = 0
  · rw [if_pos (Or.inr hzero),hresult]
    refine Or.inr ⟨best',rfl,hacc,fun j f hf => hall j ?_ f hf⟩
    rw [(t.bytes_eq_zero_iff h.inside).mp hzero]
    exact hf.2.cases.1
  have hlt : s.sp < t.length := Nat.lt_of_le_of_ne h.inside fun heq =>
    hzero ((t.bytes_eq_zero_iff h.inside).mpr heq)
  by_cases hempty : r.1.leaves = []
  · rw [if_pos (Or.inl hempty),hresult]
    refine Or.inr ⟨best',rfl,hacc,fun j f hf => ?_⟩
    have hinv := hnext hlt
    rw [hempty] at hinv
    exact (hinv.empty hord j).past j (by omega) f hf
  · rw [if_neg (not_or.mpr ⟨hempty,hzero⟩)]
    refine Or.inl ⟨_,best',rfl,rfl,hnext hlt,hresult,rfl,fun a => ⟨?_,?_⟩,hlt⟩
    · exact (h.marks a).2.trans (Nat.lt_succ_self _)
    · have hmarks := runThreads_marks nmatches hclosed s.current.leaves s.next s.result hlt a
      rw [hr] at hmarks
      rcases hmarks with hmark | hmark
      · exact hmark.trans_lt (Nat.lt_succ_self _)
      · exact hmark.trans_lt ((h.marks a).1.trans (Nat.lt_succ_self _))

/-- The machine returns within the text, and no match beats what it returns. -/
theorem cregexProgramRun_best (hclosed : p.Closed) (hord : Ordered t nmatches p κ) :
    ∃ best, cregexProgramRun t nmatches p = some (best.map fun b => b.2.2) ∧
      (∀ b, best = some b → Accepts t nmatches p b.1 b.2) ∧
      ∀ j f, Accepts t nmatches p j f → Beaten κ best (κ f) := by
  have hstart : ∃ best, VmInv t nmatches p κ (vmStart t nmatches p) best := ⟨none,.start hclosed hord⟩
  have hends : ∃ r, cregexProgramRun t nmatches p = some r := by
    refine Loop.run_terminates (I := fun s => ∃ best, VmInv t nmatches p κ s best)
      (fun s => t.length - s.sp) ?_ hstart (Nat.lt_succ_of_le (Nat.sub_le _ _))
    rintro s s' ⟨best,hs⟩ hstep
    rcases hs.step hclosed hord with ⟨r,best',hr,hsp,hinv⟩ | ⟨best',hr,-⟩
    · obtain rfl : r = s' := Sum.inl.inj (hr.symm.trans hstep)
      have hle := hinv.inside
      exact ⟨⟨best',hinv⟩,by omega⟩
    · cases hr.symm.trans hstep
  obtain ⟨r,hr⟩ := hends
  refine (Loop.run_rule (I := fun s => ∃ best, VmInv t nmatches p κ s best)
    (Q := fun r => ∃ best, r = best.map (fun b => b.2.2) ∧
      (∀ b, best = some b → Accepts t nmatches p b.1 b.2) ∧
      ∀ j f, Accepts t nmatches p j f → Beaten κ best (κ f)) ?_ ?_ hstart hr).imp
    fun best hbest => ⟨hr.trans (congrArg some hbest.1),hbest.2⟩
  · rintro s s' ⟨best,hs⟩ hstep
    rcases hs.step hclosed hord with ⟨r,best',hr,-,hinv⟩ | ⟨best',hr,-⟩
    · obtain rfl : r = s' := Sum.inl.inj (hr.symm.trans hstep)
      exact ⟨best',hinv⟩
    · cases hr.symm.trans hstep
  · rintro s r ⟨best,hs⟩ hstep
    rcases hs.step hclosed hord with ⟨s',best',hs',-⟩ | ⟨best',hs',hall⟩
    · cases hs'.symm.trans hstep
    · exact ⟨best',(Sum.inr.inj (hs'.symm.trans hstep)).symm,hall⟩

end ends

end SecureWipeOut.Regex
