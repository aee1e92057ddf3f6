import SecureWipeOut.Drive.BadBlocksSteps

/-! # What a pass of the bad block test covers

Blocks in front of the current position were compared, recorded, or passed over by
a read that delivered only part of its request. The blocks of such a read are
advanced past without a comparison.
-/
namespace SecureWipeOut.BadBlocks
open Sectors BadBlockList
variable {σ : Type*} {h : Handle σ} {p : Params}

/-- The read delivered some of its blocks, but not all. -/
def Read.Partial (r : Read) : Prop := 0 < r.got ∧ r.got < r.tryout

/-- A comparison of a block read in full with the pattern of the pass found no difference. -/
def Verified (p : Params) (patIdx pattern : ℕ) (reads : List Read) (compares : List Compare)
    (b : ℕ) : Prop :=
  ∃ c ∈ compares, c.block = b ∧ c.read ∈ reads ∧ c.read.got = c.read.tryout ∧
    c.index < c.read.got ∧ ∀ j < p.blockSize, c.read.data (c.index * p.blockSize + j) =
      expected p patIdx pattern c.read.start (c.index * p.blockSize + j)

/-- Every block of the range has been verified in the pass or is on the list. -/
def PassRecord.Covered (p : Params) (rec : PassRecord) : Prop :=
  ∀ b, p.firstBlock ≤ b → b < p.lastBlock →
    Verified p rec.patIdx rec.pattern rec.reads rec.compares b ∨ b ∈ rec.listed

/-- No read of the pass delivered part of its request, except for blocks that were on
the list when it was issued. -/
def PassRecord.WholeReads (rec : PassRecord) : Prop :=
  ∀ r ∈ rec.reads, r.Partial → ∀ i < r.got, r.start + i ∈ r.listed

theorem sameBlock_iff (data buffer : ℕ → UInt8) (index : ℕ) :
    sameBlock p data buffer index = true ↔ ∀ j < p.blockSize,
      data (index * p.blockSize + j) = buffer (index * p.blockSize + j) := by
  simp [sameBlock]

/-- The ids of the last request do not survive in the buffer of the next one. -/
theorem markBuffer_markBuffer (patIdx start start' : ℕ) (buffer : ℕ → UInt8) :
    markBuffer p patIdx start' (markBuffer p patIdx start buffer) =
      markBuffer p patIdx start' buffer := by
  unfold markBuffer
  split
  · funext i
    unfold writeIds
    dsimp only
    split <;> rfl
  · rfl

/-- The buffer is the pattern of the pass up to the ids of the last request. -/
def FilledWith (p : Params) (patIdx pattern : ℕ) (s : State σ) : Prop :=
  ∀ start, markBuffer p patIdx start s.buffer = expected p patIdx pattern start

structure VerifyInv (p : Params) (patIdx pattern : ℕ) (s : State σ) : Prop where
  tryout_pos : 0 < s.tryout
  first_le : p.firstBlock ≤ s.currentlyTesting
  inside : ∀ r ∈ s.reads, p.firstBlock ≤ r.start ∧ r.start + r.got ≤ p.lastBlock
  filled : FilledWith p patIdx pattern s
  covered : ∀ b, p.firstBlock ≤ b → b < s.currentlyTesting →
    Verified p patIdx pattern s.reads s.compares b ∨ b ∈ s.bbList.list ∨
      ∃ r ∈ s.reads, r.Partial ∧ r.start ≤ b ∧ b < r.start + r.got
  behind : ∀ c ∈ s.compares, c.block < s.currentlyTesting
  skipped : ∀ r ∈ s.reads, r.Partial → ∀ i < r.got, r.start + i < s.currentlyTesting ∧
    (r.start + i ∈ s.bbList.list ↔ r.start + i ∈ r.listed) ∧
    ∀ c ∈ s.compares, c.block ≠ r.start + i

theorem Verified.mono {patIdx pattern b : ℕ} {reads reads' : List Read}
    {compares compares' : List Compare} (hv : Verified p patIdx pattern reads compares b)
    (hr : ∀ r ∈ reads, r ∈ reads') (hc : ∀ c ∈ compares, c ∈ compares') :
    Verified p patIdx pattern reads' compares' b := by
  obtain ⟨c,hmem,hblock,hread,hrest⟩ := hv
  exact ⟨c,hc c hmem,hblock,hr _ hread,hrest⟩

/-- A turn only adds to the record: what it compares or lists lies at or behind the old position,
and it has to account for the blocks that it goes past. -/
theorem VerifyInv.extend {patIdx pattern : ℕ} {s s' : State σ} {r : Read}
    (hi : VerifyInv p patIdx pattern s) (htry : 0 < s'.tryout)
    (hfilled : FilledWith p patIdx pattern s') (hreads : s'.reads = s.reads ++ [r])
    (hstart : r.start = s.currentlyTesting) (hfit : r.start + r.got ≤ p.lastBlock)
    (hle : s.currentlyTesting ≤ s'.currentlyTesting)
    (hcmp : ∀ c ∈ s.compares, c ∈ s'.compares) (hbb : ∀ x ∈ s.bbList.list, x ∈ s'.bbList.list)
    (hcmp' : ∀ c ∈ s'.compares, c ∈ s.compares ∨
      s.currentlyTesting ≤ c.block ∧ c.block < s'.currentlyTesting)
    (hbb' : ∀ x ∈ s'.bbList.list, x ∈ s.bbList.list ∨ s.currentlyTesting ≤ x)
    (hpassed : ∀ b, s.currentlyTesting ≤ b → b < s'.currentlyTesting →
      Verified p patIdx pattern s'.reads s'.compares b ∨ b ∈ s'.bbList.list ∨
        r.Partial ∧ r.start ≤ b ∧ b < r.start + r.got)
    (hskipped : r.Partial → ∀ i < r.got, r.start + i < s'.currentlyTesting ∧
      (r.start + i ∈ s'.bbList.list ↔ r.start + i ∈ r.listed) ∧ ∀ c ∈ s'.compares, c.block ≠ r.start + i) :
    VerifyInv p patIdx pattern s' := by
  have hfirst := hi.first_le
  have hold : ∀ q ∈ s.reads, q ∈ s'.reads := fun q hq => by
    rw [hreads]
    exact List.mem_append_left _ hq
  have hnew : r ∈ s'.reads := by
    rw [hreads]
    exact List.mem_append_right _ List.mem_cons_self
  have hmem : ∀ q ∈ s'.reads, q ∈ s.reads ∨ q = r := by
    intro q hq
    rw [hreads] at hq
    simpa using hq
  refine ⟨htry,by omega,?_,hfilled,?_,?_,?_⟩
  · intro q hq
    rcases hmem q hq with hq | rfl
    · exact hi.inside q hq
    · exact ⟨by omega,hfit⟩
  · intro b hb hb'
    rcases Nat.lt_or_ge b s.currentlyTesting with hlt | hge
    · rcases hi.covered b hb hlt with hv | hm | ⟨q,hq,hp,hrange⟩
      · exact Or.inl (hv.mono hold hcmp)
      · exact Or.inr (Or.inl (hbb b hm))
      · exact Or.inr (Or.inr ⟨q,hold q hq,hp,hrange⟩)
    · rcases hpassed b hge hb' with hv | hm | ⟨hp,hrange⟩
      · exact Or.inl hv
      · exact Or.inr (Or.inl hm)
      · exact Or.inr (Or.inr ⟨r,hnew,hp,hrange⟩)
  · intro c hc
    rcases hcmp' c hc with hc | ⟨_,hlt⟩
    · exact lt_of_lt_of_le (hi.behind c hc) hle
    · exact hlt
  · intro q hq hp i hlt
    rcases hmem q hq with hq | rfl
    · obtain ⟨hpos,hiff,hno⟩ := hi.skipped q hq hp i hlt
      refine ⟨by omega,⟨fun hm => ?_,fun hm => hbb _ (hiff.mpr hm)⟩,fun c hc => ?_⟩
      · rcases hbb' _ hm with hm | hge
        · exact hiff.mp hm
        · omega
      · rcases hcmp' c hc with hc | ⟨hge,_⟩
        · exact hno c hc
        · omega
    · exact hskipped hp i hlt

theorem readStep_inv {patIdx pattern : ℕ} {s s' : State σ}
    (hs : readStep h p patIdx s = .inl s') (hi : VerifyInv p patIdx pattern s) :
    VerifyInv p patIdx pattern s' := by
  obtain ⟨_,htry,_,hbuf,r,hreads,hstart,hfit,hlisted,hturn⟩ := readStep_inl hs hi.tryout_pos
  have hfilled : FilledWith p patIdx pattern s' := by
    intro start
    rw [hbuf,markBuffer_markBuffer]
    exact hi.filled start
  cases hturn with
  | missed hgot htry1 hcur hcmp hbb =>
    apply hi.extend htry hfilled hreads hstart hfit
    case hle => omega
    case hcmp => exact fun c => (hcmp c).mpr
    case hbb => exact fun x hx => (hbb x).mpr (Or.inr hx)
    case hcmp' => exact fun c hc => Or.inl ((hcmp c).mp hc)
    case hbb' => exact fun x hx => ((hbb x).mp hx).elim (fun h => Or.inr h.ge) Or.inl
    case hpassed => exact fun b hge hlt => Or.inr (Or.inl ((hbb b).mpr (Or.inl (by omega))))
    case hskipped => exact fun hp => absurd hp.1 (by omega)
  | short hgot hcur hcmp hbb =>
    apply hi.extend htry hfilled hreads hstart hfit
    case hle => omega
    case hcmp => exact fun c => (hcmp c).mpr
    case hbb => exact fun x => (hbb x).mpr
    case hcmp' => exact fun c hc => Or.inl ((hcmp c).mp hc)
    case hbb' => exact fun x hx => Or.inl ((hbb x).mp hx)
    case hpassed => exact fun b hge hlt => Or.inr (Or.inr ⟨⟨by omega,hgot⟩,by omega,by omega⟩)
    case hskipped =>
      intro _ i hlt
      refine ⟨by omega,by rw [hbb,hlisted],fun c hc => ?_⟩
      have hbehind := hi.behind c ((hcmp c).mp hc)
      omega
  | full hgot hcur hcmp hbb =>
    apply hi.extend htry hfilled hreads hstart hfit
    case hle => omega
    case hcmp => exact fun c hc => (hcmp c).mpr (Or.inl hc)
    case hbb => exact fun x hx => (hbb x).mpr (Or.inl hx)
    case hcmp' =>
      intro c hc
      rcases (hcmp c).mp hc with hc | ⟨hcr,hidx⟩
      · exact Or.inl hc
      · rw [Compare.block,hcr]
        exact Or.inr ⟨by omega,by omega⟩
    case hbb' =>
      intro x hx
      rcases (hbb x).mp hx with hx | ⟨k,_,rfl,_⟩
      · exact Or.inl hx
      · exact Or.inr (Nat.le_add_right _ _)
    case hpassed =>
      intro b hge hlt
      obtain ⟨k,rfl⟩ := Nat.exists_eq_add_of_le hge
      have hk : k < r.got := by omega
      cases hsame : sameBlock p r.data s'.buffer k with
      | false => exact Or.inr (Or.inl ((hbb _).mpr (Or.inr ⟨k,hk,rfl,hsame⟩)))
      | true =>
        have hnew : r ∈ s'.reads := by
          rw [hreads]
          exact List.mem_append_right _ List.mem_cons_self
        refine Or.inl ⟨⟨r,k⟩,(hcmp _).mpr (Or.inr ⟨rfl,hk⟩),?_,hnew,hgot,hk,?_⟩
        · rw [Compare.block,hstart]
        · rw [hbuf,hi.filled,sameBlock_iff] at hsame
          rw [hstart]
          exact hsame
    case hskipped => exact fun hp => absurd hp.2 (by omega)

theorem VerifyInv.covered_iff {patIdx pattern : ℕ} {s : State σ}
    (hi : VerifyInv p patIdx pattern s) (hend : p.lastBlock ≤ s.currentlyTesting) :
    PassRecord.Covered p ⟨patIdx,pattern,s.reads,s.compares,s.bbList.list⟩ ↔
      PassRecord.WholeReads ⟨patIdx,pattern,s.reads,s.compares,s.bbList.list⟩ := by
  constructor
  · intro hcov r hr hp i hlt
    obtain ⟨_,hiff,hno⟩ := hi.skipped r hr hp i hlt
    obtain ⟨hfirst,hlast⟩ := hi.inside r hr
    rcases hcov (r.start + i) (by omega) (by omega) with ⟨c,hc,hblock,_⟩ | hm
    · exact absurd hblock (hno c hc)
    · exact hiff.mp hm
  · intro hwhole b hb hb'
    rcases hi.covered b hb (by omega) with hv | hm | ⟨r,hr,hp,hge,hlt⟩
    · exact Or.inl hv
    · exact Or.inr hm
    · obtain ⟨i,rfl⟩ : ∃ i, b = r.start + i := ⟨b - r.start,by omega⟩
      have hi' := hi.skipped r hr hp i (by omega)
      exact Or.inr (hi'.2.1.mpr (hwhole r hr hp i (by omega)))

theorem guard_inr {s : State σ} {e : Exit × State σ} (hg : guard h p s = .inr e) :
    e.2.passes = s.passes ∧ e.2.buffer = s.buffer ∧
      (e.1 = .finished → p.lastBlock ≤ s.currentlyTesting ∧ e.2 = s) := by
  unfold guard at hg
  split at hg
  · dsimp only at hg
    split at hg
    · cases hg
      exact ⟨rfl,rfl,fun hf => by cases hf⟩
    · split at hg
      · cases hg
        exact ⟨rfl,rfl,fun hf => by cases hf⟩
      · cases hg
  · cases hg
    exact ⟨rfl,rfl,fun _ => ⟨by omega,rfl⟩⟩

theorem writeStep_inr {patIdx : ℕ} {s : State σ} {e : Exit × State σ}
    (hs : writeStep h p patIdx s = .inr e) : guard h p s = .inr e := by
  unfold writeStep at hs
  cases hg : guard h p s with
  | inr e' =>
    rw [hg] at hs
    exact hs
  | inl g =>
    rw [hg] at hs
    cases hs

theorem compareBlocks_passes (r : Read) (i left : ℕ) (s : State σ) :
    (compareBlocks p r i left s).2.passes = s.passes := by
  induction left generalizing i s with
  | zero => rfl
  | succ left ih =>
    unfold compareBlocks
    dsimp only
    split
    · exact ih _ _
    · split
      · rw [ih]
        exact (bbOutput_spec _ _ _).1.passes
      · rfl

theorem readStep_inr {patIdx : ℕ} {s : State σ} {e : Exit × State σ}
    (hs : readStep h p patIdx s = .inr e) (ht : 0 < s.tryout) :
    e.2.passes = s.passes ∧ (e.1 = .finished → p.lastBlock ≤ s.currentlyTesting ∧ e.2 = s) := by
  cases hg : guard h p s with
  | inr e' =>
    rw [readStep,hg] at hs
    cases hs
    exact ⟨(guard_inr hg).1,(guard_inr hg).2.2⟩
  | inl g =>
    obtain ⟨_,hpos,hfit,hsame,hcur,_⟩ := guard_inl hg ht
    obtain ⟨r,dev,_,_,hgot,_,heq⟩ := readStep_of_guard patIdx hg
    rw [heq] at hs
    split at hs
    · cases hs
    · split at hs
      · cases hs
      · cases hs
        refine ⟨?_,fun hf => ?_⟩
        · rw [compareBlocks_passes,(afterRead_spec patIdx dev hpos hgot (by omega)).1]
          exact hsame.passes
        · cases hf

/-- The write loop ends, and leaves the pattern in the buffer. -/
theorem writeLoop_spec (patIdx pattern : ℕ) {s : State σ} (ht : 0 < s.tryout)
    (hf : FilledWith p patIdx pattern s) :
    ∃ e, Loop.run (writeStep h p patIdx) (fuel p) s = some e ∧ e.2.passes = s.passes ∧
      FilledWith p patIdx pattern e.2 := by
  have hstep : ∀ t t', (0 < t.tryout) → writeStep h p patIdx t = .inl t' →
      0 < t'.tryout ∧ work p t' < work p t := fun t t' htt hw =>
    ⟨(writeStep_inl hw htt).2.1,(writeStep_inl hw htt).2.2.1⟩
  have hfuel : work p s < fuel p := by
    unfold work fuel
    split <;> omega
  obtain ⟨e,he⟩ := Loop.run_terminates (work p) hstep ht hfuel
  refine ⟨e,he,?_⟩
  refine Loop.run_rule (I := fun t : State σ => 0 < t.tryout ∧ t.passes = s.passes ∧
    FilledWith p patIdx pattern t) (Q := fun e : Exit × State σ => e.2.passes = s.passes ∧
    FilledWith p patIdx pattern e.2) ?_ ?_ ⟨ht,rfl,hf⟩ he
  · rintro t t' ⟨htt,hpass,hfill⟩ hw
    obtain ⟨hp,htry,_,start,hbuf⟩ := writeStep_inl hw htt
    refine ⟨htry,hp.trans hpass,fun start' => ?_⟩
    rw [hbuf,markBuffer_markBuffer]
    exact hfill start'
  · rintro t e ⟨_,hpass,hfill⟩ hw
    obtain ⟨hp,hbuf,_⟩ := guard_inr (writeStep_inr hw)
    refine ⟨hp.trans hpass,fun start' => ?_⟩
    rw [hbuf]
    exact hfill start'

/-- The verify loop ends, and where it gets through to the end its record covers the
range exactly when its reads were whole. -/
theorem readLoop_spec {patIdx pattern : ℕ} {s : State σ} (hi : VerifyInv p patIdx pattern s) :
    ∃ e, Loop.run (readStep h p patIdx) (fuel p) s = some e ∧ e.2.passes = s.passes ∧
      (e.1 = .finished → VerifyInv p patIdx pattern e.2 ∧ p.lastBlock ≤ e.2.currentlyTesting) := by
  have hstep : ∀ t t', VerifyInv p patIdx pattern t → readStep h p patIdx t = .inl t' →
      VerifyInv p patIdx pattern t' ∧ work p t' < work p t := fun t t' ht hr =>
    ⟨readStep_inv hr ht,(readStep_inl hr ht.tryout_pos).2.2.1⟩
  have hfuel : work p s < fuel p := by
    unfold work fuel
    split <;> omega
  obtain ⟨e,he⟩ := Loop.run_terminates (work p) hstep hi hfuel
  refine ⟨e,he,?_⟩
  refine Loop.run_rule (I := fun t : State σ => VerifyInv p patIdx pattern t ∧
    t.passes = s.passes) (Q := fun e : Exit × State σ => e.2.passes = s.passes ∧
    (e.1 = .finished → VerifyInv p patIdx pattern e.2 ∧ p.lastBlock ≤ e.2.currentlyTesting))
    ?_ ?_ ⟨hi,rfl⟩ he
  · rintro t t' ⟨ht,hpass⟩ hr
    exact ⟨readStep_inv hr ht,(readStep_inl hr ht.tryout_pos).1.trans hpass⟩
  · rintro t e ⟨ht,hpass⟩ hr
    obtain ⟨hp,hend⟩ := readStep_inr hr ht.tryout_pos
    refine ⟨hp.trans hpass,fun hf => ?_⟩
    obtain ⟨hle,heq⟩ := hend hf
    rw [heq]
    exact ⟨ht,hle⟩

/-- A pass adds at most one record, and that one covers the range exactly when its
reads were whole. -/
theorem pass_spec (patIdx pattern : ℕ) (s : State σ) :
    ∃ e, pass h p patIdx pattern s = some e ∧ ∀ rec ∈ e.2.passes, rec ∈ s.passes ∨
      (rec.Covered p ↔ rec.WholeReads) := by
  unfold pass
  dsimp only
  split
  · exact ⟨_,rfl,fun rec hrec => Or.inl hrec⟩
  · set start : State σ := { s with
      dev := (h.cancelled s.dev).2
      buffer := patternFill p patIdx pattern
      currentlyTesting := p.firstBlock
      tryout := p.blocksAtOnce } with hstart
    obtain ⟨⟨x,w⟩,hw,hwp,hwf⟩ := writeLoop_spec (h := h) (p := p) patIdx pattern
      (s := start) p.atOnce_pos (fun _ => rfl)
    have hold : ∀ rec ∈ w.passes, rec ∈ s.passes := fun rec hrec => by
      rw [hwp] at hrec
      exact hrec
    rw [hw]
    cases x with
    | cancelled => exact ⟨_,rfl,fun rec hrec => Or.inl (hold rec hrec)⟩
    | aborted => exact ⟨_,rfl,fun rec hrec => Or.inl (hold rec hrec)⟩
    | finished =>
      dsimp only
      have hinit : VerifyInv p patIdx pattern { w with
          currentlyTesting := p.firstBlock
          tryout := p.blocksAtOnce
          reads := []
          compares := [] } := by
        constructor
        case tryout_pos => exact p.atOnce_pos
        case first_le => exact le_refl _
        case filled => exact hwf
        case covered => exact fun b hb hb' => absurd hb' (not_lt.mpr hb)
        all_goals simp
      obtain ⟨⟨y,r⟩,hr,hrp,hri⟩ := readLoop_spec (h := h) hinit
      rw [hr]
      have hold' : ∀ rec ∈ r.passes, rec ∈ s.passes := fun rec hrec => by
        rw [hrp] at hrec
        exact hold rec hrec
      cases y with
      | cancelled => exact ⟨_,rfl,fun rec hrec => Or.inl (hold' rec hrec)⟩
      | aborted => exact ⟨_,rfl,fun rec hrec => Or.inl (hold' rec hrec)⟩
      | finished =>
        obtain ⟨hinv,hend⟩ := hri rfl
        refine ⟨_,rfl,fun rec hrec => ?_⟩
        rcases List.mem_append.mp hrec with hrec | hrec
        · exact Or.inl (hold' rec hrec)
        · rw [List.mem_singleton.mp hrec]
          exact Or.inr (hinv.covered_iff hend)

theorem runPasses_spec (patterns : List ℕ) (patIdx : ℕ) (s : State σ) :
    ∃ t, runPasses h p patIdx patterns s = some t ∧ ∀ rec ∈ t.passes, rec ∈ s.passes ∨
      (rec.Covered p ↔ rec.WholeReads) := by
  induction patterns generalizing patIdx s with
  | nil => exact ⟨s,rfl,fun rec hrec => Or.inl hrec⟩
  | cons pattern rest ih =>
    obtain ⟨⟨x,t⟩,ht,hrec⟩ := pass_spec (h := h) (p := p) patIdx pattern s
    unfold runPasses
    rw [ht]
    cases x with
    | cancelled => exact ⟨t,rfl,hrec⟩
    | aborted => exact ⟨t,rfl,hrec⟩
    | finished =>
      obtain ⟨u,hu,hrec'⟩ := ih (patIdx + 1) t
      refine ⟨u,hu,fun rec hm => ?_⟩
      rcases hrec' rec hm with hm | hiff
      · exact hrec rec hm
      · exact Or.inr hiff

/-- The test always ends, and each pass it got through has verified or recorded every
block of the range exactly when no read of the pass came back with part of its blocks
unless these were on the list already. -/
theorem testRw_coverage {σ : Type*} (h : Handle σ) (p : Params) (table : List (List ℕ))
    (patternType nbPasses : ℤ) (s : State σ) :
    ∃ t, testRw h p table patternType nbPasses s = some t ∧
      ∀ rec ∈ t.passes, rec.Covered p ↔ rec.WholeReads := by
  unfold testRw
  dsimp only
  split
  · exact ⟨_,rfl,by simp⟩
  · split
    · exact ⟨_,rfl,by simp⟩
    · split
      · exact ⟨_,rfl,by simp⟩
      · obtain ⟨t,ht,hrec⟩ := runPasses_spec (h := h) (p := p)
          ((table.getD patternType.toNat []).take nbPasses.toNat) 0 { s with passes := [] }
        refine ⟨t,ht,fun rec hm => ?_⟩
        rcases hrec rec hm with hm | hiff
        · cases hm
        · exact hiff

/-- A drive of two blocks that accepts every write, answers the first read with one of
two blocks and fails the second. The state counts the reads. -/
def flakyDrive : Handle ℕ where
  getFilePointer n := (some 0,n)
  setFilePointerEx _ n := (true,n)
  readFile size n := (if n = 0 then ⟨true,size / 2,fun _ => 0⟩ else ⟨false,0,fun _ => 0⟩,n + 1)
  writeFile _ size n := (⟨true,size⟩,n)
  cancelled n := (false,n)
  read_le size n := by
    split
    · exact Nat.div_le_self _ _
    · exact Nat.zero_le _
  write_le _ _ _ := le_refl _

def twoBlocks : Params where
  firstBlock := 0
  lastBlock := 2
  blockSize := 524288
  blocksAtOnce := 64
  detectFakes := false
  largeDrive := false
  idOffset := 0
  random _ _ := 0
  atOnce_pos := by decide
  idOffset_le := by decide
  first_lt := by decide
  last_lt := by decide

def blankState : State ℕ where
  dev := 0
  bbList := create 0
  bbCount := 0
  numReadErrors := 0
  numWriteErrors := 0
  numCorruptionErrors := 0
  currentlyTesting := 0
  tryout := 0
  recoverBlock := noRecover
  buffer _ := 0
  reads := []
  compares := []
  passes := []

/-- Block 0 reads back as zeros instead of the pattern, is never compared and never
recorded, in a pass that gets through to the end. -/
theorem testRw_partial_read :
    ∃ t, testRw flakyDrive twoBlocks badblockPatterns 0 1 blankState = some t ∧
      ∃ rec ∈ t.passes, rec.compares = [] ∧ rec.listed = [1] ∧ ¬rec.Covered twoBlocks := by
  refine ⟨_,rfl,_,List.mem_cons_self,rfl,rfl,?_⟩
  intro hcov
  rcases hcov 0 (le_refl 0) (by decide) with ⟨c,hc,_⟩ | hm
  · cases hc
  · revert hm
    decide

end SecureWipeOut.BadBlocks
