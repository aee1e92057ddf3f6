import SecureWipeOut.Drive.BadBlocks

/-! # One turn of the loops of the bad block test

What a turn of the write loop and of the verify loop does to the state, and that it
makes progress. A read is answered in one of three ways: a single block that could
not be read is recorded, a short read only advances, a full read is compared.
-/
namespace SecureWipeOut.BadBlocks
open Sectors BadBlockList
variable {σ : Type*} {h : Handle σ} {p : Params}

theorem Params.blockSize_pos (p : Params) : 0 < p.blockSize := by
  have := p.idOffset_le
  omega

theorem blocksOf_le {bytes : ℤ} {tryout : ℕ} (hb : bytes ≤ (tryout * p.blockSize : ℕ)) :
    blocksOf p bytes ≤ tryout := by
  have hle : bytes.toNat ≤ tryout * p.blockSize := by omega
  exact (Nat.div_le_div_right hle).trans_eq (Nat.mul_div_cancel tryout p.blockSize_pos)

theorem clamp_spec {current tryout : ℕ} (ht : 0 < tryout) (hc : current < p.lastBlock) :
    0 < clamp p current tryout ∧ current + clamp p current tryout ≤ p.lastBlock ∧
      clamp p current tryout ≤ tryout := by
  unfold clamp
  split <;> omega

@[simp] theorem bbOutput_currentlyTesting (bad : ℕ) (e : ErrorType) (s : State σ) :
    (bbOutput bad e s).currentlyTesting = s.currentlyTesting := by
  unfold bbOutput
  split
  · rfl
  · cases e <;> rfl

/-- The parts of the state that bookkeeping leaves alone. -/
structure SameCourse (s t : State σ) : Prop where
  buffer : t.buffer = s.buffer
  reads : t.reads = s.reads
  passes : t.passes = s.passes

theorem SameCourse.trans {s t u : State σ} (h : SameCourse s t) (h' : SameCourse t u) :
    SameCourse s u :=
  ⟨h'.buffer.trans h.buffer,h'.reads.trans h.reads,h'.passes.trans h.passes⟩

theorem bbOutput_spec (bad : ℕ) (e : ErrorType) (s : State σ) :
    SameCourse s (bbOutput bad e s) ∧ (bbOutput bad e s).tryout = s.tryout ∧
      (bbOutput bad e s).compares = s.compares ∧
      ∀ x, x ∈ (bbOutput bad e s).bbList.list ↔ x = bad ∨ x ∈ s.bbList.list := by
  unfold bbOutput
  split
  case isTrue ht =>
    refine ⟨⟨rfl,rfl,rfl⟩,rfl,rfl,fun x => ⟨Or.inr,?_⟩⟩
    rintro (rfl | hx)
    · exact mem_of_test ht
    · exact hx
  case isFalse =>
    cases e <;> exact ⟨⟨rfl,rfl,rfl⟩,rfl,rfl,fun x => mem_add s.bbList bad x⟩

theorem record_spec (e : ErrorType) (got : ℕ) (s : State σ) :
    SameCourse s (record e got s) ∧ (record e got s).tryout = s.tryout ∧
      (record e got s).compares = s.compares ∧
      (record e got s).currentlyTesting =
        s.currentlyTesting + (if got = 0 ∧ s.tryout = 1 then 1 else 0) ∧
      ∀ x, x ∈ (record e got s).bbList.list ↔
        (got = 0 ∧ s.tryout = 1 ∧ x = s.currentlyTesting) ∨ x ∈ s.bbList.list := by
  obtain ⟨hc,ht,hcmp,hmem⟩ := bbOutput_spec s.currentlyTesting e s
  unfold record
  by_cases hz : got = 0 ∧ s.tryout = 1
  · simp only [if_pos hz]
    refine ⟨⟨hc.buffer,hc.reads,hc.passes⟩,ht,hcmp,trivial,fun x => ?_⟩
    rw [hmem x]
    tauto
  · simp only [if_neg hz]
    refine ⟨⟨rfl,rfl,rfl⟩,trivial,trivial,rfl,fun x => ?_⟩
    tauto

theorem advance_spec (got : ℕ) (s : State σ) (ht : 0 < s.tryout) :
    SameCourse s (advance p got s) ∧ (advance p got s).compares = s.compares ∧
      (advance p got s).bbList = s.bbList ∧
      (advance p got s).currentlyTesting = s.currentlyTesting + got ∧
      0 < (advance p got s).tryout ∧ (got ≠ s.tryout → (advance p got s).tryout = 1) := by
  have hp := p.atOnce_pos
  unfold advance
  dsimp only
  split
  · exact ⟨⟨rfl,rfl,rfl⟩,rfl,rfl,rfl,Nat.one_pos,fun _ => rfl⟩
  · split
    · exact ⟨⟨rfl,rfl,rfl⟩,rfl,rfl,rfl,hp,fun hne => absurd hne (by assumption)⟩
    · exact ⟨⟨rfl,rfl,rfl⟩,rfl,rfl,rfl,ht,fun hne => absurd hne (by assumption)⟩

/-- How much of the work is left; dropping to single blocks counts as progress. -/
def work (p : Params) (s : State σ) : ℕ :=
  2 * (p.lastBlock - s.currentlyTesting) + if s.tryout = 1 then 0 else 1

theorem guard_inl {s s' : State σ} (hg : guard h p s = .inl s') (ht : 0 < s.tryout) :
    s.currentlyTesting < p.lastBlock ∧ 0 < s'.tryout ∧
      s.currentlyTesting + s'.tryout ≤ p.lastBlock ∧ SameCourse s s' ∧
      s'.currentlyTesting = s.currentlyTesting ∧ s'.compares = s.compares ∧
      s'.bbList = s.bbList ∧ work p s' ≤ work p s := by
  unfold guard at hg
  split at hg
  case isTrue hlt =>
    dsimp only at hg
    split at hg
    · cases hg
    · split at hg
      · cases hg
      · cases hg
        obtain ⟨hpos,hfit,hle⟩ := clamp_spec (p := p) ht hlt
        refine ⟨hlt,hpos,hfit,⟨rfl,rfl,rfl⟩,rfl,rfl,rfl,?_⟩
        unfold work
        dsimp only
        split <;> split <;> omega
  case isFalse => cases hg

/-- Bookkeeping after a transfer always makes progress. -/
theorem advance_record_work (e : ErrorType) (got : ℕ) (s : State σ) (ht : 0 < s.tryout)
    (hg : got ≤ s.tryout) (hfit : s.currentlyTesting + s.tryout ≤ p.lastBlock) :
    work p (advance p got (record e got s)) < work p s := by
  obtain ⟨_,hrt,_,hrc,_⟩ := record_spec e got s
  have hrt' : 0 < (record e got s).tryout := by rw [hrt]; exact ht
  obtain ⟨_,_,_,hac,_,hat⟩ := advance_spec (p := p) got (record e got s) hrt'
  rw [hrt] at hat
  unfold work
  rw [hac,hrc]
  by_cases hz : got = 0
  · subst hz
    have hone := hat (by omega)
    rw [hone]
    by_cases h1 : s.tryout = 1
    · simp only [h1,and_self,if_true]
      omega
    · simp only [h1,and_false,if_false,if_true]
      omega
  · simp only [hz,false_and,if_false]
    split <;> split <;> omega

theorem exists_slot_succ {i left : ℕ} {P : ℕ → Prop} :
    (∃ k, i ≤ k ∧ k < i + (left + 1) ∧ P k) ↔ P i ∨ ∃ k, i + 1 ≤ k ∧ k < i + 1 + left ∧ P k := by
  constructor
  · rintro ⟨k,hge,hlt,hk⟩
    rcases Nat.eq_or_lt_of_le hge with rfl | hgt
    · exact Or.inl hk
    · exact Or.inr ⟨k,hgt,by omega,hk⟩
  · rintro (hi | ⟨k,hge,hlt,hk⟩)
    · exact ⟨i,le_refl i,by omega,hi⟩
    · exact ⟨k,by omega,by omega,hk⟩

/-- The comparisons of a full read: one for every slot, and the blocks that differ
join the list. -/
theorem compareBlocks_spec (r : Read) {i left : ℕ} {s t : State σ}
    (hc : s.currentlyTesting = r.start + r.got) (hr : compareBlocks p r i left s = (true,t)) :
    SameCourse s t ∧ t.currentlyTesting = s.currentlyTesting ∧ t.tryout = s.tryout ∧
      (∀ c, c ∈ t.compares ↔ c ∈ s.compares ∨ ∃ k, i ≤ k ∧ k < i + left ∧ c = ⟨r,k⟩) ∧
      ∀ x, x ∈ t.bbList.list ↔ x ∈ s.bbList.list ∨
        ∃ k, i ≤ k ∧ k < i + left ∧ x = r.start + k ∧ sameBlock p r.data s.buffer k = false := by
  induction left generalizing i s with
  | zero =>
    cases hr
    have hnone : ∀ P : ℕ → Prop, ¬∃ k, i ≤ k ∧ k < i + 0 ∧ P k := by
      rintro P ⟨k,hge,hlt,_⟩
      omega
    refine ⟨⟨rfl,rfl,rfl⟩,rfl,rfl,fun c => ?_,fun x => ?_⟩
    · rw [or_iff_left (hnone _)]
    · rw [or_iff_left (hnone _)]
  | succ left ih =>
    set seen : State σ := { s with compares := s.compares ++ [⟨r,i⟩] } with hseen
    have hcompared : ∀ c, c ∈ seen.compares ↔ c ∈ s.compares ∨ c = ⟨r,i⟩ := by
      intro c
      rw [hseen,List.mem_append,List.mem_singleton]
    unfold compareBlocks at hr
    dsimp only at hr
    rw [← hseen] at hr
    by_cases hsame : sameBlock p r.data s.buffer i = true
    · rw [if_pos hsame] at hr
      obtain ⟨hcourse,hcur,htry,hcmp,hbb⟩ := ih (s := seen) hc hr
      refine ⟨⟨hcourse.buffer,hcourse.reads,hcourse.passes⟩,hcur,htry,fun c => ?_,fun x => ?_⟩
      · rw [hcmp c,hcompared,exists_slot_succ,or_assoc]
      · rw [hbb x,exists_slot_succ,hsame]
        simp [seen]
    · rw [if_neg hsame] at hr
      split at hr
      case isFalse => cases hr
      case isTrue =>
        have hblock : s.currentlyTesting + i - r.got = r.start + i := by omega
        rw [hblock] at hr
        obtain ⟨hbc,hbt,hbcmp,hbmem⟩ := bbOutput_spec (r.start + i) .corruption seen
        have hcur' : (bbOutput (r.start + i) .corruption seen).currentlyTesting = r.start + r.got := by
          rw [bbOutput_currentlyTesting]
          exact hc
        obtain ⟨hcourse,hcur,htry,hcmp,hbb⟩ := ih hcur' hr
        have hall := hbc.trans hcourse
        refine ⟨⟨hall.buffer,hall.reads,hall.passes⟩,?_,htry.trans hbt,fun c => ?_,fun x => ?_⟩
        · rw [hcur,hcur',hc]
        · rw [hcmp c,hbcmp,hcompared,exists_slot_succ,or_assoc]
        · have hdiff : sameBlock p r.data s.buffer i = false := by simpa using hsame
          rw [hbb x,hbmem x,hbc.buffer,exists_slot_succ,hdiff,and_iff_left rfl]
          exact (or_congr_left or_comm).trans or_assoc

theorem doRead_le (tryout block : ℕ) (dev : σ) : (doRead h p tryout block dev).1.1 ≤ tryout :=
  blocksOf_le (readSectors_le h p.blockSize block tryout dev)

theorem doWrite_le (buffer : ℕ → UInt8) (tryout block : ℕ) (dev : σ) :
    (doWrite h p buffer tryout block dev).1 ≤ tryout :=
  blocksOf_le (writeSectors_le h p.largeDrive p.blockSize block tryout buffer dev)

theorem writeStep_inl {patIdx : ℕ} {s s' : State σ} (hs : writeStep h p patIdx s = .inl s')
    (ht : 0 < s.tryout) : s'.passes = s.passes ∧ 0 < s'.tryout ∧ work p s' < work p s ∧
      ∃ start, s'.buffer = markBuffer p patIdx start s.buffer := by
  unfold writeStep at hs
  cases hg : guard h p s with
  | inr e =>
    rw [hg] at hs
    cases hs
  | inl g =>
    rw [hg] at hs
    cases hs
    obtain ⟨hlt,hpos,hfit,hsame,hcur,_,_,hwork⟩ := guard_inl hg ht
    set w := doWrite h p (markBuffer p patIdx g.currentlyTesting g.buffer) g.tryout
      g.currentlyTesting g.dev with hw
    set g' : State σ := { g with
      buffer := markBuffer p patIdx g.currentlyTesting g.buffer, dev := w.2 } with hg'
    obtain ⟨hrec,hrt,_,_,_⟩ := record_spec .write w.1 g'
    obtain ⟨hadv,_,_,_,htry,_⟩ := advance_spec (p := p) w.1 (record .write w.1 g')
      (by rw [hrt]; exact hpos)
    have hprog := advance_record_work (p := p) .write w.1 g' hpos
      (doWrite_le _ _ _ _) (by rw [hg']; dsimp only; omega)
    refine ⟨?_,htry,lt_of_lt_of_le hprog hwork,g.currentlyTesting,?_⟩
    · rw [hadv.passes,hrec.passes]
      exact hsame.passes
    · rw [hadv.buffer,hrec.buffer,hg']
      dsimp only
      rw [hsame.buffer]

/-- What one turn of the verify loop does with the answer to its read. -/
inductive Turn (p : Params) (s s' : State σ) (r : Read) : Prop where
  | missed (got : r.got = 0) (tryout : r.tryout = 1)
      (current : s'.currentlyTesting = s.currentlyTesting + 1)
      (compares : ∀ c, c ∈ s'.compares ↔ c ∈ s.compares)
      (listed : ∀ x, x ∈ s'.bbList.list ↔ x = s.currentlyTesting ∨ x ∈ s.bbList.list)
  | short (got : r.got < r.tryout)
      (current : s'.currentlyTesting = s.currentlyTesting + r.got)
      (compares : ∀ c, c ∈ s'.compares ↔ c ∈ s.compares)
      (listed : ∀ x, x ∈ s'.bbList.list ↔ x ∈ s.bbList.list)
  | full (got : r.got = r.tryout)
      (current : s'.currentlyTesting = s.currentlyTesting + r.got)
      (compares : ∀ c, c ∈ s'.compares ↔ c ∈ s.compares ∨ c.read = r ∧ c.index < r.got)
      (listed : ∀ x, x ∈ s'.bbList.list ↔ x ∈ s.bbList.list ∨
        ∃ k < r.got, x = s.currentlyTesting + k ∧ sameBlock p r.data s'.buffer k = false)

/-- The state after the bookkeeping of a read, before any of its blocks is compared. -/
def afterRead (p : Params) (patIdx : ℕ) (r : Read) (dev : σ) (s : State σ) : State σ :=
  advance p r.got (record .read r.got { s with
    buffer := markBuffer p patIdx s.currentlyTesting s.buffer
    dev := dev
    reads := s.reads ++ [r] })

theorem afterRead_spec (patIdx : ℕ) {r : Read} (dev : σ) {s : State σ} (ht : 0 < s.tryout)
    (hgot : r.got ≤ s.tryout) (hfit : s.currentlyTesting + s.tryout ≤ p.lastBlock) :
    (afterRead p patIdx r dev s).passes = s.passes ∧ 0 < (afterRead p patIdx r dev s).tryout ∧
      work p (afterRead p patIdx r dev s) < work p s ∧
      (afterRead p patIdx r dev s).buffer = markBuffer p patIdx s.currentlyTesting s.buffer ∧
      (afterRead p patIdx r dev s).reads = s.reads ++ [r] ∧
      (afterRead p patIdx r dev s).compares = s.compares ∧
      (afterRead p patIdx r dev s).currentlyTesting =
        s.currentlyTesting + (if r.got = 0 ∧ s.tryout = 1 then 1 else 0) + r.got ∧
      ∀ x, x ∈ (afterRead p patIdx r dev s).bbList.list ↔
        (r.got = 0 ∧ s.tryout = 1 ∧ x = s.currentlyTesting) ∨ x ∈ s.bbList.list := by
  set s₁ : State σ := { s with
    buffer := markBuffer p patIdx s.currentlyTesting s.buffer
    dev := dev
    reads := s.reads ++ [r] }
  obtain ⟨hrec,hrt,hrcmp,hrcur,hrmem⟩ := record_spec .read r.got s₁
  obtain ⟨hadv,hacmp,habb,hacur,htry,_⟩ := advance_spec (p := p) r.got (record .read r.got s₁)
    (by rw [hrt]; exact ht)
  have hprog := advance_record_work (p := p) .read r.got s₁ ht hgot hfit
  have hall := hrec.trans hadv
  refine ⟨hall.passes,htry,hprog,hall.buffer,hall.reads,hacmp.trans hrcmp,?_,fun x => ?_⟩
  · rw [afterRead,hacur,hrcur]
  · rw [afterRead,habb,hrmem x]

/-- The read that is due, and the drive after it. -/
def nextRead (h : Handle σ) (p : Params) (g : State σ) : Read × σ :=
  let d := doRead h p g.tryout g.currentlyTesting g.dev
  (⟨g.currentlyTesting,g.tryout,d.1.1,d.1.2,g.bbList.list⟩,d.2)

theorem readStep_eq (patIdx : ℕ) {s g : State σ} (hg : guard h p s = .inl g) {r : Read} {dev : σ}
    (hr : nextRead h p g = (r,dev)) : readStep h p patIdx s =
      if r.got ≠ r.tryout then .inl (afterRead p patIdx r dev g)
      else if (compareBlocks p r 0 r.got (afterRead p patIdx r dev g)).1 then
        .inl (compareBlocks p r 0 r.got (afterRead p patIdx r dev g)).2
      else .inr (.aborted,(compareBlocks p r 0 r.got (afterRead p patIdx r dev g)).2) := by
  obtain ⟨rfl,rfl⟩ := Prod.mk.inj hr
  rw [readStep,hg]
  rfl

theorem readStep_of_guard (patIdx : ℕ) {s g : State σ} (hg : guard h p s = .inl g) :
    ∃ (r : Read) (dev : σ), r.start = g.currentlyTesting ∧ r.tryout = g.tryout ∧ r.got ≤ g.tryout ∧
      r.listed = g.bbList.list ∧ readStep h p patIdx s =
        if r.got ≠ r.tryout then .inl (afterRead p patIdx r dev g)
        else if (compareBlocks p r 0 r.got (afterRead p patIdx r dev g)).1 then
          .inl (compareBlocks p r 0 r.got (afterRead p patIdx r dev g)).2
        else .inr (.aborted,(compareBlocks p r 0 r.got (afterRead p patIdx r dev g)).2) :=
  ⟨(nextRead h p g).1,(nextRead h p g).2,rfl,rfl,doRead_le _ _ _,rfl,readStep_eq patIdx hg rfl⟩

/-- A read that did not deliver all its blocks. -/
theorem turn_of_short {patIdx : ℕ} {dev : σ} {s g : State σ} {r : Read} (ht : 0 < s.tryout)
    (hg : guard h p s = .inl g) (htry : r.tryout = g.tryout) (hgot : r.got ≤ g.tryout)
    (hne : r.got ≠ r.tryout) : Turn p s (afterRead p patIdx r dev g) r := by
  obtain ⟨_,hpos,hfit,_,hcur,hcmp,hbb,_⟩ := guard_inl hg ht
  obtain ⟨_,_,_,_,_,hcmps,hend,hmem⟩ := afterRead_spec (p := p) patIdx dev hpos hgot (by omega)
  have hsame : ∀ c, c ∈ (afterRead p patIdx r dev g).compares ↔ c ∈ s.compares := by
    intro c
    rw [hcmps,hcmp]
  rw [hcur] at hend
  rw [hcur,hbb] at hmem
  by_cases hz : r.got = 0 ∧ g.tryout = 1
  · refine Turn.missed hz.1 (htry.trans hz.2) ?_ hsame fun x => ?_
    · rw [hend,if_pos hz,hz.1]
    · rw [hmem x]
      tauto
  · refine Turn.short (by omega) ?_ hsame fun x => ?_
    · rw [hend,if_neg hz,Nat.add_zero]
    · rw [hmem x]
      tauto

/-- A read that delivered all its blocks, every one of which is then compared. -/
theorem turn_of_full {patIdx : ℕ} {dev : σ} {s g u : State σ} {r : Read} (ht : 0 < s.tryout)
    (hg : guard h p s = .inl g) (hstart : r.start = g.currentlyTesting) (htry : r.tryout = g.tryout)
    (heq : r.got = r.tryout)
    (hc : compareBlocks p r 0 r.got (afterRead p patIdx r dev g) = (true,u)) :
    SameCourse (afterRead p patIdx r dev g) u ∧ u.tryout = (afterRead p patIdx r dev g).tryout ∧
      work p u = work p (afterRead p patIdx r dev g) ∧ Turn p s u r := by
  obtain ⟨_,hpos,hfit,_,hcur,hcmp,hbb,_⟩ := guard_inl hg ht
  obtain ⟨_,_,_,_,_,hcmps,hend,hmem⟩ := afterRead_spec (p := p) (r := r) patIdx dev hpos (by omega)
    (by omega)
  have hz : ¬(r.got = 0 ∧ g.tryout = 1) := by omega
  rw [if_neg hz,Nat.add_zero] at hend
  obtain ⟨hcourse,hucur,hutry,hucmp,hubb⟩ := compareBlocks_spec r (by rw [hend,hstart]) hc
  refine ⟨hcourse,hutry,by rw [work,hucur,hutry,work],Turn.full heq ?_ (fun c => ?_) fun x => ?_⟩
  · rw [hucur,hend,hcur]
  · rw [hucmp c,hcmps,hcmp]
    refine or_congr_right ⟨?_,?_⟩
    · rintro ⟨k,_,hk,rfl⟩
      exact ⟨rfl,by simpa using hk⟩
    · rintro ⟨rfl,hk⟩
      exact ⟨c.index,Nat.zero_le _,by omega,rfl⟩
  · rw [hubb x,hmem x,hcourse.buffer,hbb,hstart,hcur]
    simp only [Nat.zero_le,true_and,Nat.zero_add]
    tauto

theorem readStep_inl {patIdx : ℕ} {s s' : State σ} (hs : readStep h p patIdx s = .inl s')
    (ht : 0 < s.tryout) : s'.passes = s.passes ∧ 0 < s'.tryout ∧ work p s' < work p s ∧
      s'.buffer = markBuffer p patIdx s.currentlyTesting s.buffer ∧
      ∃ r : Read, s'.reads = s.reads ++ [r] ∧ r.start = s.currentlyTesting ∧
        r.start + r.got ≤ p.lastBlock ∧ r.listed = s.bbList.list ∧ Turn p s s' r := by
  cases hg : guard h p s with
  | inr e =>
    rw [readStep,hg] at hs
    cases hs
  | inl g =>
    obtain ⟨_,hpos,hfit,hsame,hcur,_,hbb,hwork⟩ := guard_inl hg ht
    obtain ⟨r,dev,hstart,htry,hgot,hlisted,heq⟩ := readStep_of_guard patIdx hg
    obtain ⟨hpasses,hpos',hprog,hbuf,hreads,_⟩ := afterRead_spec (p := p) (r := r) patIdx dev hpos hgot
      (by omega)
    rw [hsame.passes] at hpasses
    rw [hcur,hsame.buffer] at hbuf
    rw [hsame.reads] at hreads
    rw [hcur] at hstart
    rw [hbb] at hlisted
    rw [heq] at hs
    split at hs
    case isTrue hne =>
      cases hs
      exact ⟨hpasses,hpos',lt_of_lt_of_le hprog hwork,hbuf,r,hreads,hstart,by omega,hlisted,
        turn_of_short ht hg htry hgot hne⟩
    case isFalse hfull =>
      split at hs
      case isFalse => cases hs
      case isTrue hok =>
        cases hs
        obtain ⟨hcourse,hutry,huwork,hturn⟩ := turn_of_full ht hg (hstart.trans hcur.symm) htry
          (not_not.mp hfull) (Prod.ext hok rfl)
        exact ⟨hcourse.passes.trans hpasses,by rw [hutry]; exact hpos',
          by rw [huwork]; exact lt_of_lt_of_le hprog hwork,hcourse.buffer.trans hbuf,r,
          hcourse.reads.trans hreads,hstart,by omega,hlisted,hturn⟩

end SecureWipeOut.BadBlocks
