import SecureWipeOut.Drive.FakeDetection

/-! # What the verify loop records on a fake device

Blocks are compared in ascending order, so the list is the part of the overwritten blocks
in front of the current position.
-/
namespace SecureWipeOut.BadBlocks
open Sectors BadBlockList
universe u
variable {σ : Type u} {h : Handle σ} {p : Params}

/-- The blocks below n that satisfy bad are listed, all of them as corrupted. -/
structure Recorded (bad : ℕ → Bool) (n : ℕ) (s : State σ) : Prop where
  list : s.bbList.list = (List.range n).filter bad
  count : s.bbCount = ((List.range n).filter bad).length
  corruptionErrors : s.numCorruptionErrors = s.bbCount
  readErrors : s.numReadErrors = 0
  writeErrors : s.numWriteErrors = 0

/-- The parts of the state that comparing leaves alone. -/
structure SamePlace (s t : State σ) : Prop where
  dev : t.dev = s.dev
  buffer : t.buffer = s.buffer
  current : t.currentlyTesting = s.currentlyTesting
  tryout : t.tryout = s.tryout
  recover : t.recoverBlock = s.recoverBlock

theorem SamePlace.trans {s t u : State σ} (h : SamePlace s t) (h' : SamePlace t u) :
    SamePlace s u :=
  ⟨h'.dev.trans h.dev,h'.buffer.trans h.buffer,h'.current.trans h.current,
    h'.tryout.trans h.tryout,h'.recover.trans h.recover⟩

theorem add_above {bb : U64List} {blk : ℕ} (hblk : ∀ x ∈ bb.list, x < blk) :
    (add bb blk).list = bb.list ++ [blk] := by
  rw [add]
  cases hlast : bb.list.getLast? with
  | none => simp [List.getLast?_eq_none_iff.mp hlast]
  | some last =>
    have hlt := hblk last (List.mem_of_getLast? hlast)
    simp only [if_neg hlt.ne,if_pos hlt]

section compare
variable {bad : ℕ → Bool}

theorem Recorded.bbOutput {n : ℕ} {s : State σ} (hs : Recorded bad n s) (hn : bad n = true) :
    Recorded bad (n + 1) (bbOutput n .corruption s) ∧ SamePlace s (bbOutput n .corruption s) := by
  have hbelow : ∀ x ∈ s.bbList.list, x < n := by
    intro x hx
    rw [hs.list,List.mem_filter,List.mem_range] at hx
    exact hx.1
  have htest : ¬ test s.bbList n = true := fun ht => absurd (hbelow n (mem_of_test ht)) (by omega)
  have hfilter : (List.range (n + 1)).filter bad = (List.range n).filter bad ++ [n] := by
    rw [List.range_succ,List.filter_append,List.filter_singleton,hn]
    rfl
  rw [BadBlocks.bbOutput,if_neg htest]
  refine ⟨⟨?_,?_,?_,hs.readErrors,hs.writeErrors⟩,rfl,rfl,rfl,rfl,rfl⟩
  · rw [hfilter,← hs.list]
    exact add_above hbelow
  · rw [hfilter,List.length_append,← hs.count]
    rfl
  · exact congrArg (· + 1) hs.corruptionErrors

theorem Recorded.skip {n : ℕ} {s : State σ} (hs : Recorded bad n s) (hn : bad n = false) :
    Recorded bad (n + 1) s := by
  have hfilter : (List.range (n + 1)).filter bad = (List.range n).filter bad := by
    rw [List.range_succ,List.filter_append,List.filter_singleton,hn]
    simp
  exact ⟨hs.list.trans hfilter.symm,hfilter ▸ hs.count,hs.corruptionErrors,hs.readErrors,hs.writeErrors⟩

/-- The comparisons of a request, when the blocks that differ are the bad ones. -/
theorem compareBlocks_recorded (r : Read) {i left : ℕ} {s : State σ}
    (hcur : s.currentlyTesting = r.start + r.got) (hs : Recorded bad (r.start + i) s)
    (hsame : ∀ k, i ≤ k → k < i + left → sameBlock p r.data s.buffer k = !bad (r.start + k))
    (hPB : s.currentlyTesting * p.blockSize < PB ∨ ∀ k < i + left, bad (r.start + k) = false) :
    ∃ t, compareBlocks p r i left s = (true,t) ∧ Recorded bad (r.start + i + left) t ∧
      SamePlace s t := by
  induction left generalizing i s with
  | zero => exact ⟨s,rfl,hs,rfl,rfl,rfl,rfl,rfl⟩
  | succ left ih =>
    set seen : State σ := { s with compares := s.compares ++ [⟨r,i⟩] }
    have hseen : Recorded bad (r.start + i) seen :=
      ⟨hs.list,hs.count,hs.corruptionErrors,hs.readErrors,hs.writeErrors⟩
    have hrange : r.start + i + (left + 1) = r.start + (i + 1) + left := by omega
    have hhere := hsame i le_rfl (by omega)
    rw [compareBlocks,hrange]
    cases hbad : bad (r.start + i) with
    | false =>
      rw [hbad,Bool.not_false] at hhere
      obtain ⟨t,ht,hrec,hplace⟩ := ih (i := i + 1) (s := seen) hcur (hseen.skip hbad)
        (fun k h1 h2 => hsame k (by omega) (by omega))
        (hPB.imp_right fun h k hk => h k (by omega))
      refine ⟨t,?_,hrec,hplace.dev,hplace.buffer,hplace.current,hplace.tryout,hplace.recover⟩
      simpa only [hhere,if_true] using ht
    | true =>
      rw [hbad,Bool.not_true] at hhere
      have hsmall : s.currentlyTesting * p.blockSize < PB := by
        refine hPB.resolve_right fun h => ?_
        rw [h i (by omega)] at hbad
        cases hbad
      have hblock : s.currentlyTesting + i - r.got = r.start + i := by omega
      obtain ⟨hrec',hplace'⟩ := hseen.bbOutput hbad
      obtain ⟨t,ht,hrec,hplace⟩ := ih (i := i + 1) (s := BadBlocks.bbOutput (r.start + i) .corruption seen)
        (hplace'.current.trans hcur) hrec'
        (fun k h1 h2 => by rw [hplace'.buffer]; exact hsame k (by omega) (by omega))
        (Or.inl (by rw [hplace'.current]; exact hsmall))
      have hall := hplace'.trans hplace
      refine ⟨t,?_,hrec,hall.dev,hall.buffer,hall.current,hall.tryout,hall.recover⟩
      simpa only [hhere,Bool.false_eq_true,if_false,if_pos hsmall,hblock] using ht

end compare

section verifying
variable {cell : ℕ → ℕ} (d : StoresThrough h p.blockSize cell) {pattern : ℕ} {bad : ℕ → Bool}

/-- The blocks whose cell a later block has taken. -/
def Overwritten (p : Params) (cell : ℕ → ℕ) (bad : ℕ → Bool) : Prop :=
  ∀ b < p.lastBlock, bad b = true ↔ ∃ b', b < b' ∧ b' < p.lastBlock ∧ cell b' = cell b

/-- The last block of every cell is stored. -/
def LastStored (pattern : ℕ) (s : σ) : Prop :=
  ∀ b < p.lastBlock, (∀ b', b < b' → b' < p.lastBlock → cell b' ≠ cell b) →
    ∀ j < p.blockSize, d.stored s (cell b) j = content p pattern b j

/-- The last block that has the cell of a given one. -/
theorem exists_last (cell : ℕ → ℕ) {b last : ℕ} (hb : b < last) :
    ∃ b', b ≤ b' ∧ b' < last ∧ cell b' = cell b ∧ ∀ b'', b' < b'' → b'' < last → cell b'' ≠ cell b := by
  set m := Nat.findGreatest (fun x => cell x = cell b) (last - 1)
  have hle : b ≤ last - 1 := by omega
  have hcell : cell m = cell b := Nat.findGreatest_spec (P := fun x => cell x = cell b) hle rfl
  refine ⟨m,Nat.le_findGreatest hle rfl,?_,hcell,fun b'' h1 h2 h3 => ?_⟩
  · have : m ≤ last - 1 := Nat.findGreatest_le (last - 1)
    omega
  · exact Nat.findGreatest_is_greatest h1 (by omega) h3

/-- A block reads back as it was written exactly when its cell was not taken. -/
theorem stored_eq_content_iff (hfakes : p.detectFakes = true) (hbad : Overwritten p cell bad)
    {s : σ} (hs : LastStored d pattern s) {b : ℕ} (hb : b < p.lastBlock) :
    (∀ j < p.blockSize, d.stored s (cell b) j = content p pattern b j) ↔ bad b = false := by
  rw [← Bool.not_eq_true,hbad b hb]
  constructor
  · rintro hall ⟨b₁,hlt,hlast,hcell⟩
    obtain ⟨b₂,hle,hb₂,hcell₂,hnone⟩ := exists_last cell hlast
    obtain ⟨j,hj,hne⟩ := content_ne hfakes pattern hb hb₂ (by omega)
    refine hne ((hall j hj).symm.trans ?_)
    rw [← hcell,← hcell₂]
    exact hs b₂ hb₂ (fun b' h1 h2 => by rw [hcell₂]; exact hnone b' h1 h2) j hj
  · intro hnone
    exact hs b hb fun b' h1 h2 h3 => hnone ⟨b',h1,h2,h3⟩

structure VerifyFakeInv (pattern : ℕ) (bad : ℕ → Bool) (s : State σ) : Prop where
  whole : Whole p s
  recorded : Recorded bad s.currentlyTesting s
  filled : FilledWith p 0 pattern s
  stored : LastStored d pattern s.dev

/-- When the size limit is reached, too many blocks have been recorded before. -/
theorem below_limit (hp : Called p) (hdown : ∀ b b', b ≤ b' → bad b' = true → bad b = true) {s : State σ}
    (hs : Recorded bad s.currentlyTesting s) (hcount : s.bbCount < maxBb)
    (hlt : s.currentlyTesting < p.lastBlock) :
    (s.currentlyTesting + request p s.currentlyTesting) * p.blockSize < PB ∨
      ∀ k < request p s.currentlyTesting, bad (s.currentlyTesting + k) = false := by
  obtain ⟨-,hfit,hle,-⟩ := request_spec hlt
  by_contra hnot
  push Not at hnot
  obtain ⟨hbig,k,hk,hbad⟩ := hnot
  rw [Bool.ne_false_iff] at hbad
  have hall : (List.range s.currentlyTesting).filter bad = List.range s.currentlyTesting := by
    refine List.filter_eq_self.mpr fun b hb => hdown b _ ?_ hbad
    rw [List.mem_range] at hb
    omega
  have hlen := hs.count
  rw [hall,List.length_range] at hlen
  rw [hp.size,PB] at hbig
  rw [hp.atOnce] at hle
  rw [maxBb] at hcount
  omega

/-- The comparison of a block that has been read back. -/
theorem VerifyFakeInv.sameBlock_eq (hfakes : p.detectFakes = true) (hbad : Overwritten p cell bad)
    {s : State σ} (hs : VerifyFakeInv d pattern bad s) (hlt : s.currentlyTesting < p.lastBlock)
    {data : ℕ → UInt8} {k : ℕ} (hk : k < request p s.currentlyTesting)
    (hdata : ∀ j < p.blockSize,
      data (k * p.blockSize + j) = d.stored s.dev (cell (s.currentlyTesting + k)) j) :
    sameBlock p data (markBuffer p 0 s.currentlyTesting s.buffer) k = !bad (s.currentlyTesting + k) := by
  obtain ⟨-,hfit,hle,-⟩ := request_spec hlt
  have hcontent := stored_eq_content_iff d hfakes hbad hs.stored
    (show s.currentlyTesting + k < p.lastBlock by omega)
  have hiff : sameBlock p data (markBuffer p 0 s.currentlyTesting s.buffer) k = true ↔
      bad (s.currentlyTesting + k) = false := by
    rw [sameBlock_iff,← hcontent]
    refine forall₂_congr fun j hj => ?_
    have hexpected : markBuffer p 0 s.currentlyTesting s.buffer (k * p.blockSize + j) =
        content p pattern (s.currentlyTesting + k) j := by
      rw [content_of_request (hs.whole.next hlt).2 (hk.trans_le hle),← hs.filled]
    rw [hdata j hj,hexpected]
  cases hb : bad (s.currentlyTesting + k) with
  | false =>
    rw [hiff.mpr hb]
    rfl
  | true =>
    rw [Bool.not_true,← Bool.not_eq_true,hiff,hb]
    simp

theorem VerifyFakeInv.go (hp : Called p) (hfakes : p.detectFakes = true)
    (hsize : p.lastBlock * p.blockSize ≤ PB) (hbad : Overwritten p cell bad)
    (hdown : ∀ b b', b ≤ b' → bad b' = true → bad b = true) {s : State σ}
    (hs : VerifyFakeInv d pattern bad s) (hcount : s.bbCount < maxBb)
    (hlt : s.currentlyTesting < p.lastBlock) :
    ∃ t, readStep h p 0 s = .inl t ∧ VerifyFakeInv d pattern bad t ∧
      t.currentlyTesting ≤ p.lastBlock ∧ s.currentlyTesting < t.currentlyTesting := by
  obtain ⟨hpos,hfit,hle,-⟩ := request_spec hlt
  have hend := lastBlock_lt hp hsize
  set n := request p s.currentlyTesting with hn
  obtain ⟨hgot,hkept,hdata⟩ := doRead_stored d s.currentlyTesting (h.cancelled s.dev).2
    (request_bytes hp hlt)
  rw [← hn] at hgot hkept hdata
  set read := doRead h p n s.currentlyTesting (h.cancelled s.dev).2
  set r : Read := ⟨s.currentlyTesting,n,n,read.1.2,s.bbList.list⟩
  set s₀ : State σ := { s with
    tryout := n
    buffer := markBuffer p 0 s.currentlyTesting s.buffer
    dev := read.2
    reads := s.reads ++ [r] }
  set s' : State σ := { s₀ with currentlyTesting := s.currentlyTesting + n }
  have hstored : d.stored read.2 = d.stored s.dev := hkept.trans (d.cancelled s.dev).2
  have hstep : readStep h p 0 s =
      if n ≠ n then .inl (advance p n (record .read n s₀))
      else if (compareBlocks p r 0 n (advance p n (record .read n s₀))).1 = true then
        .inl (compareBlocks p r 0 n (advance p n (record .read n s₀))).2
      else .inr (.aborted,(compareBlocks p r 0 n (advance p n (record .read n s₀))).2) := by
    simp only [readStep,guard_go d hlt hcount (hs.whole.next hlt).1,← hn]
    rw [hgot]
  have hadvance : advance p n (record .read n s₀) = s' :=
    advance_whole .read hpos rfl hs.whole.recover (hfit.trans_lt hend)
  rw [hadvance,if_neg (not_not.mpr rfl)] at hstep
  have hsame : ∀ k, 0 ≤ k → k < 0 + n → sameBlock p r.data s'.buffer k = !bad (r.start + k) := by
    intro k _ hk
    refine hs.sameBlock_eq d hfakes hbad hlt (by omega) fun j hj => ?_
    rw [← (d.cancelled s.dev).2]
    exact hdata k (by omega) j hj
  obtain ⟨t,ht,hrec,hplace⟩ : ∃ t, compareBlocks p r 0 n s' = (true,t) ∧
      Recorded bad (r.start + 0 + n) t ∧ SamePlace s' t := compareBlocks_recorded r rfl
    (by simpa using ⟨hs.recorded.list,hs.recorded.count,hs.recorded.corruptionErrors,
      hs.recorded.readErrors,hs.recorded.writeErrors⟩) hsame
    (by simpa using below_limit hp hdown hs.recorded hcount hlt)
  rw [ht,if_pos rfl] at hstep
  have hcur : t.currentlyTesting = s.currentlyTesting + n := hplace.current
  refine ⟨t,hstep,⟨?_,?_,fun start => ?_,?_⟩,by omega,by omega⟩
  · exact hs.whole.go hlt hcur hplace.tryout (hplace.recover.trans hs.whole.recover)
  · rw [hcur]
    exact hrec
  · rw [hplace.buffer]
    exact (markBuffer_markBuffer 0 _ start s.buffer).trans (hs.filled start)
  · rw [hplace.dev]
    intro b hb hnone j hj
    rw [hstored]
    exact hs.stored b hb hnone j hj

/-- What the first pass leaves: all blocks that satisfy bad are recorded, or the first of
them up to the limit at which the test gives up; every one as a corruption. -/
structure Detected (p : Params) (bad : ℕ → Bool) (e : Exit) (t : State σ) : Prop where
  listed : e = .finished ∧ t.bbList.list = (List.range p.lastBlock).filter bad ∨
    e = .aborted ∧ maxBb ≤ t.bbCount ∧ t.bbList.list <+: (List.range p.lastBlock).filter bad
  count : t.bbCount = t.bbList.list.length
  corruptionErrors : t.numCorruptionErrors = t.bbCount
  readErrors : t.numReadErrors = 0
  writeErrors : t.numWriteErrors = 0

theorem Recorded.detected {n : ℕ} {e : Exit} {t : State σ} (ht : Recorded bad n t)
    (hle : n ≤ p.lastBlock) (he : e = .finished ∧ n = p.lastBlock ∨ e = .aborted ∧ maxBb ≤ t.bbCount) :
    Detected p bad e t := by
  refine ⟨?_,by rw [ht.count,ht.list],ht.corruptionErrors,ht.readErrors,ht.writeErrors⟩
  rcases he with ⟨rfl,rfl⟩ | ⟨rfl,hcount⟩
  · exact Or.inl ⟨rfl,ht.list⟩
  · refine Or.inr ⟨rfl,hcount,?_⟩
    obtain ⟨m,hm⟩ := Nat.exists_eq_add_of_le hle
    rw [ht.list,hm,List.range_add,List.filter_append]
    exact List.prefix_append _ _

theorem readLoop_detects (hp : Called p) (hfakes : p.detectFakes = true)
    (hsize : p.lastBlock * p.blockSize ≤ PB) (hbad : Overwritten p cell bad)
    (hdown : ∀ b b', b ≤ b' → bad b' = true → bad b = true) {s : State σ}
    (hs : VerifyFakeInv d pattern bad s) :
    ∃ e t, Loop.run (readStep h p 0) (fuel p) s = some (e,t) ∧ Detected p bad e t := by
  have hgo : ∀ t t', VerifyFakeInv d pattern bad t → readStep h p 0 t = .inl t' →
      VerifyFakeInv d pattern bad t' ∧ t'.currentlyTesting ≤ p.lastBlock ∧
        t.currentlyTesting < t'.currentlyTesting := by
    intro t t' ht hstep
    have hlt : t.currentlyTesting < p.lastBlock := by
      by_contra hge
      simp [readStep,guard,hge] at hstep
    have hcount : t.bbCount < maxBb := by
      by_contra hge
      simp [readStep,guard_abort d hlt (Nat.le_of_not_lt hge)] at hstep
    obtain ⟨u,hu,hrest⟩ := ht.go d hp hfakes hsize hbad hdown hcount hlt
    rw [hu,Sum.inl.injEq] at hstep
    exact hstep ▸ hrest
  have hfuel : p.lastBlock - s.currentlyTesting < fuel p := by
    rw [fuel]
    omega
  obtain ⟨⟨e,t⟩,hrun⟩ := Loop.run_terminates (I := VerifyFakeInv d pattern bad)
    (fun t : State σ => p.lastBlock - t.currentlyTesting) (fun t t' ht hstep => by
      obtain ⟨ht',hle,hlt⟩ := hgo t t' ht hstep
      exact ⟨ht',by show _ < _; omega⟩) hs hfuel
  refine ⟨e,t,hrun,Loop.run_rule (I := VerifyFakeInv d pattern bad)
    (Q := fun e : Exit × State σ => Detected p bad e.1 e.2)
    (fun t t' ht hstep => (hgo t t' ht hstep).1) ?_ hs hrun⟩
  intro t e ht hstep
  by_cases hlt : t.currentlyTesting < p.lastBlock
  · by_cases hcount : t.bbCount < maxBb
    · obtain ⟨u,hu,-⟩ := ht.go d hp hfakes hsize hbad hdown hcount hlt
      rw [hu] at hstep
      cases hstep
    · simp only [readStep,guard_abort d hlt (Nat.le_of_not_lt hcount),Sum.inr.injEq] at hstep
      subst hstep
      have hrec : Recorded bad t.currentlyTesting { t with dev := (h.cancelled t.dev).2 } :=
        ⟨ht.recorded.list,ht.recorded.count,ht.recorded.corruptionErrors,ht.recorded.readErrors,
          ht.recorded.writeErrors⟩
      exact hrec.detected ht.whole.le (Or.inr ⟨rfl,Nat.le_of_not_lt hcount⟩)
  · simp only [readStep,guard,if_neg hlt,Sum.inr.injEq] at hstep
    subst hstep
    have hle := ht.whole.le
    exact ht.recorded.detected hle (Or.inl ⟨rfl,by omega⟩)

include d in
/-- The first pass, for a device with any cells. -/
theorem pass_detects (hp : Called p) (hfakes : p.detectFakes = true)
    (hsize : p.lastBlock * p.blockSize ≤ PB) (hbad : Overwritten p cell bad)
    (hdown : ∀ b b', b ≤ b' → bad b' = true → bad b = true) (pattern : ℕ) {s : State σ}
    (hs : Fresh s) : ∃ e t, pass h p 0 pattern s = some (e,t) ∧ Detected p bad e t := by
  set start : State σ := { s with
    dev := (h.cancelled s.dev).2
    buffer := patternFill p 0 pattern
    currentlyTesting := p.firstBlock
    tryout := p.blocksAtOnce } with hstart
  have hfirst : start.currentlyTesting = 0 := hp.first
  have hinit : WriteInv d pattern start := by
    refine ⟨⟨by omega,hs.recover,fun _ => ⟨rfl,by rw [hfirst,Nat.zero_mod]⟩⟩,?_,fun _ => rfl,?_⟩
    · exact ⟨hs.list,hs.count,hs.readErrors,hs.writeErrors,hs.corruptionErrors,hs.recover⟩
    · intro b hb
      omega
  obtain ⟨w,hw,hinv,hend⟩ := writeLoop_stores d hp hsize hinit
  set verify : State σ := { w with
    currentlyTesting := p.firstBlock
    tryout := p.blocksAtOnce
    reads := []
    compares := [] } with hverify
  have hfirst' : verify.currentlyTesting = 0 := hp.first
  have hread : VerifyFakeInv d pattern bad verify := by
    refine ⟨⟨by omega,hinv.fresh.recover,fun _ => ⟨rfl,by rw [hfirst',Nat.zero_mod]⟩⟩,?_,hinv.filled,?_⟩
    · rw [hfirst']
      exact ⟨hinv.fresh.list,hinv.fresh.count,
        hinv.fresh.corruptionErrors.trans hinv.fresh.count.symm,hinv.fresh.readErrors,
        hinv.fresh.writeErrors⟩
    · rw [LastStored,← hend]
      exact hinv.stored
  obtain ⟨e,t,ht,hdetected⟩ := readLoop_detects d hp hfakes hsize hbad hdown hread
  simp only [pass,(d.cancelled s.dev).1,Bool.false_eq_true,if_false,← hstart,hw,← hverify,ht]
  cases e with
  | finished =>
    exact ⟨_,_,rfl,hdetected.listed,hdetected.count,hdetected.corruptionErrors,
      hdetected.readErrors,hdetected.writeErrors⟩
  | cancelled => exact ⟨_,_,rfl,hdetected⟩
  | aborted => exact ⟨_,_,rfl,hdetected⟩

end verifying

theorem overwritten_mod {c : ℕ} (hc : 0 < c) :
    Overwritten p (· % c) fun b => decide (b + c < p.lastBlock) := by
  intro b _
  rw [decide_eq_true_iff]
  constructor
  · intro h
    exact ⟨b + c,by omega,h,Nat.add_mod_right b c⟩
  · rintro ⟨b',hlt,hlast,hmod⟩
    have hdvd : c ∣ b' - b := (Nat.modEq_iff_dvd' hlt.le).mp hmod.symm
    have := Nat.le_of_dvd (by omega) hdvd
    omega

theorem overwritten_id : Overwritten p id fun _ => false := by
  intro b _
  simp only [Bool.false_eq_true,id_eq,false_iff]
  rintro ⟨b',hlt,-,heq⟩
  omega

/-- What the test does after its first pass. -/
theorem testRw_first {table : List (List ℕ)} {patternType nbPasses : ℤ} {pattern : ℕ}
    {rest : List ℕ} (htype : 0 ≤ patternType ∧ patternType < table.length)
    (hpasses : 1 ≤ nbPasses ∧ nbPasses ≤ badblockPatternCount)
    (hrow : table.getD patternType.toNat [] = pattern :: rest)
    (hfirst : p.firstBlock * p.blockSize ≤ PB) (hsize : p.lastBlock * p.blockSize ≤ PB)
    {s : State σ} {e : Exit} {t : State σ}
    (ht : pass h p 0 pattern { s with passes := [] } = some (e,t)) :
    testRw h p table patternType nbPasses s =
      if e = .finished then runPasses h p 1 (rest.take (nbPasses.toNat - 1)) t else some t := by
  have hnum : nbPasses.toNat = nbPasses.toNat - 1 + 1 := by omega
  have h1 : ¬ (patternType < 0 ∨ (table.length : ℤ) ≤ patternType) := by omega
  have h2 : ¬ (nbPasses < 1 ∨ (badblockPatternCount : ℤ) < nbPasses) := by omega
  have h3 : ¬ (PB < p.firstBlock * p.blockSize ∨ PB < p.lastBlock * p.blockSize) := by omega
  simp only [testRw,if_neg h1,if_neg h2,if_neg h3,hrow]
  rw [hnum,List.take_succ_cons,runPasses,ht]
  cases e <;> rfl

/-- On a device with c cells the first pass records exactly the blocks whose cell was taken
by a later one; on a genuine device it records none. -/
theorem testRw_detects_fakes (hp : Called p) (hfakes : p.detectFakes = true)
    (hsize : p.lastBlock * p.blockSize ≤ PB) {table : List (List ℕ)} {patternType nbPasses : ℤ}
    {pattern : ℕ} {rest : List ℕ} (htype : 0 ≤ patternType ∧ patternType < table.length)
    (hpasses : 1 ≤ nbPasses ∧ nbPasses ≤ badblockPatternCount)
    (hrow : table.getD patternType.toNat [] = pattern :: rest) {s : State σ} (hs : Fresh s) :
    (∀ c, 0 < c → c < p.lastBlock → StoresThrough h p.blockSize (· % c) →
      ∃ e t, pass h p 0 pattern { s with passes := [] } = some (e,t) ∧
        Detected p (fun b => decide (b + c < p.lastBlock)) e t ∧
        testRw h p table patternType nbPasses s =
          if e = .finished then runPasses h p 1 (rest.take (nbPasses.toNat - 1)) t else some t) ∧
    (StoresThrough h p.blockSize id →
      ∃ e t, pass h p 0 pattern { s with passes := [] } = some (e,t) ∧
        Detected p (fun _ => false) e t ∧
        testRw h p table patternType nbPasses s =
          if e = .finished then runPasses h p 1 (rest.take (nbPasses.toNat - 1)) t else some t) := by
  have hs' : Fresh { s with passes := [] } :=
    ⟨hs.list,hs.count,hs.readErrors,hs.writeErrors,hs.corruptionErrors,hs.recover⟩
  have hfirst : p.firstBlock * p.blockSize ≤ PB := by
    rw [hp.first,Nat.zero_mul]
    exact Nat.zero_le _
  constructor
  · intro c hc _ d
    obtain ⟨e,t,ht,hdetected⟩ := pass_detects d hp hfakes hsize (overwritten_mod hc)
      (fun b b' hle hbad => by rw [decide_eq_true_iff] at hbad ⊢; omega) pattern hs'
    exact ⟨e,t,ht,hdetected,testRw_first htype hpasses hrow hfirst hsize ht⟩
  · intro d
    obtain ⟨e,t,ht,hdetected⟩ := pass_detects d hp hfakes hsize overwritten_id
      (fun b b' _ hbad => hbad) pattern hs'
    exact ⟨e,t,ht,hdetected,testRw_first htype hpasses hrow hfirst hsize ht⟩

def threeBlocks : Params where
  firstBlock := 0
  lastBlock := 3
  blockSize := 512 * 1024
  blocksAtOnce := 64
  detectFakes := true
  largeDrive := false
  idOffset := 100
  random _ _ := 0
  atOnce_pos := Nat.succ_pos 63
  idOffset_le := by decide
  first_lt := by decide
  last_lt := by decide

def blankCells : State Cells := { blankState with dev := ⟨0,fun _ _ => 0⟩ }

/-- Two cells for three blocks: the first block is recorded. -/
theorem testRw_detects_two_cells :
    Called threeBlocks ∧ Fresh blankCells ∧
      ∃ e t, pass (cellDrive (512 * 1024) (· % 2)) threeBlocks 0 0x55 blankCells = some (e,t) ∧
        Detected threeBlocks (fun b => decide (b + 2 < 3)) e t := by
  have hp : Called threeBlocks := ⟨rfl,rfl,rfl⟩
  have hs : Fresh blankCells := ⟨rfl,rfl,rfl,rfl,rfl,rfl⟩
  have htype : (0 : ℤ) ≤ 0 ∧ 0 < (badblockPatterns.length : ℤ) := by decide
  have hpasses : (1 : ℤ) ≤ 1 ∧ (1 : ℤ) ≤ badblockPatternCount := by decide
  have hrow : badblockPatterns.getD (0 : ℤ).toNat [] = 0x55 :: [0x00,0x00,0x00] := rfl
  obtain ⟨e,t,ht,hdetected,-⟩ := (testRw_detects_fakes (h := cellDrive (512 * 1024) (· % 2)) hp rfl
    (by decide) htype hpasses hrow hs).1 2 (by decide) (by decide) (cellDrive_storesThrough (by decide))
  exact ⟨hp,hs,e,t,ht,hdetected⟩

end SecureWipeOut.BadBlocks
