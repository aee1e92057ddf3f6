import SecureWipeOut.Drive.BadBlocksCoverage
import SecureWipeOut.Drive.BadBlockListExact

/-! # The accounts of the bad block test

The drive is watched through its file pointer: every transfer asked of it is kept with
its place and size. Whatever the drive answers, the transfers stay inside the range of the
test, and every block that is counted joins the list with its first count.
-/
namespace SecureWipeOut.BadBlocks
open Sectors BadBlockList

structure Request where
  offset : ℕ
  size : ℕ

/-- A drive with the place of its file pointer and the transfers asked of it so far. -/
structure Watched (σ : Type*) where
  dev : σ
  pointer : ℕ
  requests : List Request

variable {σ : Type*}

/-- The drive answers as it likes, but its file pointer is where it was put. -/
def watch (h : Handle σ) : Handle (Watched σ) where
  getFilePointer w :=
    let a := h.getFilePointer w.dev
    (if a.1.isNone then none else some w.pointer,{ w with dev := a.2 })
  setFilePointerEx n w :=
    let a := h.setFilePointerEx n w.dev
    (a.1,{ w with dev := a.2, pointer := if a.1 then n else w.pointer })
  readFile size w :=
    let a := h.readFile size w.dev
    (a.1,⟨a.2,w.pointer + a.1.count,w.requests ++ [⟨w.pointer,size⟩]⟩)
  writeFile buf size w :=
    let a := h.writeFile buf size w.dev
    (a.1,⟨a.2,w.pointer + a.1.count,w.requests ++ [⟨w.pointer,size⟩]⟩)
  cancelled w :=
    let a := h.cancelled w.dev
    (a.1,{ w with dev := a.2 })
  read_le size w := h.read_le size w.dev
  write_le buf size w := h.write_le buf size w.dev

section Requests
variable (h : Handle σ)

/-- All attempts of a write are made at the same place. -/
theorem writeTries_requests (largeDrive : Bool) (buf : ℕ → UInt8) (n o : ℕ) {start : Option ℕ}
    (hstart : ∀ a ∈ start, a = o) (left : ℕ) {first : Bool} (written : ℕ) {w : Watched σ}
    (hfirst : if first then w.pointer = o else start.isSome) :
    ∀ r ∈ (writeTries (watch h) largeDrive buf n start left first written w).2.requests,
      r ∈ w.requests ∨ r = ⟨o,n⟩ := by
  induction left generalizing first written w with
  | zero => exact fun r hr => Or.inl hr
  | succ left ih =>
    set rewound := if first then (true,w) else (watch h).setFilePointerEx (start.getD 0) w with hrewound
    have hkept : rewound.2.requests = w.requests := by
      rw [hrewound]
      split <;> rfl
    have hplace : rewound.1 = true → rewound.2.pointer = o := by
      intro hok
      cases first with
      | true => exact hfirst
      | false =>
        obtain ⟨a,ha⟩ := Option.isSome_iff_exists.mp hfirst
        have hseek : rewound = (watch h).setFilePointerEx a w := by
          rw [hrewound,ha]
          rfl
        rw [hseek] at hok ⊢
        have : (h.setFilePointerEx a w.dev).1 = true := hok
        simp only [watch,this,if_true]
        exact hstart a ha
    unfold writeTries
    rw [← hrewound]
    dsimp only
    split
    · intro r hr
      rw [hkept] at hr
      exact Or.inl hr
    case isFalse hok =>
      have hpointer := hplace (by simpa using hok)
      have hnew : ((watch h).writeFile buf n rewound.2).2.requests = w.requests ++ [⟨o,n⟩] := by
        rw [← hkept,← hpointer]
        rfl
      have hmem : ∀ r ∈ ((watch h).writeFile buf n rewound.2).2.requests,
          r ∈ w.requests ∨ r = ⟨o,n⟩ := by
        intro r hr
        rw [hnew,List.mem_append,List.mem_singleton] at hr
        exact hr
      split
      · exact hmem
      · split
        · exact hmem
        case isFalse hsome =>
          intro r hr
          have hsome' : start.isSome := Option.isSome_iff_ne_none.mpr (by simpa using hsome)
          have hagain := @ih false ((watch h).writeFile buf n rewound.2).1.count
            ((watch h).writeFile buf n rewound.2).2 hsome'
          exact (hagain r hr).elim (hmem r) Or.inr

theorem writeSectors_requests (largeDrive : Bool) (ss b n : ℕ) (buf : ℕ → UInt8) (w : Watched σ) :
    ∀ r ∈ (writeSectors (watch h) largeDrive ss b n buf w).2.requests,
      r ∈ w.requests ∨ r = ⟨b * ss,n * ss⟩ := by
  have hseek : ((watch h).setFilePointerEx (b * ss) w).2.requests = w.requests := rfl
  unfold writeSectors
  dsimp only
  split
  · exact fun r hr => Or.inl hr
  · split
    · exact fun r hr => Or.inl hr
    case isFalse hok =>
      set w' := ((watch h).setFilePointerEx (b * ss) w).2
      have hpointer : w'.pointer = b * ss := by
        have : (h.setFilePointerEx (b * ss) w.dev).1 = true := by simpa [watch] using hok
        simp [w',watch,this]
      have hall : ∀ r ∈ (writeFileWithRetry (watch h) largeDrive buf (n * ss) writeRetries w').2.requests,
          r ∈ w.requests ∨ r = ⟨b * ss,n * ss⟩ := by
        unfold writeFileWithRetry
        refine writeTries_requests h largeDrive buf (n * ss) (b * ss) ?_ _ _ ?_
        · intro a ha
          simp only [watch] at ha
          split at ha
          · cases ha
          · rw [← Option.some.inj ha]
            exact hpointer
        · exact hpointer
      split
      · exact hall
      · split
        · split <;> exact hall
        · exact hall

theorem readSectors_requests (ss b n : ℕ) (w : Watched σ) :
    ∀ r ∈ (readSectors (watch h) ss b n w).2.requests, r ∈ w.requests ∨ r = ⟨b * ss,n * ss⟩ := by
  unfold readSectors
  dsimp only
  split
  · exact fun r hr => Or.inl hr
  · split
    · exact fun r hr => Or.inl hr
    case isFalse hok =>
      have hok' : (h.setFilePointerEx (b * ss) w.dev).1 = true := by simpa [watch] using hok
      intro r hr
      have hr' : r ∈ w.requests ++ [⟨b * ss,n * ss⟩] := by
        simpa [watch,hok'] using hr
      rw [List.mem_append,List.mem_singleton] at hr'
      exact hr'

/-- No transfer has more than 32 bits of bytes. -/
theorem doRead_small {h : Handle σ} {p : Params} (tryout block : ℕ) (dev : σ) :
    (doRead h p tryout block dev).1.1 < 2 ^ 30 := by
  have hle := readSectors_le h p.blockSize block tryout dev
  have hsmall : (readSectors h p.blockSize block tryout dev).1.1 ≤ 0xFFFFFFFF := by
    unfold readSectors at hle ⊢
    dsimp only at hle ⊢
    split
    · norm_num
    case isFalse hsize =>
      split
      · norm_num
      · have := h.read_le (tryout * p.blockSize) (h.setFilePointerEx (block * p.blockSize) dev).2
        dsimp only
        omega
  have hblock : 8 ≤ p.blockSize := le_trans (Nat.le_add_left _ _) p.idOffset_le
  have hdiv : blocksOf p (readSectors h p.blockSize block tryout dev).1.1 ≤ 0xFFFFFFFF / 8 :=
    (Nat.div_le_div_right (by omega)).trans (Nat.div_le_div_left hblock (by decide))
  exact lt_of_le_of_lt hdiv (by norm_num)

end Requests

section Accounts
variable {h : Handle σ} {p : Params}

def Request.Inside (p : Params) (r : Request) : Prop :=
  ∃ block n, r = ⟨block * p.blockSize,n * p.blockSize⟩ ∧ p.firstBlock ≤ block ∧ block + n ≤ p.lastBlock

/-- The counters agree with each other and with the list, whose blocks are in the range. -/
structure Accounted (p : Params) (s : State (Watched σ)) : Prop where
  ascending : s.bbList.list.Pairwise (· < ·)
  total : s.bbCount = s.numReadErrors + s.numWriteErrors + s.numCorruptionErrors
  listed : s.bbCount = s.bbList.list.length
  inRange : ∀ b ∈ s.bbList.list, p.firstBlock ≤ b ∧ b < p.lastBlock
  requests : ∀ r ∈ s.dev.requests, r.Inside p

/-- Everything but the counters, the list and the transfers may change. -/
theorem Accounted.of_eq {s t : State (Watched σ)} (hs : Accounted p s) (hlist : t.bbList = s.bbList)
    (hcount : t.bbCount = s.bbCount) (hr : t.numReadErrors = s.numReadErrors)
    (hw : t.numWriteErrors = s.numWriteErrors) (hc : t.numCorruptionErrors = s.numCorruptionErrors)
    (hreq : ∀ r ∈ t.dev.requests, r ∈ s.dev.requests ∨ r.Inside p) : Accounted p t where
  ascending := hlist ▸ hs.ascending
  total := by rw [hcount,hr,hw,hc]; exact hs.total
  listed := by rw [hcount,hlist]; exact hs.listed
  inRange := hlist ▸ hs.inRange
  requests := fun r hm => (hreq r hm).elim (hs.requests r) id

theorem length_add_of_not_mem {bb : U64List} {blk : ℕ} (hnew : blk ∉ bb.list) :
    (add bb blk).list.length = bb.list.length + 1 := by
  have hins : ∀ l : List ℕ, blk ∉ l → (insertBlock blk l).length = l.length + 1 := by
    intro l hl
    induction l with
    | nil => rfl
    | cons x xs ih =>
      obtain ⟨hx,hxs⟩ := not_or.mp (List.mem_cons.not.mp hl)
      unfold insertBlock
      rw [if_neg (Ne.symm hx)]
      split
      · rfl
      · rw [List.length_cons,ih hxs,List.length_cons]
  unfold add
  dsimp only
  cases hl : bb.list.getLast? with
  | none => rw [List.getLast?_eq_none_iff.mp hl]; rfl
  | some last =>
    dsimp only
    rw [if_neg fun he : last = blk => hnew (he ▸ List.mem_of_getLast? hl)]
    split
    · exact List.length_append
    · exact hins _ hnew

theorem Accounted.output {s : State (Watched σ)} (hs : Accounted p s) {bad : ℕ} (e : ErrorType)
    (hlo : p.firstBlock ≤ bad) (hhi : bad < p.lastBlock) : Accounted p (bbOutput bad e s) := by
  unfold bbOutput
  split
  · exact hs
  case isFalse htest =>
    have hnew : bad ∉ s.bbList.list := fun hm =>
      htest ((find_isSome_iff hs.ascending bad).mpr hm)
    have hasc := add_ascending hs.ascending bad
    have hlen := length_add_of_not_mem hnew
    have htotal := hs.total
    have hlisted := hs.listed
    have hrange : ∀ b ∈ (add s.bbList bad).list, p.firstBlock ≤ b ∧ b < p.lastBlock := by
      intro b hb
      rcases (mem_add s.bbList bad b).mp hb with rfl | hb
      · exact ⟨hlo,hhi⟩
      · exact hs.inRange b hb
    cases e <;> exact ⟨hasc,by dsimp only; omega,by dsimp only; omega,hrange,hs.requests⟩

theorem bbOutput_bbCount_le (bad : ℕ) (e : ErrorType) (s : State σ) :
    (bbOutput bad e s).bbCount ≤ s.bbCount + 1 := by
  unfold bbOutput
  split
  · exact Nat.le_succ _
  · cases e <;> exact le_rfl

theorem Accounted.record {s : State (Watched σ)} (hs : Accounted p s) (e : ErrorType) (got : ℕ)
    (hlo : p.firstBlock ≤ s.currentlyTesting) (hhi : s.currentlyTesting < p.lastBlock) :
    Accounted p (record e got s) := by
  unfold BadBlocks.record
  split
  · exact (hs.output e hlo hhi).of_eq rfl rfl rfl rfl rfl fun r hr => Or.inl hr
  · exact hs

theorem record_bbCount_le (e : ErrorType) (got : ℕ) (s : State σ) :
    (record e got s).bbCount ≤ s.bbCount + 1 := by
  unfold record
  split
  · exact bbOutput_bbCount_le _ _ _
  · exact Nat.le_succ _

theorem Accounted.advance {s : State (Watched σ)} (hs : Accounted p s) (got : ℕ) :
    Accounted p (advance p got s) := by
  unfold BadBlocks.advance
  dsimp only
  split
  · exact hs.of_eq rfl rfl rfl rfl rfl fun r hr => Or.inl hr
  · split <;> exact hs.of_eq rfl rfl rfl rfl rfl fun r hr => Or.inl hr

theorem advance_bbCount (got : ℕ) (s : State σ) : (advance p got s).bbCount = s.bbCount := by
  unfold advance
  dsimp only
  split
  · rfl
  · split <;> rfl

/-- The comparisons of a read record blocks of that read only. -/
theorem Accounted.compareBlocks {r : Read} {i left : ℕ} {s : State (Watched σ)} (hs : Accounted p s)
    (hcur : s.currentlyTesting = r.start + r.got) (hleft : i + left ≤ r.got)
    (hlo : p.firstBlock ≤ r.start) (hhi : r.start + r.got ≤ p.lastBlock) :
    Accounted p (compareBlocks p r i left s).2 := by
  induction left generalizing i s with
  | zero => exact hs
  | succ left ih =>
    unfold BadBlocks.compareBlocks
    dsimp only
    have hseen : Accounted p { s with compares := s.compares ++ [⟨r,i⟩] } :=
      hs.of_eq rfl rfl rfl rfl rfl fun r hr => Or.inl hr
    split
    · exact ih hseen hcur (by omega)
    · split
      · refine ih (hseen.output .corruption (by omega) (by omega)) ?_ (by omega)
        rw [bbOutput_currentlyTesting]
        exact hcur
      · exact hseen

theorem compareBlocks_bbCount_le (r : Read) (i left : ℕ) (s : State σ) :
    (compareBlocks p r i left s).2.bbCount ≤ s.bbCount + left := by
  induction left generalizing i s with
  | zero => exact le_rfl
  | succ left ih =>
    unfold compareBlocks
    dsimp only
    split
    · have := ih (i + 1) { s with compares := s.compares ++ [⟨r,i⟩] }
      dsimp only at this
      omega
    · split
      · have h1 := ih (i + 1) (bbOutput (s.currentlyTesting + i - r.got) .corruption
          { s with compares := s.compares ++ [⟨r,i⟩] })
        have h2 := bbOutput_bbCount_le (s.currentlyTesting + i - r.got) .corruption
          { s with compares := s.compares ++ [⟨r,i⟩] }
        dsimp only at h2
        omega
      · exact Nat.le_add_right _ _

end Accounts

section Runs
variable {h : Handle σ} {p : Params}

/-- The counters with their 32 bits. -/
structure Kept (p : Params) (s : State (Watched σ)) : Prop where
  accounted : Accounted p s
  small : s.bbCount < 2 ^ 32

structure Running (p : Params) (s : State (Watched σ)) : Prop extends Kept p s where
  tryout_pos : 0 < s.tryout
  first_le : p.firstBlock ≤ s.currentlyTesting

/-- A state from which a transfer is requested. -/
structure Requesting (p : Params) (s : State (Watched σ)) : Prop where
  accounted : Accounted p s
  tryout_pos : 0 < s.tryout
  first_le : p.firstBlock ≤ s.currentlyTesting
  fits : s.currentlyTesting + s.tryout ≤ p.lastBlock
  few : s.bbCount < maxBb

theorem Running.guard_inl {s g : State (Watched σ)} (hs : Running p s)
    (hg : guard (watch h) p s = .inl g) : Requesting p g := by
  obtain ⟨hlt,hpos,hfit,_,_,_,_,_⟩ := BadBlocks.guard_inl hg hs.tryout_pos
  unfold guard at hg
  rw [if_pos hlt] at hg
  dsimp only at hg
  split at hg
  · cases hg
  · split at hg
    · cases hg
    case isFalse hfew =>
      cases hg
      exact ⟨hs.accounted.of_eq rfl rfl rfl rfl rfl fun r hr => Or.inl hr,hpos,hs.first_le,hfit,
        not_le.mp hfew⟩

theorem Running.guard_inr {s : State (Watched σ)} {e : Exit × State (Watched σ)} (hs : Running p s)
    (hg : guard (watch h) p s = .inr e) : Kept p e.2 := by
  have hkept : ∀ d : Watched σ, d.requests = s.dev.requests → Kept p { s with dev := d } :=
    fun d hd => ⟨hs.accounted.of_eq rfl rfl rfl rfl rfl fun r hr => Or.inl (hd ▸ hr),hs.small⟩
  unfold guard at hg
  split at hg
  · dsimp only at hg
    split at hg
    · cases hg
      exact hkept _ rfl
    · split at hg
      · cases hg
        exact hkept _ rfl
      · cases hg
  · cases hg
    exact hs.toKept

/-- The bookkeeping after a transfer inside the range. -/
theorem Requesting.after {g t : State (Watched σ)} (hg : Requesting p g) (e : ErrorType) (got : ℕ)
    (ht : Accounted p t) (hcur : t.currentlyTesting = g.currentlyTesting) (htry : t.tryout = g.tryout)
    (hcount : t.bbCount = g.bbCount) :
    Accounted p (advance p got (record e got t)) ∧ 0 < (advance p got (record e got t)).tryout ∧
      p.firstBlock ≤ (advance p got (record e got t)).currentlyTesting ∧
      (advance p got (record e got t)).bbCount ≤ maxBb := by
  have hfirst := hg.first_le
  have hfits := hg.fits
  have hpos := hg.tryout_pos
  obtain ⟨_,hrt,_,hrc,_⟩ := record_spec e got t
  obtain ⟨_,_,_,hac,htry',_⟩ := advance_spec (p := p) got (record e got t) (by rw [hrt,htry]; exact hpos)
  refine ⟨(ht.record e got (by omega) (by omega)).advance got,htry',?_,?_⟩
  · rw [hac,hrc,hcur]
    omega
  · rw [advance_bbCount]
    have hle := record_bbCount_le e got t
    have hfew := hg.few
    omega

theorem Requesting.inside {g : State (Watched σ)} (hg : Requesting p g) {d : Watched σ}
    (hd : ∀ r ∈ d.requests, r ∈ g.dev.requests ∨
      r = ⟨g.currentlyTesting * p.blockSize,g.tryout * p.blockSize⟩) :
    ∀ r ∈ d.requests, r ∈ g.dev.requests ∨ r.Inside p := fun r hr =>
  (hd r hr).imp_right fun he => ⟨_,_,he,hg.first_le,hg.fits⟩

theorem Running.writeStep {patIdx : ℕ} {s : State (Watched σ)} (hs : Running p s) :
    (∀ s', writeStep (watch h) p patIdx s = .inl s' → Running p s') ∧
      ∀ e, writeStep (watch h) p patIdx s = .inr e → Kept p e.2 := by
  unfold BadBlocks.writeStep
  cases hg : guard (watch h) p s with
  | inr e =>
    refine ⟨fun s' hs' => ?_,fun e' he' => ?_⟩
    · cases hs'
    · cases he'
      exact hs.guard_inr hg
  | inl g =>
    refine ⟨fun s' hs' => ?_,fun e he => ?_⟩
    · cases hs'
      have hreq := hs.guard_inl hg
      set buffer := markBuffer p patIdx g.currentlyTesting g.buffer
      set w := doWrite (watch h) p buffer g.tryout g.currentlyTesting g.dev with hw
      have hdev := hreq.inside (d := w.2) (writeSectors_requests h _ _ _ _ _ _)
      obtain ⟨hacc,htry,hfirst,hcount⟩ := hreq.after (t := { g with buffer := buffer, dev := w.2 })
        .write w.1 (hreq.accounted.of_eq rfl rfl rfl rfl rfl hdev) rfl rfl rfl
      exact ⟨⟨hacc,lt_of_le_of_lt hcount (by decide)⟩,htry,hfirst⟩
    · cases he

/-- The bookkeeping after the read that is due. -/
theorem Requesting.afterRead {g : State (Watched σ)} (hg : Requesting p g) (patIdx : ℕ) {r : Read} {dev : Watched σ}
    (hr : nextRead (watch h) p g = (r,dev)) :
    Accounted p (afterRead p patIdx r dev g) ∧ 0 < (afterRead p patIdx r dev g).tryout ∧
      p.firstBlock ≤ (afterRead p patIdx r dev g).currentlyTesting ∧
      (afterRead p patIdx r dev g).bbCount ≤ maxBb := by
  obtain ⟨rfl,rfl⟩ := Prod.mk.inj hr
  set d := doRead (watch h) p g.tryout g.currentlyTesting g.dev
  have hdev := hg.inside (d := d.2) (readSectors_requests h _ _ _ _)
  exact hg.after (t := { g with
    buffer := markBuffer p patIdx g.currentlyTesting g.buffer
    dev := d.2
    reads := g.reads ++ [⟨g.currentlyTesting,g.tryout,d.1.1,d.1.2,g.bbList.list⟩] })
    .read d.1.1 (hg.accounted.of_eq rfl rfl rfl rfl rfl hdev) rfl rfl rfl

/-- The comparisons of a full read, with the place where the test goes on. -/
theorem Requesting.compared {g : State (Watched σ)} (hg : Requesting p g) (patIdx : ℕ) {r : Read} {dev : Watched σ}
    (hr : nextRead (watch h) p g = (r,dev)) (hfull : r.got = r.tryout) :
    Kept p (compareBlocks p r 0 r.got (BadBlocks.afterRead p patIdx r dev g)).2 ∧
      (BadBlocks.afterRead p patIdx r dev g).currentlyTesting = r.start + r.got := by
  obtain ⟨hacc,-,-,hcount⟩ := hg.afterRead patIdx hr
  obtain ⟨rfl,rfl⟩ := Prod.mk.inj hr
  set d := doRead (watch h) p g.tryout g.currentlyTesting g.dev
  set r : Read := ⟨g.currentlyTesting,g.tryout,d.1.1,d.1.2,g.bbList.list⟩
  have hgot : r.got ≤ g.tryout := doRead_le _ _ _
  have hsmall : r.got < 2 ^ 30 := doRead_small _ _ _
  have hfits := hg.fits
  have hpos := hg.tryout_pos
  obtain ⟨_,_,_,_,_,_,hend,_⟩ := afterRead_spec (p := p) (r := r) patIdx d.2 hpos hgot hfits
  have hone : ¬(r.got = 0 ∧ g.tryout = 1) := fun hz => by
    have : r.got = g.tryout := hfull
    omega
  have hcur : (BadBlocks.afterRead p patIdx r d.2 g).currentlyTesting = r.start + r.got := by
    rw [hend,if_neg hone]
    rfl
  refine ⟨⟨?_,?_⟩,hcur⟩
  · exact hacc.compareBlocks hcur (by omega) hg.first_le (le_trans (Nat.add_le_add_left hgot _) hfits)
  · have hle := compareBlocks_bbCount_le (p := p) r 0 r.got (BadBlocks.afterRead p patIdx r d.2 g)
    have hmax : maxBb = 256 := rfl
    omega

theorem Running.readStep {patIdx : ℕ} {s : State (Watched σ)} (hs : Running p s) :
    (∀ s', readStep (watch h) p patIdx s = .inl s' → Running p s') ∧
      ∀ e, readStep (watch h) p patIdx s = .inr e → Kept p e.2 := by
  cases hg : guard (watch h) p s with
  | inr e =>
    unfold BadBlocks.readStep
    rw [hg]
    refine ⟨fun s' hs' => ?_,fun e' he' => ?_⟩
    · cases hs'
    · cases he'
      exact hs.guard_inr hg
  | inl g =>
    have hreq := hs.guard_inl hg
    obtain ⟨r,dev,hr⟩ : ∃ r dev, nextRead (watch h) p g = (r,dev) := ⟨_,_,rfl⟩
    obtain ⟨hacc,htry,hfirst,hcount⟩ := hreq.afterRead patIdx hr
    rw [readStep_eq patIdx hg hr]
    by_cases hfull : r.got = r.tryout
    · obtain ⟨hkept,hcur⟩ := hreq.compared patIdx hr hfull
      rw [if_neg (not_not.mpr hfull)]
      split
      case isTrue hc =>
        refine ⟨fun s' hs' => ?_,fun e he => ?_⟩
        · cases hs'
          obtain ⟨_,hcur',htry',_⟩ := compareBlocks_spec r hcur (Prod.ext hc rfl)
          exact ⟨hkept,by rw [htry']; exact htry,by rw [hcur']; exact hfirst⟩
        · cases he
      case isFalse =>
        refine ⟨fun s' hs' => ?_,fun e he => ?_⟩
        · cases hs'
        · cases he
          exact hkept
    · rw [if_pos hfull]
      refine ⟨fun s' hs' => ?_,fun e he => ?_⟩
      · cases hs'
        exact ⟨⟨hacc,lt_of_le_of_lt hcount (by decide)⟩,htry,hfirst⟩
      · cases he

theorem Running.writeLoop {patIdx n : ℕ} {s : State (Watched σ)} {e : Exit × State (Watched σ)}
    (hs : Running p s) (he : Loop.run (BadBlocks.writeStep (watch h) p patIdx) n s = some e) : Kept p e.2 :=
  Loop.run_rule (fun _ t' ht hstep => (Running.writeStep ht).1 t' hstep)
    (fun _ e ht hexit => (Running.writeStep ht).2 e hexit) hs he

theorem Running.readLoop {patIdx n : ℕ} {s : State (Watched σ)} {e : Exit × State (Watched σ)}
    (hs : Running p s) (he : Loop.run (BadBlocks.readStep (watch h) p patIdx) n s = some e) : Kept p e.2 :=
  Loop.run_rule (fun _ t' ht hstep => (Running.readStep ht).1 t' hstep)
    (fun _ e ht hexit => (Running.readStep ht).2 e hexit) hs he

/-- Where both loops start. -/
theorem Kept.running {s t : State (Watched σ)} (hs : Kept p s) (hlist : t.bbList = s.bbList)
    (hcount : t.bbCount = s.bbCount) (hr : t.numReadErrors = s.numReadErrors)
    (hw : t.numWriteErrors = s.numWriteErrors) (hc : t.numCorruptionErrors = s.numCorruptionErrors)
    (hreq : t.dev.requests = s.dev.requests) (htry : t.tryout = p.blocksAtOnce)
    (hcur : t.currentlyTesting = p.firstBlock) : Running p t where
  accounted := hs.accounted.of_eq hlist hcount hr hw hc fun r hm => Or.inl (hreq ▸ hm)
  small := by rw [hcount]; exact hs.small
  tryout_pos := by rw [htry]; exact p.atOnce_pos
  first_le := hcur.ge

theorem Kept.pass {patIdx pattern : ℕ} {s : State (Watched σ)} {e : Exit × State (Watched σ)}
    (hs : Kept p s) (he : pass (watch h) p patIdx pattern s = some e) : Kept p e.2 := by
  unfold BadBlocks.pass at he
  dsimp only at he
  split at he
  · cases he
    exact ⟨hs.accounted.of_eq rfl rfl rfl rfl rfl fun r hr => Or.inl hr,hs.small⟩
  · split at he
    case h_1 w hw =>
      have hwrite : Kept p w := by
        refine Running.writeLoop ?_ hw
        exact hs.running rfl rfl rfl rfl rfl rfl rfl rfl
      split at he
      case h_1 r hr =>
        have hread : Kept p r := by
          refine Running.readLoop ?_ hr
          exact hwrite.running rfl rfl rfl rfl rfl rfl rfl rfl
        cases he
        exact ⟨hread.accounted.of_eq rfl rfl rfl rfl rfl fun r hr => Or.inl hr,hread.small⟩
      case h_2 =>
        refine Running.readLoop ?_ he
        exact hwrite.running rfl rfl rfl rfl rfl rfl rfl rfl
    case h_2 =>
      refine Running.writeLoop ?_ he
      exact hs.running rfl rfl rfl rfl rfl rfl rfl rfl

theorem Kept.runPasses {patterns : List ℕ} {patIdx : ℕ} {s t : State (Watched σ)} (hs : Kept p s)
    (ht : runPasses (watch h) p patIdx patterns s = some t) : Kept p t := by
  induction patterns generalizing patIdx s with
  | nil =>
    cases ht
    exact hs
  | cons pattern rest ih =>
    unfold BadBlocks.runPasses at ht
    split at ht
    · cases ht
    case h_2 u hu => exact ih (hs.pass hu) ht
    case h_3 u x _ hu =>
      cases ht
      exact hs.pass hu

theorem Kept.testRw {table : List (List ℕ)} {patternType nbPasses : ℤ} {s t : State (Watched σ)}
    (hs : Kept p s) (ht : testRw (watch h) p table patternType nbPasses s = some t) : Kept p t := by
  have hstart : Kept p { s with passes := [] } :=
    ⟨hs.accounted.of_eq rfl rfl rfl rfl rfl fun r hr => Or.inl hr,hs.small⟩
  unfold BadBlocks.testRw at ht
  dsimp only at ht
  split at ht
  · cases ht
    exact hstart
  · split at ht
    · cases ht
      exact hstart
    · split at ht
      · cases ht
        exact hstart
      · exact hstart.runPasses ht

/-- The state in which `BadBlocks` starts the test. -/
def initialState (dev : σ) : State σ where
  dev := dev
  bbList := create 0
  bbCount := 0
  numReadErrors := 0
  numWriteErrors := 0
  numCorruptionErrors := 0
  currentlyTesting := 0
  tryout := 0
  recoverBlock := noRecover
  buffer _ := 0
  reads := []
  compares := []
  passes := []

theorem kept_initialState (dev : σ) : Kept p (initialState ⟨dev,0,[]⟩) :=
  ⟨⟨List.Pairwise.nil,rfl,rfl,by simp [initialState,create],by simp [initialState]⟩,Nat.two_pow_pos 32⟩

end Runs

/-- The test ends whatever the drive answers, asks for blocks of its range only, and
returns a number of errors that is both the sum of the three kinds and the length of the
list, on which no block stands twice. -/
theorem testRw_accounting {σ : Type*} (h : Handle σ) (p : Params) (table : List (List ℕ))
    (patternType nbPasses : ℤ) (dev : σ) :
    ∃ t, testRw (watch h) p table patternType nbPasses (initialState ⟨dev,0,[]⟩) = some t ∧
      (∀ r ∈ t.dev.requests, r.Inside p) ∧
      t.bbCount = t.numReadErrors + t.numWriteErrors + t.numCorruptionErrors ∧
      t.bbCount = t.bbList.list.length ∧ t.bbCount < 2 ^ 32 ∧ t.bbList.list.Nodup ∧
      ∀ b ∈ t.bbList.list, p.firstBlock ≤ b ∧ b < p.lastBlock := by
  obtain ⟨t,ht,_⟩ := testRw_coverage (watch h) p table patternType nbPasses (initialState ⟨dev,0,[]⟩)
  have hk := (kept_initialState dev).testRw ht
  exact ⟨t,ht,hk.accounted.requests,hk.accounted.total,hk.accounted.listed,hk.small,
    hk.accounted.ascending.imp fun hlt => hlt.ne,hk.accounted.inRange⟩

end SecureWipeOut.BadBlocks
