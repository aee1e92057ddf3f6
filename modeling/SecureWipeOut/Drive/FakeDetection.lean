import SecureWipeOut.Drive.FakeDevice

/-! # Detection of fake devices

The first pass writes its number into every block. When the transfers succeed, both loops
cut the range at the same places, so a block is compared with what was written for it; a
block whose cell a later block has taken differs from it in the number.
-/
namespace SecureWipeOut.BadBlocks
open Sectors BadBlockList
universe u
variable {σ : Type u} {h : Handle σ} {p : Params}

/-- The arguments that the bad block check passes on. -/
structure Called (p : Params) : Prop where
  first : p.firstBlock = 0
  size : p.blockSize = 512 * 1024
  atOnce : p.blocksAtOnce = 64

/-- The bytes written for a block: the ones of its place in the request it is part of. -/
def content (p : Params) (pattern b j : ℕ) : UInt8 :=
  expected p 0 pattern (b - b % p.blocksAtOnce) (b % p.blocksAtOnce * p.blockSize + j)

theorem content_of_request {pattern start i : ℕ} (hstart : start % p.blocksAtOnce = 0)
    (hi : i < p.blocksAtOnce) (j : ℕ) :
    content p pattern (start + i) j = expected p 0 pattern start (i * p.blockSize + j) := by
  have hmod : (start + i) % p.blocksAtOnce = i := by
    rw [Nat.add_mod,hstart,Nat.zero_add,Nat.mod_mod,Nat.mod_eq_of_lt hi]
  rw [content,hmod,Nat.add_sub_cancel]

/-- The bytes of the number are those of the block. -/
theorem content_id (hfakes : p.detectFakes = true) (pattern b : ℕ) {k : ℕ} (hk : k < 8) :
    content p pattern b (p.idOffset + k) = UInt8.ofNat (b / 256 ^ k) := by
  have hoff := p.idOffset_le
  have hslot : b % p.blocksAtOnce < p.blocksAtOnce := Nat.mod_lt _ p.atOnce_pos
  have hdiv : (b % p.blocksAtOnce * p.blockSize + (p.idOffset + k)) / p.blockSize =
      b % p.blocksAtOnce := by
    rw [Nat.add_comm,Nat.add_mul_div_right _ _ p.blockSize_pos,Nat.div_eq_of_lt (by omega),
      Nat.zero_add]
  have hmod : (b % p.blocksAtOnce * p.blockSize + (p.idOffset + k)) % p.blockSize =
      p.idOffset + k := by
    rw [Nat.add_comm,Nat.add_mul_mod_self_right,Nat.mod_eq_of_lt (by omega)]
  have hin : b % p.blocksAtOnce < p.blocksAtOnce ∧ p.idOffset ≤ p.idOffset + k ∧
      p.idOffset + k < p.idOffset + 8 := ⟨hslot,by omega,by omega⟩
  simp only [content,expected,markBuffer,hfakes,beq_self_eq_true,Bool.and_self,if_true,writeIds,
    hdiv,hmod,if_pos hin]
  rw [Nat.sub_add_cancel (Nat.mod_le b p.blocksAtOnce),Nat.add_sub_cancel_left]

theorem eq_of_bytes {a b n : ℕ} (ha : a < 256 ^ n) (hb : b < 256 ^ n)
    (h : ∀ k < n, UInt8.ofNat (a / 256 ^ k) = UInt8.ofNat (b / 256 ^ k)) : a = b := by
  induction n generalizing a b with
  | zero =>
    rw [pow_zero] at ha hb
    omega
  | succ n ih =>
    have hlow : a % 256 = b % 256 := by
      have := congrArg UInt8.toNat (h 0 (by omega))
      simpa using this
    have hhigh : a / 256 = b / 256 := by
      rw [pow_succ] at ha hb
      refine ih (by omega) (by omega) fun k hk => ?_
      have := h (k + 1) (by omega)
      rwa [pow_succ',← Nat.div_div_eq_div_mul,← Nat.div_div_eq_div_mul] at this
    omega

/-- Two blocks are never written alike. -/
theorem content_ne (hfakes : p.detectFakes = true) (pattern : ℕ) {b b' : ℕ}
    (hb : b < p.lastBlock) (hb' : b' < p.lastBlock) (hne : b ≠ b') :
    ∃ j < p.blockSize, content p pattern b j ≠ content p pattern b' j := by
  have hlast : p.lastBlock ≤ 256 ^ 8 := by
    have := p.last_lt
    have := Nat.le_mul_of_pos_right p.lastBlock p.blockSize_pos
    omega
  by_contra hall
  push Not at hall
  refine hne (eq_of_bytes (hb.trans_le hlast) (hb'.trans_le hlast) fun k hk => ?_)
  have hoff := p.idOffset_le
  rw [← content_id hfakes pattern b hk,← content_id hfakes pattern b' hk]
  exact hall _ (by omega)

section steps
variable {cell : ℕ → ℕ} (d : StoresThrough h p.blockSize cell)
include d

/-- The size of the request at a position. -/
def request (p : Params) (current : ℕ) : ℕ := clamp p current p.blocksAtOnce

theorem guard_go {s : State σ} (hlt : s.currentlyTesting < p.lastBlock) (hcount : s.bbCount < maxBb)
    (htry : s.tryout = p.blocksAtOnce) :
    guard h p s = .inl { s with
      dev := (h.cancelled s.dev).2
      tryout := request p s.currentlyTesting } := by
  simp only [guard,if_pos hlt,(d.cancelled s.dev).1,Bool.false_eq_true,if_false,
    Nat.not_le.mpr hcount,htry,request]

theorem guard_abort {s : State σ} (hlt : s.currentlyTesting < p.lastBlock)
    (hcount : maxBb ≤ s.bbCount) :
    guard h p s = .inr (.aborted,{ s with dev := (h.cancelled s.dev).2 }) := by
  simp only [guard,if_pos hlt,(d.cancelled s.dev).1,Bool.false_eq_true,if_false,if_pos hcount]

omit d in
theorem request_spec {current : ℕ} (hlt : current < p.lastBlock) :
    0 < request p current ∧ current + request p current ≤ p.lastBlock ∧
      request p current ≤ p.blocksAtOnce ∧
      (current + request p current < p.lastBlock → request p current = p.blocksAtOnce) := by
  obtain ⟨hpos,hfit,hle⟩ := clamp_spec (p := p) p.atOnce_pos hlt
  refine ⟨hpos,hfit,hle,fun hlt' => ?_⟩
  rw [request,clamp] at hlt' ⊢
  split_ifs at hlt' ⊢ with hc <;> omega

omit d in
theorem advance_whole (e : ErrorType) {n : ℕ} {s : State σ} (hn : 0 < n) (htry : s.tryout = n)
    (hrecover : s.recoverBlock = noRecover) (hcur : s.currentlyTesting + n < noRecover) :
    advance p n (record e n s) = { s with currentlyTesting := s.currentlyTesting + n } := by
  have hrec : ¬ (n = 0 ∧ s.tryout = 1) := by omega
  have hne : s.currentlyTesting + n ≠ noRecover := hcur.ne
  rw [record,if_neg hrec,advance]
  simp only [htry,ne_eq,not_true_eq_false,if_false,hrecover,if_neg hne]

omit d in
theorem lastBlock_lt (hp : Called p) (hsize : p.lastBlock * p.blockSize ≤ PB) :
    p.lastBlock < noRecover := by
  rw [hp.size,PB] at hsize
  rw [noRecover]
  omega

omit d in
theorem request_bytes (hp : Called p) {current : ℕ} (hlt : current < p.lastBlock) :
    request p current * p.blockSize ≤ 0xFFFFFFFF := by
  have hle := (request_spec hlt).2.2.1
  rw [hp.atOnce] at hle
  rw [hp.size]
  omega

end steps

section writing
variable {cell : ℕ → ℕ} (d : StoresThrough h p.blockSize cell) {pattern : ℕ}

/-- Nothing has been recorded. -/
structure Fresh (s : State σ) : Prop where
  list : s.bbList.list = []
  count : s.bbCount = 0
  readErrors : s.numReadErrors = 0
  writeErrors : s.numWriteErrors = 0
  corruptionErrors : s.numCorruptionErrors = 0
  recover : s.recoverBlock = noRecover

/-- Where a loop stands when all transfers so far have been whole. -/
structure Whole (p : Params) (s : State σ) : Prop where
  le : s.currentlyTesting ≤ p.lastBlock
  recover : s.recoverBlock = noRecover
  next : s.currentlyTesting < p.lastBlock →
    s.tryout = p.blocksAtOnce ∧ s.currentlyTesting % p.blocksAtOnce = 0

theorem Whole.go {s t : State σ} (hs : Whole p s) (hlt : s.currentlyTesting < p.lastBlock)
    (hcur : t.currentlyTesting = s.currentlyTesting + request p s.currentlyTesting)
    (htry : t.tryout = request p s.currentlyTesting) (hrecover : t.recoverBlock = noRecover) :
    Whole p t := by
  obtain ⟨-,hfit,-,hfull⟩ := request_spec hlt
  refine ⟨hcur ▸ hfit,hrecover,fun hlt' => ?_⟩
  have hsize := hfull (hcur ▸ hlt')
  rw [htry,hcur,hsize,Nat.add_mod_right]
  exact ⟨rfl,(hs.next hlt).2⟩

structure WriteInv (pattern : ℕ) (s : State σ) : Prop where
  whole : Whole p s
  fresh : Fresh s
  filled : FilledWith p 0 pattern s
  stored : ∀ b < s.currentlyTesting,
    (∀ b', b < b' → b' < s.currentlyTesting → cell b' ≠ cell b) →
    ∀ j < p.blockSize, d.stored s.dev (cell b) j = content p pattern b j

include d in
theorem writeStep_go (hp : Called p) (hsize : p.lastBlock * p.blockSize ≤ PB) {s : State σ}
    (hw : Whole p s) (hcount : s.bbCount < maxBb) (hlt : s.currentlyTesting < p.lastBlock) :
    writeStep h p 0 s = .inl { s with
      currentlyTesting := s.currentlyTesting + request p s.currentlyTesting
      tryout := request p s.currentlyTesting
      buffer := markBuffer p 0 s.currentlyTesting s.buffer
      dev := (doWrite h p (markBuffer p 0 s.currentlyTesting s.buffer)
        (request p s.currentlyTesting) s.currentlyTesting (h.cancelled s.dev).2).2 } := by
  obtain ⟨hpos,hfit,-,-⟩ := request_spec hlt
  have hend := lastBlock_lt hp hsize
  have hgot := (doWrite_stores d (markBuffer p 0 s.currentlyTesting s.buffer) s.currentlyTesting
    (h.cancelled s.dev).2 (request_bytes hp hlt)).1
  simp only [writeStep,guard_go d hlt hcount (hw.next hlt).1]
  rw [hgot]
  exact congrArg Sum.inl (advance_whole .write hpos rfl hw.recover (hfit.trans_lt hend))

theorem WriteInv.step (hp : Called p) (hsize : p.lastBlock * p.blockSize ≤ PB) {s s' : State σ}
    (hs : WriteInv d pattern s) (hstep : writeStep h p 0 s = .inl s') :
    WriteInv d pattern s' ∧ s'.currentlyTesting ≤ p.lastBlock ∧
      s.currentlyTesting < s'.currentlyTesting := by
  have hcount : s.bbCount < maxBb := by rw [hs.fresh.count]; decide
  have hlt : s.currentlyTesting < p.lastBlock := by
    by_contra hge
    simp [writeStep,guard,hge] at hstep
  obtain ⟨hpos,hfit,hle,-⟩ := request_spec hlt
  rw [writeStep_go d hp hsize hs.whole hcount hlt,Sum.inl.injEq] at hstep
  obtain ⟨-,hlast,hother⟩ := doWrite_stores d (markBuffer p 0 s.currentlyTesting s.buffer)
    s.currentlyTesting (h.cancelled s.dev).2 (request_bytes hp hlt)
  subst hstep
  refine ⟨⟨hs.whole.go hlt rfl rfl hs.whole.recover,?_,fun start => ?_,?_⟩,hfit,by show _ < _ + _; omega⟩
  · exact ⟨hs.fresh.list,hs.fresh.count,hs.fresh.readErrors,hs.fresh.writeErrors,
      hs.fresh.corruptionErrors,hs.fresh.recover⟩
  · exact (markBuffer_markBuffer 0 _ start s.buffer).trans (hs.filled start)
  · intro b hb hnone j hj
    rcases Nat.lt_or_ge b s.currentlyTesting with hold | hnew
    · -- Nothing of this request goes to the cell of an earlier block that still counts.
      rw [hother (cell b) fun i hi => hnone _ (by omega) (by show _ + _ < _ + _; omega),
        (d.cancelled s.dev).2]
      exact hs.stored b hold (fun b' h1 h2 => hnone b' h1 (by show _ < _ + _; omega)) j hj
    · obtain ⟨i,rfl⟩ := Nat.exists_eq_add_of_le hnew
      have hi : i < request p s.currentlyTesting := by
        have : s.currentlyTesting + i < s.currentlyTesting + request p s.currentlyTesting := hb
        omega
      rw [hlast i hi (fun i' h1 h2 => hnone _ (by omega) (by show _ + _ < _ + _; omega)) j hj,
        hs.filled,content_of_request (hs.whole.next hlt).2 (by omega)]

/-- The write loop ends with the last block of every cell stored. -/
theorem writeLoop_stores (hp : Called p) (hsize : p.lastBlock * p.blockSize ≤ PB) {s : State σ}
    (hs : WriteInv d pattern s) :
    ∃ t, Loop.run (writeStep h p 0) (fuel p) s = some (.finished,t) ∧ WriteInv d pattern t ∧
      t.currentlyTesting = p.lastBlock := by
  have hfuel : p.lastBlock - s.currentlyTesting < fuel p := by
    rw [fuel]
    omega
  obtain ⟨e,he⟩ := Loop.run_terminates (I := WriteInv d pattern)
    (fun t : State σ => p.lastBlock - t.currentlyTesting) (fun t t' ht hstep => by
      obtain ⟨ht',hle,hlt⟩ := ht.step d hp hsize hstep
      exact ⟨ht',by show _ < _; omega⟩) hs hfuel
  have hexit := Loop.run_rule (I := WriteInv d pattern)
    (Q := fun e : Exit × State σ => e.1 = .finished ∧ WriteInv d pattern e.2 ∧
      e.2.currentlyTesting = p.lastBlock)
    (fun t t' ht hstep => (ht.step d hp hsize hstep).1) (fun t e ht hstep => by
      have hcount : t.bbCount < maxBb := by rw [ht.fresh.count]; decide
      have hge : ¬ t.currentlyTesting < p.lastBlock := by
        intro hlt
        rw [writeStep_go d hp hsize ht.whole hcount hlt] at hstep
        cases hstep
      simp only [writeStep,guard,if_neg hge,Sum.inr.injEq] at hstep
      subst hstep
      exact ⟨rfl,ht,by have := ht.whole.le; show t.currentlyTesting = _; omega⟩) hs he
  obtain ⟨x,t⟩ := e
  obtain ⟨rfl,ht,hend⟩ := hexit
  exact ⟨t,he,ht,hend⟩

end writing

end SecureWipeOut.BadBlocks
