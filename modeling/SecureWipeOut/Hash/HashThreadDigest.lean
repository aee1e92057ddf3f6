import SecureWipeOut.Hash.HashThreadSafety
import SecureWipeOut.Hash.StandardDigests

/-! # The digests the hash threads store

A hash thread with the context of its digest and the text it stores in the end. A write
takes in the bytes one by one while other threads go on, and changes the context with what it
has seen. Without the contexts this is the system of `Hash.HashThread`.
-/
namespace SecureWipeOut.HashThread
open Hash ShaInstructions

section text

def hexDigit (v : UInt8) : Char :=
  Char.ofNat (if v < 10 then v + 0x30 else v - 0xa + 0x61).toNat

/-- The text in hash_str, two digits for every byte. -/
def hashText (digest : List UInt8) : List Char :=
  digest.flatMap fun (b : UInt8) => [hexDigit (b >>> 4),hexDigit (b &&& 15)]

/-- Bytes as two hexadecimal digits each, the high one first. -/
def hexText (l : List UInt8) : List Char :=
  l.flatMap fun (b : UInt8) => [Nat.digitChar (b.toNat / 16),Nat.digitChar (b.toNat % 16)]

theorem hexDigit_ofNat : ∀ k : Fin 16, hexDigit (UInt8.ofNat k) = Nat.digitChar k := by
  decide

theorem hexDigit_eq {v : UInt8} (h : v.toNat < 16) : hexDigit v = Nat.digitChar v.toNat := by
  have hdigit := hexDigit_ofNat ⟨v.toNat,h⟩
  rwa [UInt8.ofNat_toNat] at hdigit

theorem hashText_eq (l : List UInt8) : hashText l = hexText l := by
  unfold hashText hexText
  refine List.flatMap_congr fun b _ => ?_
  have hb := b.toNat_lt
  have hhigh : (b >>> 4).toNat = b.toNat / 16 := by
    rw [UInt8.toNat_shiftRight,Nat.shiftRight_eq_div_pow]
    rfl
  have hlow : (b &&& 15).toNat = b.toNat % 16 := by
    rw [UInt8.toNat_and]
    exact Nat.and_two_pow_sub_one_eq_mod b.toNat 4
  rw [hexDigit_eq (by omega),hexDigit_eq (by omega),hhigh,hlow]

end text

section system

/-- What a hash thread keeps: its context, what a write has read so far, and its text. -/
structure Digesting where
  ctx : HashContext
  seen : List UInt8
  hashStr : List Char

def chunkOf (l : List UInt8) : Chunk := ⟨fun i => l.getD i 0,l.length⟩

/-- What a step of a hash thread does with its digest. -/
def digestStep (a : Algorithm) (m : Memory) (w w' : Worker) (d : Digesting) : Digesting :=
  match w.pc with
  | .starting => { d with ctx := a.init }
  | .hashing b _ k =>
    match w'.pc with
    | .signalling => { d with ctx := a.write d.ctx (chunkOf d.seen), seen := [] }
    | _ => { d with seen := d.seen ++ [m.buffer b k] }
  | .testing =>
    match w'.pc with
    | .finished =>
      match a.final d.ctx with
      | some ctx => { d with ctx := ctx, hashStr := hashText (bytes ctx.buf a.hashSize) }
      | none => d
    | _ => d
  | _ => d

def numHashes (enableExtraHashes : Bool) : ℕ := 4 - (if enableExtraHashes then 0 else 1)

theorem numHashes_le (b : Bool) : numHashes b ≤ 4 := Nat.sub_le _ _

/-- A thread takes its functions from the tables at its own number. -/
def threadHash (cpu : Cpu) {b : Bool} (i : Fin (numHashes b)) : Algorithm :=
  (hashTable cpu).get (i.castLE (numHashes_le b))

variable (file : List UInt8) (cpu : Cpu) {b : Bool}

/-- The steps of the system with the digests. Those of the reader leave every thread where it is. -/
inductive DigestStep : State (numHashes b) × (Fin (numHashes b) → Digesting) →
    State (numHashes b) × (Fin (numHashes b) → Digesting) → Prop
  | worker {s d w} (i : Fin (numHashes b)) (h : WorkerStep s.toMemory (s.worker i) w) :
    DigestStep (s,d) ({ s with worker := Function.update s.worker i w },
      Function.update d i (digestStep (threadHash cpu i) s.toMemory (s.worker i) w (d i)))
  | reader {s s' d} (h : Step file s s') (hpc : ∀ i, (s'.worker i).pc = (s.worker i).pc) :
    DigestStep (s,d) (s',d)

def DigestReachable (p : State (numHashes b) × (Fin (numHashes b) → Digesting)) : Prop :=
  ∃ p₀, Initial p₀.1 ∧ (∀ i, (p₀.2 i).seen = []) ∧ Relation.ReflTransGen (DigestStep file cpu) p₀ p

end system

section invariant
variable {a : Algorithm} {m : Memory} {w w' : Worker} {d : Digesting}

/-- The context stands for the bytes the thread has been fed up to the write under way. -/
structure Digests (a : Algorithm) (w : Worker) (d : Digesting) : Prop where
  fresh : w.pc = .starting → w.fed = []
  quiet : (∀ buf size count, w.pc ≠ .hashing buf size count) → d.seen = []
  written : w.pc ≠ .starting → w.pc ≠ .finished → ∃ chunks,
    d.ctx = chunks.foldl a.write a.init ∧ w.fed = message chunks ++ d.seen
  stored : w.pc = .finished → ∃ chunks, w.fed = message chunks ∧
    ∀ digest, a.hash chunks = some digest → d.hashStr = hashText digest

theorem message_chunkOf (chunks : List Chunk) (l : List UInt8) :
    message (chunks ++ [chunkOf l]) = message chunks ++ l := by
  have hl : bytes (chunkOf l).data (chunkOf l).len = l := by
    refine List.ext_getElem (by simp [chunkOf]) fun i hi hi' => ?_
    simp [bytes,chunkOf,hi']
  rw [message,List.flatMap_append,List.flatMap_singleton,hl]
  rfl

/-- A step between two writes leaves the digest alone. -/
theorem Digests.move (h : Digests a w d) {q : WorkerPc} (hpc : w.pc = q) (hs : q ≠ .starting)
    (hf : q ≠ .finished) (hh : ∀ buf size count, q ≠ .hashing buf size count)
    (hfed : w'.fed = w.fed) (hs' : w'.pc ≠ .starting) (hf' : w'.pc ≠ .finished) :
    Digests a w' d := by
  subst hpc
  exact {
    fresh := fun hpc => absurd hpc hs'
    quiet := fun _ => h.quiet hh
    written := fun _ _ => by
      rw [hfed]
      exact h.written hs hf
    stored := fun hpc => absurd hpc hf' }

theorem digests_start (h : Digests a w d) (hpc : w.pc = .starting) (hfed : w'.fed = w.fed)
    (hs' : w'.pc ≠ .starting) (hf' : w'.pc ≠ .finished) :
    Digests a w' { d with ctx := a.init } where
  fresh hpc' := absurd hpc' hs'
  quiet _ := h.quiet (by simp [hpc])
  written _ _ := by
    refine ⟨[],rfl,?_⟩
    rw [hfed,h.fresh hpc,h.quiet (by simp [hpc])]
    rfl
  stored hpc' := absurd hpc' hf'

theorem digests_finish (h : Digests a w d) (hpc : w.pc = .testing)
    (hfed : w'.fed = w.fed) (hpc' : w'.pc = .finished) : Digests a w' (digestStep a m w w' d) := by
  obtain ⟨chunks,hctx,hmsg⟩ := h.written (by simp [hpc]) (by simp [hpc])
  have hseen := h.quiet (by simp [hpc])
  rw [hseen,List.append_nil] at hmsg
  have hstored : (digestStep a m w w' d).seen = [] ∧
      ∀ digest, a.hash chunks = some digest → (digestStep a m w w' d).hashStr = hashText digest := by
    simp only [digestStep,hpc,hpc']
    cases hfinal : a.final d.ctx with
    | none =>
      refine ⟨hseen,fun digest hdigest => ?_⟩
      rw [Algorithm.hash,← hctx,hfinal] at hdigest
      cases hdigest
    | some ctx =>
      refine ⟨hseen,fun digest hdigest => ?_⟩
      rw [Algorithm.hash,← hctx,hfinal] at hdigest
      exact congrArg hashText (Option.some.inj hdigest)
  exact {
    fresh := fun hs => absurd hs (by simp [hpc'])
    quiet := fun _ => hstored.1
    written := fun _ hf => absurd hpc' hf
    stored := fun _ => ⟨chunks,hfed.trans hmsg,hstored.2⟩ }

theorem digests_step (h : Digests a w d) (hw : WorkerStep m w w') :
    Digests a w' (digestStep a m w w' d) := by
  cases hw with
  | ready hpc =>
    simp only [digestStep,hpc]
    exact digests_start h hpc rfl (by simp) (by simp)
  | readyFails hpc =>
    simp only [digestStep,hpc]
    exact digests_start h hpc rfl (by simp) (by simp)
  | wake hpc =>
    simp only [digestStep,hpc]
    exact h.move hpc (by simp) (by simp) (by simp) rfl (by simp) (by simp)
  | waitFails hpc =>
    simp only [digestStep,hpc]
    exact h.move hpc (by simp) (by simp) (by simp) rfl (by simp) (by simp)
  | more hpc =>
    simp only [digestStep,hpc]
    exact h.move hpc (by simp) (by simp) (by simp) rfl (by simp) (by simp)
  | call hpc =>
    simp only [digestStep,hpc]
    exact h.move hpc (by simp) (by simp) (by simp) rfl (by simp) (by simp)
  | @feed buf size k hpc hk =>
    obtain ⟨chunks,hctx,hfed⟩ := h.written (by simp [hpc]) (by simp [hpc])
    simp only [digestStep,hpc]
    exact {
      fresh := by simp
      quiet := fun hquiet => absurd rfl (hquiet buf size (k + 1))
      written := fun _ _ => ⟨chunks,hctx,by rw [hfed,List.append_assoc]⟩
      stored := by simp }
  | written hpc =>
    obtain ⟨chunks,hctx,hfed⟩ := h.written (by simp [hpc]) (by simp [hpc])
    simp only [digestStep,hpc]
    exact {
      fresh := by simp
      quiet := fun _ => rfl
      written := fun _ _ => ⟨chunks ++ [chunkOf d.seen],by rw [List.foldl_concat,← hctx],by
        rw [message_chunkOf,List.append_nil,hfed]⟩
      stored := by simp }
  | signal hpc =>
    simp only [digestStep,hpc]
    exact h.move hpc (by simp) (by simp) (by simp) rfl (by simp) (by simp)
  | signalFails hpc =>
    simp only [digestStep,hpc]
    exact h.move hpc (by simp) (by simp) (by simp) rfl (by simp) (by simp)
  | finish hpc => exact digests_finish h hpc rfl rfl

/-- A step of the reader leaves the bytes that the threads have been fed. -/
theorem step_fed {n : ℕ} {file : List UInt8} {s s' : State n} (h : Step file s s')
    (hpc : ∀ i, (s'.worker i).pc = (s.worker i).pc) (i : Fin n) :
    (s'.worker i).fed = (s.worker i).fed := by
  cases h with
  | @worker w j hw =>
    by_cases hij : i = j
    · subst hij
      have hsame := hpc i
      simp only [Function.update_self] at hsame ⊢
      cases hw with
      | @feed buf size k hpc' hk =>
        rw [hpc'] at hsame
        have hk' : k + 1 = k := WorkerPc.hashing.inj hsame |>.2.2
        omega
      | _ => rfl
    · simp only [Function.update_of_ne hij]
  | threadsReady => rfl
  | @signal j =>
    by_cases hij : i = j
    · subst hij
      simp only [Function.update_self]
    · simp only [Function.update_of_ne hij]
  | _ => rfl

theorem digestStep_reachable {file : List UInt8} {cpu : Cpu} {b : Bool}
    {p : State (numHashes b) × (Fin (numHashes b) → Digesting)} (h : DigestReachable file cpu p) :
    Reachable file p.1 ∧ ∀ i, Digests (threadHash cpu i) (p.1.worker i) (p.2 i) := by
  obtain ⟨p₀,hinit,hseen,hrun⟩ := h
  induction hrun with
  | refl =>
    refine ⟨⟨p₀.1,hinit,.refl⟩,fun i => ?_⟩
    rw [hinit.worker i]
    exact ⟨fun _ => rfl,fun _ => hseen i,fun hs => absurd rfl hs,by simp⟩
  | tail _ hstep ih =>
    obtain ⟨⟨s₀,hinit,hbase⟩,hd⟩ := ih
    cases hstep with
    | @worker s d w i h =>
      refine ⟨⟨s₀,hinit,hbase.tail (.worker i h)⟩,fun j => ?_⟩
      by_cases hji : j = i
      · subst hji
        simp only [Function.update_self]
        exact digests_step (hd j) h
      · simp only [Function.update_of_ne hji]
        exact hd j
    | @reader s s' d h hpc =>
      refine ⟨⟨s₀,hinit,hbase.tail h⟩,fun i => ?_⟩
      obtain ⟨hfresh,hquiet,hwritten,hstored⟩ := hd i
      rw [← hpc i,← step_fed h hpc i] at hfresh hwritten hstored
      exact ⟨hfresh,fun hno => hquiet (by rwa [← hpc i]),hwritten,hstored⟩

end invariant

def idleState : State (numHashes false) where
  buffer _ _ := 0
  readSize _ := 0
  procBufnum := ⟨0,by decide⟩
  readBufnum := ⟨0,by decide⟩
  offset := 0
  flight := .idle
  pc := .launch
  aborted := false
  worker _ := ⟨.starting,[],false,false⟩

/-- A processor without the instructions. -/
def plainCpu : Cpu := detected false false (fun _ => ⟨0,0,0,0⟩) fun _ => ⟨0,0,0,0⟩

end SecureWipeOut.HashThread
