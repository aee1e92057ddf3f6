import SecureWipeOut.Hash.HashThread

/-! # The invariant of the reader and its hash threads

It names the chunk of the file that the processing buffer stands for: where it begins,
its length, and whether a chunk has been published at all. Relative to that chunk each
hash thread is idle in front of it, at work on it, or done with it. Steps of the hash
threads and of the asynchronous read keep it.
-/
namespace SecureWipeOut.HashThread
variable {n : ℕ} {file : List UInt8}

section Invariant

/-- The buffer holds the bytes of the file from base on, none only at its end. -/
structure Filled (file : List UInt8) (buffer : Fin 3 → ℕ → UInt8) (b : Fin 3) (base len : ℕ) :
    Prop where
  fits : base + len ≤ file.length
  last : len = 0 → file.length ≤ base
  data : ∀ k < len, buffer b k = file.getD (base + k) 0

/-- A hash thread that has been told of the current chunk, or of none so far. -/
inductive Served (file : List UInt8) (m : Memory) (base len : ℕ) (primed : Bool) :
    Worker → Prop
  | starting (hp : primed = false) : Served file m base len primed ⟨.starting,file.take base,false,false⟩
  | told (hp : primed = true) : Served file m base len primed ⟨.waiting,file.take base,false,true⟩
  | testing (hp : primed = true) : Served file m base len primed ⟨.testing,file.take base,false,false⟩
  | calling (hp : primed = true) (hs : m.readSize m.procBufnum ≠ 0) :
    Served file m base len primed ⟨.calling,file.take base,false,false⟩
  | hashing (hp : primed = true) (k : ℕ) (hk : k ≤ len) (hs : m.readSize m.procBufnum ≠ 0) :
    Served file m base len primed ⟨.hashing m.procBufnum len k,file.take (base + k),false,false⟩
  | signalling (hp : primed = true) (hs : m.readSize m.procBufnum ≠ 0) :
    Served file m base len primed ⟨.signalling,file.take (base + len),false,false⟩
  | ready : Served file m base len primed ⟨.waiting,file.take (base + len),true,false⟩
  | finished (hp : primed = true) (hs : m.readSize m.procBufnum = 0) :
    Served file m base len primed ⟨.finished,file.take base,false,false⟩
  | failedReady (d : Bool) : Served file m base len primed ⟨.failed,file.take (base + len),true,d⟩
  | failed (fed : List UInt8) (d : Bool)
      (hf : fed = file.take base ∨ m.readSize m.procBufnum ≠ 0) :
    Served file m base len primed ⟨.failed,fed,false,d⟩

/-- A hash thread that has given its readiness away and waits for the next chunk. -/
inductive Idle (fed : List UInt8) : Worker → Prop
  | waiting : Idle fed ⟨.waiting,fed,false,false⟩
  | failed (d : Bool) : Idle fed ⟨.failed,fed,false,d⟩

/-- A completed read has left the next bytes of the file in its buffer. -/
def FlightOk (file : List UInt8) (s : State n) : Prop :=
  ∀ count, s.flight = .complete count → Filled file s.buffer s.readBufnum s.offset count

/-- The read under way fetches what follows the current chunk. -/
structure Fetching (file : List UInt8) (s : State n) (base len : ℕ) (primed : Bool) : Prop where
  offset : s.offset = base + len
  apart : s.readBufnum ≠ s.procBufnum
  next : primed = true → s.readBufnum = s.procBufnum + 1
  flight : FlightOk file s

/-- The chunk that follows the current one is complete in a buffer. -/
structure Collected (file : List UInt8) (s : State n) (base len : ℕ) (b : Fin 3) : Prop where
  offset : s.offset = base + len + s.readSize b
  filled : Filled file s.buffer b (base + len) (s.readSize b)
  more : s.readSize s.procBufnum ≠ 0

/-- What the position of the reader says about the read and about the threads. -/
inductive Course (file : List UInt8) (s : State n) (base len : ℕ) (primed : Bool) : Prop
  | launch (hpc : s.pc = .launch) (hp : primed = false) (ho : s.offset = 0) (hf : s.flight = .idle)
      (hw : ∀ i, Served file s.toMemory base len primed (s.worker i))
  | fetching (hpc : s.pc = .head ∨ s.pc = .waitRead)
      (hf : Fetching file s base len primed)
      (hs : primed = false → s.readSize s.procBufnum ≠ 0)
      (hr : s.pc = .waitRead → s.readSize s.procBufnum ≠ 0)
      (hw : ∀ i, Served file s.toMemory base len primed (s.worker i))
  | ending (hpc : s.pc = .joining ∨ s.pc = .done) (hp : primed = true)
      (hf : Fetching file s base len primed) (hs : s.readSize s.procBufnum = 0)
      (hw : ∀ i, Served file s.toMemory base len primed (s.worker i))
  | collected (hpc : s.pc = .launchNext) (hc : Collected file s base len s.readBufnum)
      (hn : primed = true → s.readBufnum = s.procBufnum + 1) (hf : s.flight = .idle)
      (hw : ∀ i, Served file s.toMemory base len primed (s.worker i))
  | gathering (hpc : s.pc = .waitThreads) (hc : Collected file s base len (s.readBufnum + 2))
      (hn : primed = true → s.readBufnum = s.procBufnum + 2) (hf : FlightOk file s)
      (hw : ∀ i, Served file s.toMemory base len primed (s.worker i))
  | switching (hpc : s.pc = .setProc) (hc : Collected file s base len (s.readBufnum + 2))
      (hn : primed = true → s.readBufnum = s.procBufnum + 2) (hf : FlightOk file s)
      (hw : ∀ i, Idle (file.take (base + len)) (s.worker i))
  | telling (j : ℕ) (hpc : s.pc = .signal j) (hp : primed = true)
      (hf : Fetching file s base len primed)
      (hw : ∀ i : Fin n, i < j → Served file s.toMemory base len primed (s.worker i))
      (hw' : ∀ i : Fin n, j ≤ i → Idle (file.take base) (s.worker i))

/-- The current chunk, empty and at the start until one has been published. -/
structure Current (file : List UInt8) (m : Memory) (base len : ℕ) (primed : Bool) : Prop where
  size : primed = true → len = m.readSize m.procBufnum
  filled : primed = true → Filled file m.buffer m.procBufnum base len
  none : primed = false → base = 0 ∧ len = 0

def Inv (file : List UInt8) (s : State n) : Prop :=
  ∃ base len primed, Current file s.toMemory base len primed ∧ Course file s base len primed

end Invariant

section Workers
variable {m : Memory} {base len : ℕ} {primed : Bool} {w w' : Worker}

theorem take_succ_getD {k : ℕ} (h : k < file.length) :
    file.take k ++ [file.getD k 0] = file.take (k + 1) := by
  rw [List.take_add_one,List.getD_eq_getElem?_getD,List.getElem?_eq_getElem h]
  rfl

theorem workerStep_served (hc : Current file m base len primed)
    (h : Served file m base len primed w) (hs : WorkerStep m w w') :
    Served file m base len primed w' := by
  cases h with
  | starting hp =>
    obtain ⟨hb,hl⟩ := hc.none hp
    cases hs with
    | ready _ =>
      have hready : Served file m base len primed ⟨.waiting,file.take (base + len),true,false⟩ :=
        Served.ready
      simpa [hl] using hready
    | readyFails _ => exact Served.failed _ _ (Or.inl rfl)
    | _ hpc => cases hpc
  | told hp =>
    cases hs with
    | wake _ _ => exact Served.testing hp
    | waitFails _ => exact Served.failed _ _ (Or.inl rfl)
    | _ hpc => cases hpc
  | testing hp =>
    cases hs with
    | more _ hsize => exact Served.calling hp hsize
    | finish _ hsize => exact Served.finished hp hsize
    | _ hpc => cases hpc
  | calling hp hsz =>
    cases hs with
    | call _ =>
      rw [← hc.size hp]
      exact Served.hashing hp 0 (Nat.zero_le _) hsz
    | _ hpc => cases hpc
  | hashing hp k hk hsz =>
    cases hs with
    | feed hpc hlt =>
      cases hpc
      have hfill := hc.filled hp
      have hbound := hfill.fits
      rw [hfill.data k hlt,take_succ_getD (by omega)]
      exact Served.hashing hp (k + 1) hlt hsz
    | written hpc =>
      cases hpc
      exact Served.signalling hp hsz
    | _ hpc => cases hpc
  | signalling hp hsz =>
    cases hs with
    | signal _ => exact Served.ready
    | signalFails _ => exact Served.failed _ _ (Or.inr hsz)
    | _ hpc => cases hpc
  | ready =>
    cases hs with
    | wake _ hdata => cases hdata
    | waitFails _ => exact Served.failedReady _
    | _ hpc => cases hpc
  | finished hp hsz =>
    cases hs with
    | _ hpc => cases hpc
  | failedReady d =>
    cases hs with
    | _ hpc => cases hpc
  | failed fed d hf =>
    cases hs with
    | _ hpc => cases hpc

theorem workerStep_idle {fed : List UInt8} (h : Idle fed w) (hs : WorkerStep m w w') :
    Idle fed w' := by
  cases h with
  | waiting =>
    cases hs with
    | wake _ hdata => cases hdata
    | waitFails _ => exact Idle.failed _
    | _ hpc => cases hpc
  | failed d =>
    cases hs with
    | _ hpc => cases hpc

end Workers

section System
variable {s s' : State n}

theorem forall_update {P : Worker → Prop} {f : Fin n → Worker} {i : Fin n} {w : Worker}
    (hf : ∀ j, P (f j)) (hw : P w) (j : Fin n) : P (Function.update f i w j) := by
  by_cases h : j = i
  · subst h
    simpa using hw
  · rw [Function.update_of_ne h]
    exact hf j

theorem worker_inv {i : Fin n} {w : Worker} (h : Inv file s)
    (hs : WorkerStep s.toMemory (s.worker i) w) :
    Inv file { s with worker := Function.update s.worker i w } := by
  obtain ⟨base,len,primed,hc,hcourse⟩ := h
  refine ⟨base,len,primed,hc,?_⟩
  have hserved : (∀ j, Served file s.toMemory base len primed (s.worker j)) →
      ∀ j, Served file s.toMemory base len primed (Function.update s.worker i w j) := fun hw =>
    forall_update hw (workerStep_served hc (hw i) hs)
  cases hcourse with
  | launch hpc hp ho hf hw => exact .launch hpc hp ho hf (hserved hw)
  | fetching hpc hf hsz hr hw =>
    exact .fetching hpc ⟨hf.offset,hf.apart,hf.next,hf.flight⟩ hsz hr (hserved hw)
  | ending hpc hp hf hsz hw =>
    exact .ending hpc hp ⟨hf.offset,hf.apart,hf.next,hf.flight⟩ hsz (hserved hw)
  | collected hpc hcol hn hf hw =>
    exact .collected hpc ⟨hcol.offset,hcol.filled,hcol.more⟩ hn hf (hserved hw)
  | gathering hpc hcol hn hf hw =>
    exact .gathering hpc ⟨hcol.offset,hcol.filled,hcol.more⟩ hn hf (hserved hw)
  | switching hpc hcol hn hf hw =>
    exact .switching hpc ⟨hcol.offset,hcol.filled,hcol.more⟩ hn hf
      (forall_update hw (workerStep_idle (hw i) hs))
  | telling j hpc hp hf hw hw' =>
    refine .telling j hpc hp ⟨hf.offset,hf.apart,hf.next,hf.flight⟩ ?_ ?_
    · intro l hl
      by_cases h : l = i
      · subst h
        simpa using workerStep_served hc (hw l hl) hs
      · simpa [Function.update_of_ne h] using hw l hl
    · intro l hl
      by_cases h : l = i
      · subst h
        simpa using workerStep_idle (hw' l hl) hs
      · simpa [Function.update_of_ne h] using hw' l hl

theorem Filled.update {buffer : Fin 3 → ℕ → UInt8} {b c : Fin 3} {base len : ℕ} {data : ℕ → UInt8}
    (h : Filled file buffer b base len) (hb : b ≠ c) :
    Filled file (Function.update buffer c data) b base len := by
  refine ⟨h.fits,h.last,?_⟩
  rw [Function.update_of_ne hb]
  exact h.data

theorem add_two_ne (b : Fin 3) : b + 2 ≠ b := by
  revert b
  decide

/-- Writing to the buffer of the read under way disturbs neither the current chunk nor
one that waits to be published. -/
theorem fill_inv (h : Inv file s) (hf : s.flight = .pending) (data : ℕ → UInt8) (flight : Flight)
    (hnew : ∀ count, flight = .complete count → ReadCount file s.offset count ∧
      ∀ k < count, data k = file.getD (s.offset + k) 0) :
    Inv file { s with buffer := Function.update s.buffer s.readBufnum data, flight := flight } := by
  obtain ⟨base,len,primed,hc,hcourse⟩ := h
  have hflight : FlightOk file { s with
      buffer := Function.update s.buffer s.readBufnum data, flight := flight } := by
    intro count hcount
    obtain ⟨hrc,hd⟩ := hnew count hcount
    refine ⟨hrc.1,fun hz => hrc.2.2.mp hz,fun k hk => ?_⟩
    dsimp only
    rw [Function.update_self]
    exact hd k hk
  have hcurrent : (primed = true → s.procBufnum ≠ s.readBufnum) → Current file { s with
      buffer := Function.update s.buffer s.readBufnum data, flight := flight }.toMemory base len primed :=
    fun hne => ⟨hc.size,fun hp => (hc.filled hp).update (hne hp),hc.none⟩
  have hserved : ∀ w, Served file s.toMemory base len primed w → Served file { s with
      buffer := Function.update s.buffer s.readBufnum data, flight := flight }.toMemory
      base len primed w := by
    intro w hw
    cases hw
    all_goals constructor <;> assumption
  refine ⟨base,len,primed,?_⟩
  cases hcourse with
  | launch hpc hp ho hfl hw =>
    rw [hfl] at hf
    cases hf
  | fetching hpc hfe hsz hr hw =>
    refine ⟨hcurrent fun _ => hfe.apart.symm,?_⟩
    exact .fetching hpc ⟨hfe.offset,hfe.apart,hfe.next,hflight⟩ hsz hr fun i => hserved _ (hw i)
  | ending hpc hp hfe hsz hw =>
    refine ⟨hcurrent fun _ => hfe.apart.symm,?_⟩
    exact .ending hpc hp ⟨hfe.offset,hfe.apart,hfe.next,hflight⟩ hsz fun i => hserved _ (hw i)
  | collected hpc hcol hn hfl hw =>
    rw [hfl] at hf
    cases hf
  | gathering hpc hcol hn hfl hw =>
    refine ⟨hcurrent fun hp => ?_,.gathering hpc ⟨hcol.offset,hcol.filled.update (add_two_ne _),
      hcol.more⟩ hn hflight fun i => hserved _ (hw i)⟩
    rw [hn hp]
    exact (add_two_ne _).symm
  | switching hpc hcol hn hfl hw =>
    refine ⟨hcurrent fun hp => ?_,.switching hpc ⟨hcol.offset,hcol.filled.update (add_two_ne _),
      hcol.more⟩ hn hflight hw⟩
    rw [hn hp]
    exact (add_two_ne _).symm
  | telling j hpc hp hfe hw hw' =>
    refine ⟨hcurrent fun _ => hfe.apart.symm,?_⟩
    exact .telling j hpc hp ⟨hfe.offset,hfe.apart,hfe.next,hflight⟩ (fun i hi => hserved _ (hw i hi)) hw'

theorem initial_inv (h : Initial s) : Inv file s := by
  refine ⟨0,0,false,⟨nofun,nofun,fun _ => ⟨rfl,rfl⟩⟩,?_⟩
  refine .launch h.pc rfl h.offset h.flight fun i => ?_
  rw [h.worker i]
  exact Served.starting rfl

end System

end SecureWipeOut.HashThread
