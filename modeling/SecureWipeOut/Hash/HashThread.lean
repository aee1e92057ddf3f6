import Mathlib.Tactic

/-! # The reader and its hash threads

One thread reads a file into three rotating buffers while each of the others feeds
its digest from the buffer that was filled last. They meet through two auto-reset
events for every hash thread. Every access that another thread could come between is
a step of its own, and an asynchronous read writes to its buffer until it completes.
-/
namespace SecureWipeOut.HashThread

def bufferSize : ℕ := 65536

section IndividualHashThread

inductive WorkerPc where
  | starting
  | waiting
  | testing
  | calling
  | hashing (buf : Fin 3) (size count : ℕ)
  | signalling
  | finished
  | failed
  deriving DecidableEq

/-- A hash thread, the bytes its digest has been fed, and its two events. -/
structure Worker where
  pc : WorkerPc
  fed : List UInt8
  threadReady : Bool
  dataReady : Bool

/-- The globals that hash threads read. -/
structure Memory where
  buffer : Fin 3 → ℕ → UInt8
  readSize : Fin 3 → ℕ
  procBufnum : Fin 3

/-- IndividualHashThread. A wait may end without the event and a signal may fail. -/
inductive WorkerStep (m : Memory) : Worker → Worker → Prop
  | ready {w} (hpc : w.pc = .starting) :
    WorkerStep m w { w with pc := .waiting, threadReady := true }
  | readyFails {w} (hpc : w.pc = .starting) : WorkerStep m w { w with pc := .failed }
  | wake {w} (hpc : w.pc = .waiting) (hdata : w.dataReady = true) :
    WorkerStep m w { w with pc := .testing, dataReady := false }
  | waitFails {w} (hpc : w.pc = .waiting) : WorkerStep m w { w with pc := .failed }
  | more {w} (hpc : w.pc = .testing) (hsize : m.readSize m.procBufnum ≠ 0) :
    WorkerStep m w { w with pc := .calling }
  | call {w} (hpc : w.pc = .calling) :
    WorkerStep m w { w with pc := .hashing m.procBufnum (m.readSize m.procBufnum) 0 }
  | feed {w b n k} (hpc : w.pc = .hashing b n k) (hk : k < n) :
    WorkerStep m w { w with pc := .hashing b n (k + 1), fed := w.fed ++ [m.buffer b k] }
  | written {w b n} (hpc : w.pc = .hashing b n n) : WorkerStep m w { w with pc := .signalling }
  | signal {w} (hpc : w.pc = .signalling) :
    WorkerStep m w { w with pc := .waiting, threadReady := true }
  | signalFails {w} (hpc : w.pc = .signalling) : WorkerStep m w { w with pc := .failed }
  | finish {w} (hpc : w.pc = .testing) (hsize : m.readSize m.procBufnum = 0) :
    WorkerStep m w { w with pc := .finished }

end IndividualHashThread

section HashThread

inductive ReaderPc where
  | launch
  | head
  | waitRead
  | launchNext
  | waitThreads
  | setProc
  | signal (next : ℕ)
  | joining
  | done
  deriving DecidableEq

/-- The asynchronous read: none, under way, or complete with its size. -/
inductive Flight where
  | idle
  | pending
  | complete (count : ℕ)

/-- The shared state of n hash threads and the reader, which has given up once the
aborted flag is set. -/
structure State (n : ℕ) extends Memory where
  readBufnum : Fin 3
  offset : ℕ
  flight : Flight
  pc : ReaderPc
  aborted : Bool
  worker : Fin n → Worker

/-- Sizes a read at an offset can return: nothing at the end of the file only. -/
def ReadCount (file : List UInt8) (offset count : ℕ) : Prop :=
  offset + count ≤ file.length ∧ count ≤ bufferSize ∧ (count = 0 ↔ file.length ≤ offset)

instance (file : List UInt8) (offset count : ℕ) : Decidable (ReadCount file offset count) :=
  inferInstanceAs (Decidable (_ ∧ _ ∧ _))

variable {n : ℕ} (file : List UInt8)

inductive Step : State n → State n → Prop
  | worker {s w} (i : Fin n) (h : WorkerStep s.toMemory (s.worker i) w) :
    Step s { s with worker := Function.update s.worker i w }
  | transfer {s} (hf : s.flight = .pending) (data : ℕ → UInt8) :
    Step s { s with buffer := Function.update s.buffer s.readBufnum data }
  | complete {s} (hf : s.flight = .pending) (data : ℕ → UInt8) (count : ℕ)
      (hc : ReadCount file s.offset count)
      (hd : ∀ k < count, data k = file.getD (s.offset + k) 0) :
    Step s { s with
      buffer := Function.update s.buffer s.readBufnum data
      flight := .complete count }
  | abort {s} (hpc : s.pc ≠ .done) : Step s { s with aborted := true }
  | launch {s} (ha : s.aborted = false) (hpc : s.pc = .launch) :
    Step s { s with
      readBufnum := 0
      procBufnum := 1
      readSize := Function.update s.readSize 1 1
      flight := .pending
      pc := .head }
  | enter {s} (ha : s.aborted = false) (hpc : s.pc = .head)
      (hsize : s.readSize s.procBufnum ≠ 0) : Step s { s with pc := .waitRead }
  | leave {s} (ha : s.aborted = false) (hpc : s.pc = .head)
      (hsize : s.readSize s.procBufnum = 0) : Step s { s with pc := .joining }
  | readDone {s count} (ha : s.aborted = false) (hpc : s.pc = .waitRead)
      (hf : s.flight = .complete count) :
    Step s { s with
      readSize := Function.update s.readSize s.readBufnum count
      offset := s.offset + count
      flight := .idle
      pc := .launchNext }
  | launchNext {s} (ha : s.aborted = false) (hpc : s.pc = .launchNext) :
    Step s { s with readBufnum := s.readBufnum + 1, flight := .pending, pc := .waitThreads }
  | threadsReady {s} (ha : s.aborted = false) (hpc : s.pc = .waitThreads)
      (hr : ∀ i, (s.worker i).threadReady = true) :
    Step s { s with
      worker := fun i => { s.worker i with threadReady := false }
      pc := .setProc }
  | setProc {s} (ha : s.aborted = false) (hpc : s.pc = .setProc) :
    Step s { s with procBufnum := s.readBufnum + 2, pc := .signal 0 }
  | signal {s} (i : Fin n) (ha : s.aborted = false) (hpc : s.pc = .signal i) :
    Step s { s with
      worker := Function.update s.worker i { s.worker i with dataReady := true }
      pc := .signal (i + 1) }
  | signalled {s} (ha : s.aborted = false) (hpc : s.pc = .signal n) : Step s { s with pc := .head }
  | joined {s} (ha : s.aborted = false) (hpc : s.pc = .joining)
      (hw : ∀ i, (s.worker i).pc = .finished ∨ (s.worker i).pc = .failed) :
    Step s { s with pc := .done }

/-- Threads just created, the file at its start, anything at all in the globals. -/
structure Initial (s : State n) : Prop where
  pc : s.pc = .launch
  offset : s.offset = 0
  flight : s.flight = .idle
  worker : ∀ i, s.worker i = ⟨.starting,[],false,false⟩

def Reachable (s : State n) : Prop := ∃ s₀, Initial s₀ ∧ Relation.ReflTransGen (Step file) s₀ s

end HashThread

end SecureWipeOut.HashThread
