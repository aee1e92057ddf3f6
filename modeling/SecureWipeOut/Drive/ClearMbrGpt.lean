import SecureWipeOut.Drive.Sectors
import SecureWipeOut.Lib.ByteStore
import SecureWipeOut.Lib.CInt

/-! # Clearing the partition tables

`ClearMBRGPT` writes zeros from one buffer to both ends of a drive. The buffer is as long as the
first write, and the second one may be longer.
-/
namespace SecureWipeOut.ClearMbrGpt
open ByteStore CInt Sectors

def maxSectorsToClear : ℕ := 128

section Model

def numSectorsToClear (firstDataSector : ℕ) (add1MB : Bool) : ℕ :=
  let full := (if add1MB then 2048 else 0) + maxSectorsToClear
  if min firstDataSector full < 4 then full else min firstDataSector full

variable {σ : Type*} (h : Handle σ) (largeDrive : Bool)

/-- Whether the function returns `TRUE`; the buffer is what `calloc` answers. -/
def clearMbrGpt (calloc : ℕ → Option (ℕ → UInt8)) (firstDataSector diskSize sectorSize : ℕ) (add1MB : Bool) (s : σ) :
    Bool × σ :=
  let size := sectorSize * numSectorsToClear firstDataSector add1MB
  match calloc size with
  | none => (false,s)
  | some zeroBuf =>
    -- a failure leaves a warning only
    let s := (h.setFilePointerEx 0 s).2
    let w := writeFileWithRetry h largeDrive zeroBuf (dword size) writeRetries s
    if !w.1.ok then (false,w.2)
    else
      let c := h.cancelled w.2
      if c.1 then (false,c.2)
      else
        let seek := h.setFilePointerEx (qsub diskSize (sectorSize * maxSectorsToClear)) c.2
        if !seek.1 then (true,seek.2)
        else (true,(writeFileWithRetry h largeDrive zeroBuf (dword (sectorSize * maxSectorsToClear)) writeRetries seek.2).2)

end Model

section Disk

/-- What the drive does at a call: a write that is not accepted may still have stored some of its
sectors. -/
structure Answer where
  ok : Bool
  count : ℕ
  stored : ℕ → Bool
  pointerKnown : Bool
  cancelled : Bool

/-- The bytes asked for by a write, and whether it was accepted. -/
structure Request where
  size : ℕ
  accepted : Bool
  deriving DecidableEq

structure Disk where
  data : ℕ → UInt8
  pos : ℕ
  requests : List Request

/-- The store after the sectors of a mask have received what is in the buffer. -/
def store (sectorSize : ℕ) (data : ℕ → UInt8) (pos n : ℕ) (buf : ℕ → UInt8) (mask : ℕ → Bool) : ℕ → UInt8 :=
  fun i => if pos ≤ i ∧ i < pos + n ∧ mask ((i - pos) / sectorSize) = true then buf (i - pos) else data i

/-- The answers that report all of the bytes, or none of them on a large drive. -/
def Answer.accepts (a : Answer) (largeDrive : Bool) (n : ℕ) : Bool :=
  a.ok && (min a.count n == n || largeDrive && min a.count n == 0)

/-- A drive whose answers come from an environment. What it accepts it has stored; a position
is a signed value of 64 bits. -/
def disk (sectorSize : ℕ) (largeDrive : Bool) (env : ℕ → Answer) : Handle Disk where
  getFilePointer d := (if (env d.requests.length).pointerKnown then some d.pos else none,d)
  setFilePointerEx li d := if li < 2 ^ 63 then (true,{d with pos := li}) else (false,d)
  readFile n d := (⟨true,n,fun i => d.data (d.pos + i)⟩,{d with pos := d.pos + n})
  writeFile buf n d :=
    let a := env d.requests.length
    (⟨a.ok,min a.count n⟩,⟨store sectorSize d.data d.pos n buf fun k => a.accepts largeDrive n || a.stored k,
      d.pos + min a.count n,d.requests ++ [⟨n,a.accepts largeDrive n⟩]⟩)
  cancelled d := ((env d.requests.length).cancelled,d)
  read_le _ _ := le_refl _
  write_le _ _ _ := Nat.min_le_right _ _

end Disk

section Specification

/-- A drive in whole sectors. -/
structure Geometry where
  sectorSize : ℕ
  sectors : ℕ
  firstDataSector : ℕ
  add1MB : Bool
  sectorSize_pos : 0 < sectorSize
  sectorSize_lt : sectorSize < 2 ^ 32
  le_sectors : maxSectorsToClear ≤ sectors
  diskSize_lt : sectors * sectorSize < 2 ^ 63

variable (g : Geometry)

def Geometry.num : ℕ := numSectorsToClear g.firstDataSector g.add1MB

/-- A run that begins with a drive on which nothing has been written. -/
def Geometry.run (largeDrive : Bool) (env : ℕ → Answer) (calloc : ℕ → Option (ℕ → UInt8)) (data : ℕ → UInt8)
    (pos : ℕ) : Bool × Disk :=
  clearMbrGpt (disk g.sectorSize largeDrive env) largeDrive calloc g.firstDataSector (g.sectors * g.sectorSize)
    g.sectorSize g.add1MB ⟨data,pos,[]⟩

def Callocs (calloc : ℕ → Option (ℕ → UInt8)) : Prop :=
  ∀ size buf, calloc size = some buf → ∀ i < size, buf i = 0

/-- What is asked of one run. -/
structure Cleared (data : ℕ → UInt8) (run : Bool × Disk) : Prop where
  sources : ∀ q ∈ run.2.requests, q.size ≤ g.sectorSize * g.num
  leading : run.1 = true → ∀ i < g.num * g.sectorSize, run.2.data i = 0
  trailing : run.1 = true → ∀ k < g.sectors, g.sectors ≤ k + maxSectorsToClear →
    (∀ i, k * g.sectorSize ≤ i → i < (k + 1) * g.sectorSize → run.2.data i = 0) ∨
      run.2.requests.getLast?.map Request.accepted = some false ∧
        ∀ i, k * g.sectorSize ≤ i → i < (k + 1) * g.sectorSize → run.2.data i = data i
  others : ∀ i, g.num * g.sectorSize ≤ i →
    i < (g.sectors - maxSectorsToClear) * g.sectorSize ∨ g.sectors * g.sectorSize ≤ i → run.2.data i = data i

/-- Whatever the drive answers and holds, both ends are cleared with zeros of the buffer. -/
def Clears : Prop :=
  ∀ largeDrive env calloc data pos, Callocs calloc → Cleared g data (g.run largeDrive env calloc data pos)

/-- The second write fits the buffer, and the length of the buffer fits its type. -/
def Fits : Prop :=
  (g.firstDataSector < 4 ∨ maxSectorsToClear ≤ g.firstDataSector) ∧ g.sectorSize * g.num < 2 ^ 32

end Specification

end SecureWipeOut.ClearMbrGpt
