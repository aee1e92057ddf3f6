import SecureWipeOut.Lib.Loop

/-! # Downloads

A download goes to a file or into a buffer, whose size comes from the length that the server
declares. The data comes in chunks until the server has no more, and only then its length is
compared with the declared one. On failure the file is deleted or the buffer freed.
-/
namespace SecureWipeOut.Download
open Loop

def downloadBufferSize : ℕ := 10 * 1024

/-- The builds differ in the width of `size_t`. -/
inductive Build
  | x86
  | x64

def Build.sizeT : Build → ℕ
  | .x86 => 2 ^ 32
  | .x64 => 2 ^ 64

/-- A round of the loop: whether an error has been set meanwhile, the data that the server
delivers (none where the read fails), whether the write to the file succeeds and the number
of bytes it reports. -/
structure Round where
  cancelled : Bool
  read : Option (List UInt8)
  ok : Bool
  written : ℕ

/-- The data of a round, which fits the receive buffer. -/
def Round.chunk (r : Round) : List UInt8 := (r.read.getD []).take downloadBufferSize

/-- The arguments that matter and the outcomes of the other calls: whether there is a file and
a buffer to fill, whether the request comes as far as the length, the file can be created and
the buffer allocated, whether the file can be deleted, and what it held before. -/
structure Request where
  file : Bool
  buffer : Bool
  prepared : Bool
  created : Bool
  allocated : Bool
  deleted : Bool
  existing : Option (List UInt8)

structure State where
  round : ℕ
  size : UInt64
  block : List UInt8
  out : List UInt8

/-- How the loop is left: with a store behind the block, or with what is there and whether it
is complete. -/
inductive Left
  | overrun
  | left (r : Bool) (s : State)

/-- The returned size, the buffer and the file. -/
structure Result where
  ret : UInt64
  buffer : Option (List UInt8)
  file : Option (List UInt8)

inductive Ending
  | overrun
  | returned (d : Result)

def memcpy (block : List UInt8) (i : ℕ) (chunk : List UInt8) : List UInt8 :=
  block.take i ++ chunk ++ block.drop (i + chunk.length)

section download
variable (b : Build) (q : Request) (totalSize : UInt64) (rounds : ℕ → Round)

def downloadStep (s : State) : State ⊕ Left :=
  let r := rounds s.round
  if r.cancelled then .inr (.left false s)
  else if r.chunk = [] then .inr (.left (s.size == totalSize) s)
  else
    let size := s.size + UInt64.ofNat r.chunk.length
    if q.file then
      let out := s.out ++ r.chunk.take r.written
      if r.ok && r.chunk.length ≤ r.written then .inl ⟨s.round + 1,size,s.block,out⟩
      else .inr (.left false { s with out := out })
    else if s.block.length < s.size.toNat + r.chunk.length then .inr .overrun
    else .inl ⟨s.round + 1,size,memcpy s.block s.size.toNat r.chunk,s.out⟩

/-- What follows the label `out`. -/
def finish (r : Bool) (size : UInt64) (buffer file : Option (List UInt8)) : Result :=
  if r then ⟨size,buffer,file⟩
  else ⟨0,none,if q.file && q.deleted then none else file⟩

/-- The size that `calloc` is asked for, computed in `size_t`. -/
def callocSize : ℕ := (totalSize.toNat % b.sizeT + 2) % b.sizeT

def Left.ending : Left → Ending
  | .overrun => .overrun
  | .left r s => .returned (finish q r s.size (if q.file then none else some s.block)
      (if q.file then some s.out else none))

def downloadToFileOrBufferEx (fuel : ℕ) : Option Ending :=
  let existing := if q.file then q.existing else none
  if !q.prepared then some (.returned (finish q false 0 none existing))
  else if q.file then
    if !q.created then some (.returned (finish q false 0 none existing))
    else (run (downloadStep q totalSize rounds) fuel ⟨0,0,[],[]⟩).map (Left.ending q)
  else if !q.buffer then some (.returned (finish q false 0 none none))
  else if !q.allocated then some (.returned (finish q false 0 none none))
  else (run (downloadStep q totalSize rounds) fuel
    ⟨0,0,List.replicate (callocSize b totalSize) 0,[]⟩).map (Left.ending q)

end download

/-- The data of the first rounds. -/
def body (rounds : ℕ → Round) : ℕ → List UInt8
  | 0 => []
  | k + 1 => body rounds k ++ (rounds k).chunk

/-- What a call may leave: nothing when it returns zero, and else all the data up to the round
in which the server has no more, as much of it as declared. Two zeros end a buffer. -/
def Delivers (q : Request) (totalSize : UInt64) (rounds : ℕ → Round) : Ending → Prop
  | .overrun => False
  | .returned d =>
    if d.ret = 0 then d.buffer = none ∧ d.file = none
    else ∃ k, (∀ j < k, (rounds j).chunk ≠ []) ∧ (rounds k).chunk = [] ∧
      (body rounds k).length = totalSize.toNat ∧
      if q.file then d.file = some (body rounds k)
      else d.buffer = some (body rounds k ++ [0,0])

/-- The buffer gets the size meant, and the call leaves what it may whenever it ends. -/
def Sound (b : Build) (q : Request) (totalSize : UInt64) (rounds : ℕ → Round) : Prop :=
  (q.prepared = true → q.file = false → q.buffer = true →
    callocSize b totalSize = totalSize.toNat + 2) ∧
  ∀ fuel e, downloadToFileOrBufferEx b q totalSize rounds fuel = some e →
    Delivers q totalSize rounds e

end SecureWipeOut.Download
