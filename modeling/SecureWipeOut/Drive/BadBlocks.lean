import SecureWipeOut.Lib.Loop
import SecureWipeOut.Drive.Sectors
import SecureWipeOut.Drive.BadBlockList

/-! # The bad block test

Every pass writes a pattern over the range and reads it back. A transfer that
moves less than was asked for drops to single blocks until a full request's
worth of blocks has been gone through. Reads and comparisons are recorded as they
happen, together with the list of bad blocks at the time of the read.
-/
namespace SecureWipeOut.BadBlocks
open Sectors BadBlockList

def PB : ℕ := 2 ^ 50
def maxBb : ℕ := 256
def noRecover : ℕ := 2 ^ 64 - 1

/-- The arguments and settings of a test. The generator stands for the bytes of the
random pattern, and the id offset for its scaled random value. -/
structure Params where
  firstBlock : ℕ
  lastBlock : ℕ
  blockSize : ℕ
  blocksAtOnce : ℕ
  detectFakes : Bool
  largeDrive : Bool
  idOffset : ℕ
  random : ℕ → ℕ → UInt8
  atOnce_pos : 0 < blocksAtOnce
  idOffset_le : idOffset + 8 ≤ blockSize
  first_lt : firstBlock * blockSize < 2 ^ 64
  last_lt : lastBlock * blockSize < 2 ^ 64

inductive ErrorType where
  | read
  | write
  | corruption

structure Read where
  start : ℕ
  tryout : ℕ
  got : ℕ
  data : ℕ → UInt8
  listed : List ℕ

structure Compare where
  read : Read
  index : ℕ

def Compare.block (c : Compare) : ℕ := c.read.start + c.index

structure PassRecord where
  patIdx : ℕ
  pattern : ℕ
  reads : List Read
  compares : List Compare
  listed : List ℕ

structure State (σ : Type*) where
  dev : σ
  bbList : U64List
  bbCount : ℕ
  numReadErrors : ℕ
  numWriteErrors : ℕ
  numCorruptionErrors : ℕ
  currentlyTesting : ℕ
  tryout : ℕ
  recoverBlock : ℕ
  buffer : ℕ → UInt8
  reads : List Read
  compares : List Compare
  passes : List PassRecord

inductive Exit where
  | finished
  | cancelled
  | aborted
  deriving DecidableEq

variable {σ : Type*} (h : Handle σ) (p : Params)

def bbOutput (bad : ℕ) (error : ErrorType) (s : State σ) : State σ :=
  if test s.bbList bad then s
  else
    let s := { s with bbList := add s.bbList bad, bbCount := s.bbCount + 1 }
    match error with
    | .read => { s with numReadErrors := s.numReadErrors + 1 }
    | .write => { s with numWriteErrors := s.numWriteErrors + 1 }
    | .corruption => { s with numCorruptionErrors := s.numCorruptionErrors + 1 }

/-- The significant bytes of a pattern, most significant first, repeated; a zero
pattern is one zero byte. -/
def patternFill (patIdx pattern : ℕ) : ℕ → UInt8 :=
  if pattern = 2 ^ 32 - 1 then p.random patIdx
  else
    let nb := (Nat.digits 256 pattern).length - 1
    fun i => UInt8.ofNat (pattern / 256 ^ (nb - i % (nb + 1)))

/-- Block numbers, as 64-bit little-endian words, at the id offset of every slot. -/
def writeIds (start : ℕ) (buffer : ℕ → UInt8) : ℕ → UInt8 := fun i =>
  let slot := i / p.blockSize
  let off := i % p.blockSize
  if slot < p.blocksAtOnce ∧ p.idOffset ≤ off ∧ off < p.idOffset + 8 then
    UInt8.ofNat ((start + slot) / 256 ^ (off - p.idOffset))
  else buffer i

def markBuffer (patIdx start : ℕ) (buffer : ℕ → UInt8) : ℕ → UInt8 :=
  if p.detectFakes && patIdx == 0 then writeIds p start buffer else buffer

/-- What a request that starts at the given block writes and is compared with. -/
def expected (patIdx pattern start : ℕ) : ℕ → UInt8 :=
  markBuffer p patIdx start (patternFill p patIdx pattern)

def blocksOf (bytes : ℤ) : ℕ := bytes.toNat / p.blockSize

def doWrite (buffer : ℕ → UInt8) (tryout block : ℕ) (dev : σ) : ℕ × σ :=
  let w := writeSectors h p.largeDrive p.blockSize block tryout buffer dev
  (blocksOf p w.1,w.2)

def doRead (tryout block : ℕ) (dev : σ) : (ℕ × (ℕ → UInt8)) × σ :=
  let r := readSectors h p.blockSize block tryout dev
  ((blocksOf p r.1.1,r.1.2),r.2)

def clamp (current tryout : ℕ) : ℕ :=
  if p.lastBlock < current + tryout then p.lastBlock - current else tryout

/-- A request of one block that moved nothing records the block and goes on. -/
def record (error : ErrorType) (got : ℕ) (s : State σ) : State σ :=
  if got = 0 ∧ s.tryout = 1 then
    let s' := bbOutput s.currentlyTesting error s
    { s' with currentlyTesting := s.currentlyTesting + 1 }
  else s

/-- Going past the blocks moved, and the size of the next request. -/
def advance (got : ℕ) (s : State σ) : State σ :=
  let current := s.currentlyTesting + got
  if got ≠ s.tryout then
    { s with
      currentlyTesting := current
      tryout := 1
      recoverBlock :=
        if s.recoverBlock = noRecover then current - got + p.blocksAtOnce else s.recoverBlock }
  else if current = s.recoverBlock then
    { s with currentlyTesting := current, tryout := p.blocksAtOnce, recoverBlock := noRecover }
  else { s with currentlyTesting := current }

/-- The tests at the head of both loops: their end, a cancellation, too many errors. -/
def guard (s : State σ) : State σ ⊕ (Exit × State σ) :=
  if s.currentlyTesting < p.lastBlock then
    let c := h.cancelled s.dev
    let s := { s with dev := c.2 }
    if c.1 then .inr (.cancelled,s)
    else if maxBb ≤ s.bbCount then .inr (.aborted,s)
    else .inl { s with tryout := clamp p s.currentlyTesting s.tryout }
  else .inr (.finished,s)

def writeStep (patIdx : ℕ) (s : State σ) : State σ ⊕ (Exit × State σ) :=
  match guard h p s with
  | .inr e => .inr e
  | .inl s =>
    let buffer := markBuffer p patIdx s.currentlyTesting s.buffer
    let w := doWrite h p buffer s.tryout s.currentlyTesting s.dev
    .inl (advance p w.1 (record .write w.1 { s with buffer := buffer, dev := w.2 }))

def sameBlock (data buffer : ℕ → UInt8) (index : ℕ) : Bool :=
  (List.range p.blockSize).all fun j =>
    data (index * p.blockSize + j) == buffer (index * p.blockSize + j)

/-- The comparisons left for a full read, from the given slot on. A difference on a
drive that reaches the size limit leaves the test. -/
def compareBlocks (r : Read) : ℕ → ℕ → State σ → Bool × State σ
  | _, 0, s => (true,s)
  | i, left + 1, s =>
    let seen := { s with compares := s.compares ++ [⟨r,i⟩] }
    if sameBlock p r.data s.buffer i then compareBlocks r (i + 1) left seen
    else if s.currentlyTesting * p.blockSize < PB then
      compareBlocks r (i + 1) left (bbOutput (s.currentlyTesting + i - r.got) .corruption seen)
    else (false,seen)

def readStep (patIdx : ℕ) (s : State σ) : State σ ⊕ (Exit × State σ) :=
  match guard h p s with
  | .inr e => .inr e
  | .inl s =>
    let buffer := markBuffer p patIdx s.currentlyTesting s.buffer
    let d := doRead h p s.tryout s.currentlyTesting s.dev
    let r : Read := ⟨s.currentlyTesting,s.tryout,d.1.1,d.1.2,s.bbList.list⟩
    let s := { s with buffer := buffer, dev := d.2, reads := s.reads ++ [r] }
    let s' := advance p r.got (record .read r.got s)
    if r.got ≠ r.tryout then .inl s'
    else
      let c := compareBlocks p r 0 r.got s'
      if c.1 then .inl c.2 else .inr (.aborted,c.2)

def fuel : ℕ := 2 * p.lastBlock + 2

def pass (patIdx pattern : ℕ) (s : State σ) : Option (Exit × State σ) :=
  let c := h.cancelled s.dev
  if c.1 then some (.cancelled,{ s with dev := c.2 })
  else
    let start : State σ := { s with
      dev := c.2
      buffer := patternFill p patIdx pattern
      currentlyTesting := p.firstBlock
      tryout := p.blocksAtOnce }
    match Loop.run (writeStep h p patIdx) (fuel p) start with
    | some (.finished,s) =>
      let start : State σ := { s with
        currentlyTesting := p.firstBlock
        tryout := p.blocksAtOnce
        reads := []
        compares := [] }
      match Loop.run (readStep h p patIdx) (fuel p) start with
      | some (.finished,s) =>
        some (.finished,{ s with
          passes := s.passes ++ [⟨patIdx,pattern,s.reads,s.compares,s.bbList.list⟩] })
      | e => e
    | e => e

def runPasses : ℕ → List ℕ → State σ → Option (State σ)
  | _, [], s => some s
  | patIdx, pattern :: rest, s =>
    match pass h p patIdx pattern s with
    | none => none
    | some (.finished,s) => runPasses (patIdx + 1) rest s
    | some (_,s) => some s

def badblockPatterns : List (List ℕ) :=
  [[0x55,0x00,0x00,0x00],[0x55,0xaa,0x00,0x00],[0x00,0xff,0x55,0xaa],[0x00,0xff,0x33,0xcc],
    [0x00,0xff,0x1c71c7,0xe38e38]]
def badblockPatternCount : ℕ := 4

/-- The test over the first passes of the chosen row of the pattern table; arguments
that are refused cancel it before any pass. -/
def testRw (table : List (List ℕ)) (patternType nbPasses : ℤ) (s : State σ) : Option (State σ) :=
  let start := { s with passes := [] }
  if patternType < 0 ∨ (table.length : ℤ) ≤ patternType then some start
  else if nbPasses < 1 ∨ (badblockPatternCount : ℤ) < nbPasses then some start
  else if PB < p.firstBlock * p.blockSize ∨ PB < p.lastBlock * p.blockSize then some start
  else runPasses h p 0 ((table.getD patternType.toNat []).take nbPasses.toNat) start

end SecureWipeOut.BadBlocks
