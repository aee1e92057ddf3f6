import SecureWipeOut.Lib.CInt
import SecureWipeOut.Lib.Ranges
import SecureWipeOut.Drive.FileIO

/-! # The zeroing branch of WriteDrive

The loop goes over the drive in blocks of one buffer. In fast mode a block that
reads back as all zeros or all ones is left alone, a throttle counter spacing
the reads out; every other block is overwritten, with up to four attempts that
each start from a repositioned file pointer. The blocks gone through are
recorded together with what was read when a write was skipped.
-/
namespace SecureWipeOut.ZeroDrive
open ByteStore CInt Ranges FileIO

def writeRetries : ℕ := 4
def ddBufferSize : ℕ := 32 * 1048576

inductive Action where
  | skipped (seen : ℕ → UInt8)
  | written

structure Block where
  off : ℕ
  len : ℕ
  action : Action

/-- What the branch reads of the drive and the settings, and whether each of its
two buffers could be allocated. -/
structure Params where
  diskSize : ℕ
  sectorSize : ℕ
  fastZeroing : Bool
  bufferOk : Bool
  cmpBufferOk : Bool
  diskSize_lt : diskSize < 2 ^ 63
  sectorSize_lt : sectorSize < 2 ^ 32

/-- The aligned allocator refuses an alignment that is not a power of two. -/
def mmMalloc (available : Bool) (alignment : ℕ) : Bool :=
  available && 2 ^ alignment.log2 == alignment

def bufSize (sectorSize : ℕ) : ℕ :=
  dword ((ddBufferSize + sectorSize - 1) / sectorSize * sectorSize)

def fillByte (p : Params) : UInt8 := if p.fastZeroing then 0xff else 0x00

/-- One element of the comparison buffer, read as a little-endian 32-bit word. -/
def cmpWord (buf : ℕ → UInt8) (i : ℕ) : ℕ :=
  (buf (4 * i)).toNat + 2 ^ 8 * (buf (4 * i + 1)).toNat +
    2 ^ 16 * (buf (4 * i + 2)).toNat + 2 ^ 24 * (buf (4 * i + 3)).toNat

def emptyBlock (cmp : ℕ → UInt8) (readSize : ℕ) : Bool :=
  let zeroData := cmpWord cmp 0
  (zeroData == 0 || zeroData == 0xffffffff) &&
    (List.range' 1 (readSize / 4 - 1)).all (fun i => cmpWord cmp i == zeroData)

variable (env : ℕ → Answer) (p : Params)

/-- The write attempts that remain for one block; the last failure gives up. -/
def writeTries (wb readSize : ℕ) : ℕ → Drive → Drive × Bool
  | 0, d => (d,false)
  | tries + 1, d =>
    if userCancel env d then (d,false)
    else
      let w := writeFile env (fun _ => fillByte p) readSize d
      if w.ok && w.count == readSize then (w.drive,true)
      else if tries = 0 then (w.drive,false)
      else
        let s := setFilePointerEx env wb w.drive
        if s.1 then writeTries wb readSize tries s.2 else (s.2,false)

structure Loop where
  wb : ℕ
  readSize : ℕ
  throttle : ℕ
  drive : Drive
  blocks : List Block

/-- The size of the next transfer: clipped to the target, then to whole sectors. -/
def nextSize (wb readSize : ℕ) : ℕ :=
  let r := if wb + readSize > p.diskSize then dword (p.diskSize - wb) else readSize
  if r % p.sectorSize ≠ 0 then
    dword (dword (r + p.sectorSize - 1) / p.sectorSize * p.sectorSize)
  else r

def advance (s : Loop) (d : Drive) (a : Action) : Loop :=
  { s with wb := s.wb + s.readSize, drive := d, blocks := s.blocks ++ [⟨s.wb,s.readSize,a⟩] }

def writeStep (s : Loop) : Loop × Bool :=
  let w := writeTries env p s.wb s.readSize writeRetries s.drive
  if w.2 then (advance s w.1 .written,true) else ({ s with drive := w.1 },false)

/-- One pass through the loop body; false stands for the jump to the exit label. -/
def zeroStep (s₀ : Loop) : Loop × Bool :=
  let s := { s₀ with readSize := nextSize p s₀.wb s₀.readSize }
  if s.throttle ≠ 0 then writeStep env p { s with throttle := s.throttle - 1 }
  else if p.fastZeroing then
    if userCancel env s.drive then (s,false)
    else
      let r := readFile env s.readSize s.drive
      if !r.ok || r.count != s.readSize then ({ s with drive := r.drive },false)
      else if emptyBlock r.buf s.readSize then (advance s r.drive (.skipped r.buf),true)
      else
        let q := setFilePointerEx env s.wb r.drive
        if q.1 then writeStep env p { s with drive := q.2, throttle := 15 }
        else ({ s with drive := q.2 },false)
  else writeStep env p s

/-- The loop; none stands for exhausted fuel. -/
def zeroLoop : ℕ → Loop → Option (Loop × Bool)
  | fuel, s =>
    if s.wb < p.diskSize then
      match fuel with
      | 0 => none
      | fuel + 1 =>
        let r := zeroStep env p s
        if r.2 then zeroLoop fuel r.1 else some r
    else some (s,true)

def writeDrive (d : Drive) : Option (Loop × Bool) :=
  let init : Loop := ⟨0,bufSize p.sectorSize,0,d,[]⟩
  if p.sectorSize < 512 then some (init,false)
  else
    let rewound := { init with drive := (setFilePointerEx env 0 d).2 }
    if !mmMalloc p.bufferOk p.sectorSize then some (rewound,false)
    else if p.fastZeroing && !mmMalloc p.cmpBufferOk p.sectorSize then some (rewound,false)
    else zeroLoop env p p.diskSize rewound

end SecureWipeOut.ZeroDrive
