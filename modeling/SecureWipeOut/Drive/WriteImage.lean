import SecureWipeOut.Lib.Loop
import SecureWipeOut.Drive.ZeroDriveBlocks

/-! # The raw image branch of WriteDrive

The image is read into two buffers in turn. While one is written to the drive, a read
into the other is under way, and what that one holds meanwhile is arbitrary; a read
that has completed has delivered all that was asked for, up to the end of the image.
Every read launched is recorded with its offset and its size.
-/
namespace SecureWipeOut.WriteImage
open ByteStore CInt FileIO Loop ZeroDrive

/-- What the branch is given: the source, a file or a mounted disk image, and the drive. -/
structure Params where
  image : List UInt8
  vhd : Bool
  sourceOk : Bool
  diskSize : ℕ
  sectorSize : ℕ
  bufferOk : Bool
  diskSize_lt : diskSize < 2 ^ 63
  image_lt : image.length < 2 ^ 63
  sectorSize_lt : sectorSize < 2 ^ 32

/-- A mounted image is written in full, a file as far as the drive goes. -/
def targetSize (p : Params) : ℕ := if p.vhd then p.image.length else min p.diskSize p.image.length

/-- What the reads of the source answer: whether each can be waited for, and what its
buffer holds while it is under way. -/
structure Source where
  ok : ℕ → Bool
  stray : ℕ → ℕ → UInt8

structure State where
  wb : ℕ
  readSize : Fin 2 → ℕ
  readBufnum : Fin 2
  procBufnum : Fin 2
  buffer : Fin 2 → ℕ → UInt8
  offset : ℕ
  request : ℕ
  launches : List (ℕ × ℕ)
  drive : Drive

variable (env : ℕ → Answer) (src : Source) (p : Params)

/-- The write attempts that remain for one buffer. -/
def writeTries (buf : ℕ → UInt8) (wb size : ℕ) : ℕ → Drive → Drive × Bool
  | 0, d => (d,false)
  | tries + 1, d =>
    if userCancel env d then (d,false)
    else
      let w := writeFile env buf size d
      if w.ok && w.count == size then (w.drive,true)
      else if tries = 0 then (w.drive,false)
      else
        let s := setFilePointerEx env wb w.drive
        if s.1 then writeTries buf wb size tries s.2 else (s.2,false)

def readFileAsync (n : ℕ) (s : State) : State :=
  {s with
    buffer := Function.update s.buffer s.readBufnum
      (overwrite (s.buffer s.readBufnum) 0 n (src.stray s.launches.length))
    request := n
    launches := s.launches ++ [(s.offset,n)]}

/-- The read under way has completed and its size has been taken. -/
def getSizeAsync (s : State) : State :=
  let count := min s.request (p.image.length - s.offset)
  {s with
    buffer := Function.update s.buffer s.readBufnum
      (overwrite (s.buffer s.readBufnum) 0 count fun i => p.image.getD (s.offset + i) 0)
    readSize := Function.update s.readSize s.readBufnum count
    offset := s.offset + count}

/-- CEILING_ALIGN on 32 bits. -/
def ceilingAlign (x y : ℕ) : ℕ := dword (dword (x + y - 1) / y * y)

/-- The buffers change roles, and the next read is launched. -/
def nextRead (size : ℕ) (s : State) : State :=
  readFileAsync src (min (bufSize p.sectorSize) (qsub (targetSize p) (qword (s.wb + size))))
    {s with
      readSize := Function.update s.readSize s.readBufnum size
      procBufnum := s.readBufnum
      readBufnum := s.readBufnum + 1}

/-- One turn of the loop; it is left with the value that the function returns. -/
def imageStep (s : State) : State ⊕ (State × Bool) :=
  if s.readSize s.procBufnum = 0 then .inr (s,true)
  else if targetSize p ≤ s.wb then .inr (s,true)
  else if !src.ok s.launches.length then .inr (s,false)
  else
    let s := getSizeAsync p s
    let size := s.readSize s.readBufnum
    if size % p.sectorSize ≠ 0 ∧ bufSize p.sectorSize < ceilingAlign size p.sectorSize then .inr (s,false)
    else
      let size := if size % p.sectorSize ≠ 0 then ceilingAlign size p.sectorSize else size
      let s := nextRead src p size s
      let w := writeTries env (s.buffer s.procBufnum) s.wb size writeRetries s.drive
      if w.2 then .inl {s with wb := qword (s.wb + size), drive := w.1}
      else .inr ({s with drive := w.1},false)

/-- The branch up to its loop, with what the allocated buffers hold. -/
def writeImage (mem : Fin 2 → ℕ → UInt8) (d : Drive) : Option (State × Bool) :=
  let s : State := ⟨0,fun _ => 0,0,1,mem,0,0,[],d⟩
  if p.sectorSize < 512 then some (s,false)
  else
    let s := {s with drive := (setFilePointerEx env 0 d).2}
    if !p.sourceOk || (p.vhd && targetSize p == 0) then some (s,false)
    else if !mmMalloc p.bufferOk p.sectorSize then some (s,false)
    else
      let s := readFileAsync src (min (bufSize p.sectorSize) (targetSize p)) s
      run (imageStep env src p) (targetSize p + 1) {s with readSize := Function.update s.readSize 1 1}

section Specification

/-- No read is launched beyond the target, and after a success the drive holds the
image up to the target, zeros up to the next sector and else what it held. -/
def Exact (p : Params) : Prop :=
  ∀ env src mem d, (setFilePointerEx env 0 d).1 = true → ∃ s ok, writeImage env src p mem d = some (s,ok) ∧
    (∀ r ∈ s.launches, r.1 + r.2 ≤ targetSize p) ∧ (ok = true →
      (∀ i < targetSize p, s.drive.data i = p.image.getD i 0) ∧
      (∀ i, targetSize p ≤ i → i < ceilAlign (targetSize p) p.sectorSize → s.drive.data i = 0) ∧
      ∀ i, ceilAlign (targetSize p) p.sectorSize ≤ i → s.drive.data i = d.data i)

/-- The branch reaches its first read. -/
def Starts (p : Params) : Prop :=
  512 ≤ p.sectorSize ∧ p.sourceOk = true ∧ mmMalloc p.bufferOk p.sectorSize = true

end Specification

end SecureWipeOut.WriteImage
