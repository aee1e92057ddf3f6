import SecureWipeOut.Lib.CInt
import SecureWipeOut.Drive.WriteFileWithRetry

/-! # Copying a file out of a UDF image

Both loops take as many bytes as the reader delivers until none of the declared length
are left. The declared length and what can be read are unrelated fields of the image.
-/
namespace SecureWipeOut.UdfCopy
open ByteStore CInt FileIO Loop

def udfBlockSize : ℕ := 2048
def isoBufferSize : ℕ := 64 * 1024
def writeRetries : UInt32 := 4

/-- A declared length as it is kept, a signed number. -/
def int64 (n : UInt64) : ℤ := if n.toNat < 2 ^ 63 then n.toNat else n.toNat - 2 ^ 64

/-- The position in the file, the calls made and the ranges of the file they delivered. -/
structure Reader where
  position : ℕ
  calls : ℕ
  ranges : List (ℕ × ℕ)

structure BlockRead where
  result : ℤ
  buf : ℕ → UInt8
  reader : Reader

/-- A read that goes on where the last one has ended, of no more than was asked for. -/
def udfReadBlock (reads : ℕ → ℤ) (image : ℕ → UInt8) (buf : ℕ → UInt8) (count : ℕ) (p : Reader) :
    BlockRead :=
  let result := min (reads p.calls) ((count * udfBlockSize : ℕ) : ℤ)
  ⟨result,overwrite buf 0 result.toNat fun i => image (p.position + i),
    ⟨p.position + result.toNat,p.calls + 1,p.ranges ++ [(p.position,result.toNat)]⟩⟩

/-- The variables of the loops; `r` is what ExtractISOFile returns. -/
structure Copy where
  fileLength : ℤ
  buf : ℕ → UInt8
  reader : Reader
  drive : Drive
  r : ℕ

/-- A signed sum that leaves its type has no defined result. -/
inductive Ending where
  | copied
  | failed
  | overflow
  deriving DecidableEq

structure Left where
  ending : Ending
  state : Copy

section loops
variable (env : ℕ → Answer) (largeDrive : Bool) (reads : ℕ → ℤ) (image : ℕ → UInt8)

/-- Four attempts at most, so that five rounds of the loop are enough. -/
def writeFileRetried (buf : ℕ → UInt8) (n : ℕ) (d : Drive) : RetryResult :=
  (writeFileWithRetry env largeDrive buf n writeRetries 5 d).getD ⟨false,0,d⟩

def udfExtractFilesStep (s : Copy) : Copy ⊕ Left :=
  if s.fileLength ≤ 0 then .inr ⟨.copied,s⟩
  else if userCancel env s.drive then .inr ⟨.failed,s⟩
  else if 2 ^ 63 ≤ s.fileLength + udfBlockSize then .inr ⟨.overflow,s⟩
  else
    let nb := min ((isoBufferSize / udfBlockSize : ℕ) : ℤ)
      ((s.fileLength + udfBlockSize - 1) / udfBlockSize)
    let q := udfReadBlock reads image s.buf nb.toNat s.reader
    if q.result < 0 then .inr ⟨.failed,{ s with buf := q.buf, reader := q.reader }⟩
    else
      let bufSize := dword (min s.fileLength q.result).toNat
      let w := writeFileRetried env largeDrive q.buf bufSize s.drive
      if !w.ok || w.written != bufSize then
        .inr ⟨.failed,{ s with buf := q.buf, reader := q.reader, drive := w.drive }⟩
      else .inl ⟨s.fileLength - w.written,q.buf,q.reader,w.drive,s.r⟩

def extractISOFileStep (s : Copy) : Copy ⊕ Left :=
  if s.fileLength ≤ 0 then .inr ⟨.copied,s⟩
  else
    let q := udfReadBlock reads image (overwrite s.buf 0 udfBlockSize fun _ => 0) 1 s.reader
    if q.result < 0 then .inr ⟨.failed,{ s with buf := q.buf, reader := q.reader }⟩
    else
      let bufSize := dword (min s.fileLength q.result).toNat
      let w := writeFileRetried env largeDrive q.buf bufSize s.drive
      if !w.ok then
        .inr ⟨.failed,{ s with buf := q.buf, reader := q.reader, drive := w.drive }⟩
      else .inl ⟨s.fileLength - bufSize,q.buf,q.reader,w.drive,s.r + bufSize⟩

end loops

def start (declared : UInt64) (buf : ℕ → UInt8) (d : Drive) : Copy :=
  ⟨int64 declared,buf,⟨0,0,[]⟩,d,0⟩

/-- Ranges that follow one another from the start of the file up to a position. -/
inductive InOrder : List (ℕ × ℕ) → ℕ → Prop
  | nil : InOrder [] 0
  | snoc {l : List (ℕ × ℕ)} {p : ℕ} (h : InOrder l p) (n : ℕ) : InOrder (l ++ [(p,n)]) (p + n)

/-- The file has been copied: this many bytes were written, which are those of the image,
and its blocks were read once and in order. -/
structure Copied (image : ℕ → UInt8) (declared : ℕ) (s : Copy) : Prop where
  written : s.drive.pos = declared
  data : ∀ i < declared, s.drive.data i = image i
  inOrder : InOrder s.reader.ranges s.reader.position

/-- A loop ends, and has copied everything if it ends without an error, whatever becomes of
the writes and whatever the file holds. -/
def CopiesAll (step : (ℕ → Answer) → (ℕ → UInt8) → Copy → Copy ⊕ Left) (declared : UInt64) : Prop :=
  ∀ env image buf d, d.pos = 0 → ∃ fuel l, run (step env image) fuel (start declared buf d) = some l ∧
    l.ending ≠ .overflow ∧ (l.ending = .copied → Copied image declared.toNat l.state)

end SecureWipeOut.UdfCopy
