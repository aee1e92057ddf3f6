import SecureWipeOut.Lib.ByteStore
import SecureWipeOut.Lib.CInt
import SecureWipeOut.Lib.Loop

/-! # Saving an optical disc as an image

The disc is copied in rounds of one read and up to four attempts at writing what was read.
Whether the image is good is told by the error status alone: every way out of the loop has
to set it unless the whole disc has been copied.
-/
namespace SecureWipeOut.OpticalDisc
open ByteStore CInt Loop

def writeRetries : ℕ := 4

/-- An attempt: whether the user has cancelled, whether the write succeeds and how many bytes
it reports, and whether the image's file pointer can be set back. -/
structure Try where
  cancelled : Bool
  ok : Bool
  count : ℕ
  reset : Bool

/-- A round: whether the device's file pointer can be set, the bytes read (none where the read
fails) and the attempts. -/
structure Round where
  seek : Bool
  read : Option ℕ
  tries : ℕ → Try

/-- What the outcomes leave open: the bytes of the device, where its file pointer is when it
could not be set, and how much a write that fails has written. -/
structure Contents where
  device : ℕ → UInt8
  stray : ℕ → ℕ
  left : ℕ → ℕ → ℕ

/-- The image as a file with a size. -/
structure Image where
  data : ℕ → UInt8
  size : ℕ
  pos : ℕ

def Image.write (m : Image) (buf : ℕ → UInt8) (n : ℕ) : Image :=
  ⟨overwrite m.data m.pos n buf,max m.size (m.pos + n),m.pos + n⟩

/-- How the attempts of a round end. -/
inductive Attempts where
  | written
  | error
  | abandoned
  deriving DecidableEq

section tries
variable (t : ℕ → Try) (left : ℕ → ℕ) (buf : ℕ → UInt8) (rSize wb : ℕ)

/-- The bytes that an attempt has put into the image. -/
def putBytes (i : ℕ) : ℕ := if (t i).ok then min (t i).count rSize else min (left i) rSize

/-- The attempts from number i on, with some still to make. -/
def writeTries : ℕ → ℕ → Image → Attempts × Image
  | 0,_,m => (.error,m)
  | more + 1,i,m =>
    if (t i).cancelled then (.error,m)
    else
      let m := m.write buf (putBytes t left rSize i)
      if (t i).ok && min (t i).count rSize == rSize then (.written,m)
      else if i < writeRetries then
        if !(t i).reset then (.abandoned,m)
        else writeTries more (i + 1) { m with pos := wb }
      else (.error,m)

/-- How they end, which the outcomes alone decide. -/
def triesEnd : ℕ → ℕ → Attempts
  | 0,_ => .error
  | more + 1,i =>
    if (t i).cancelled then .error
    else if (t i).ok && min (t i).count rSize == rSize then .written
    else if i < writeRetries then
      if !(t i).reset then .abandoned else triesEnd more (i + 1)
    else .error

end tries

structure Save where
  round : ℕ
  wb : ℕ
  image : Image

/-- The error status at the end of the thread, and the image. -/
structure Saved where
  error : Bool
  image : Image

section thread
variable (deviceSize : UInt64) (bufSize : UInt32) (rounds : ℕ → Round) (c : Contents)

/-- The bytes asked for, in 32 bits. -/
def request (wb : ℕ) : ℕ := dword (min bufSize.toNat (qsub deviceSize.toNat wb))

def saveStep (s : Save) : Save ⊕ Saved :=
  let r := rounds s.round
  match r.read with
  | none => .inr ⟨true,s.image⟩
  | some count =>
    let rSize := min count (request deviceSize bufSize s.wb)
    if rSize = 0 then .inr ⟨s.wb != deviceSize.toNat,s.image⟩
    else
      let place := if r.seek then s.wb else c.stray s.round
      let w := writeTries r.tries (c.left s.round) (fun i => c.device (place + i)) rSize s.wb
        writeRetries 1 s.image
      match w.1 with
      | .written => .inl ⟨s.round + 1,s.wb + rSize,w.2⟩
      | .error => .inr ⟨true,w.2⟩
      | .abandoned => .inr ⟨false,w.2⟩

/-- The thread once both files are open and the buffer is there; until then every failure
sets the error status. -/
def opticalDiscSaveImageThread (opened : Bool) (fuel : ℕ) : Option Saved :=
  if opened then run (saveStep deviceSize bufSize rounds c) fuel ⟨0,0,⟨fun _ => 0,0,0⟩⟩
  else some ⟨true,⟨fun _ => 0,0,0⟩⟩

end thread

/-- The image is the device's bytes. -/
def Exact (deviceSize : UInt64) (c : Contents) (m : Image) : Prop :=
  m.size = deviceSize.toNat ∧ ∀ i < deviceSize.toNat, m.data i = c.device i

/-- The thread ends, and the image is good unless the error status says otherwise. -/
def Reported (deviceSize : UInt64) (bufSize : UInt32) (rounds : ℕ → Round) : Prop :=
  ∀ c opened, ∃ fuel r, opticalDiscSaveImageThread deviceSize bufSize rounds c opened fuel = some r ∧
    (r.error = false → Exact deviceSize c r.image)

end SecureWipeOut.OpticalDisc
