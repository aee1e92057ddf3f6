import SecureWipeOut.Image.PeSection
import SecureWipeOut.Lib.Bytes
import SecureWipeOut.Lib.CInt
import Mathlib

/-! # Revocation by hash

The model of `IsRevokedByDbx`, which looks for a hash in the forbidden signatures of UEFI. A
content is an authentication header followed by lists of signatures, every list with sizes
of its own. A read outside the content and a failed assertion are results of their own.
-/
namespace SecureWipeOut.Dbx
open Bytes CInt

inductive Fault where
  | outside
  | aborted
  deriving DecidableEq

def efiCertSha256Guid : List UInt8 :=
  [0x26,0x16,0xc4,0xc1,0x4c,0x50,0x92,0x40,0xac,0xa9,0x41,0xf9,0x36,0x93,0x43,0x28]

section Code

def readBytes (dbx : List UInt8) (a n : ℕ) : Except Fault (List UInt8) :=
  if a + n ≤ dbx.length then .ok ((dbx.drop a).take n) else .error .outside

def readUint32 (dbx : List UInt8) (a : ℕ) : Except Fault ℕ :=
  (readBytes dbx a 4).map fun bytes => readDword (memOf bytes 0) 0

/-- The loop over the entries, with the number of those left. -/
def entryLoop (hash dbx : List UInt8) (fluffSize signatureSize : ℕ) : ℕ → ℕ → Except Fault Bool
  | 0, _ => .ok false
  | left + 1, i => do
    let data ← readBytes dbx (dword (fluffSize + i * signatureSize)) 32
    if data = hash then .ok true else entryLoop hash dbx fluffSize signatureSize left (i + 1)

/-- The first list of signatures. -/
def searchList (hash dbx : List UInt8) (efiSigList : ℕ) : Except Fault Bool :=
  let fluffSize := dword (efiSigList + 28)
  if dbx.length ≤ fluffSize then .ok false
  else do
    let signatureType ← readBytes dbx efiSigList 16
    if signatureType ≠ efiCertSha256Guid then .ok false
    else do
      let signatureListSize ← readUint32 dbx (efiSigList + 16)
      let signatureHeaderSize ← readUint32 dbx (efiSigList + 20)
      let signatureSize ← readUint32 dbx (efiSigList + 24)
      let fluffSize := dword (fluffSize + signatureHeaderSize)
      if signatureSize = 0 then .error .aborted
      else
        let nbEntries := dword (qsub (dsub signatureListSize signatureHeaderSize) 28 / signatureSize)
        if dbx.length < dword (fluffSize + nbEntries * signatureSize) then .error .aborted
        else entryLoop hash dbx (dword (fluffSize + 16)) signatureSize nbEntries 0

def searchDbx (hash dbx : List UInt8) : Except Fault Bool :=
  if dbx.length ≤ 41 then .ok false
  else do
    let dwLength ← readUint32 dbx 16
    let fluffSize := dword (dwLength + 16)
    if dbx.length ≤ fluffSize then .ok false else searchList hash dbx fluffSize

def getPeArch (buf : PeImage.Memory) : ℕ :=
  if PeImage.readWord buf 0 ≠ 0x5a4d then 0
  else if PeImage.readDword buf (PeImage.ntHeaders buf) ≠ 0x4550 then 0
  else PeImage.machine buf

/-- The numbers of the architectures, 0 for an unknown one. -/
def machineToArch : ℕ → ℕ
  | 0x14c => 1
  | 0x8664 => 2
  | 0x1c0 => 3
  | 0xaa64 => 4
  | 0x200 => 5
  | 0x5064 => 6
  | 0x6264 => 7
  | 0xebc => 8
  | _ => 0

/-- Where the contents come from; an empty file is one that cannot be read, too. -/
structure Sources where
  useLocalDbx : ℕ → Bool
  localFile : ℕ → List UInt8
  resource : ℕ → List UInt8

def Sources.dbxData (src : Sources) (arch : ℕ) : List UInt8 :=
  if src.useLocalDbx arch ∧ src.localFile arch ≠ [] then src.localFile arch else src.resource arch

def isRevokedByDbx (src : Sources) (hash : List UInt8) (buf : PeImage.Memory) : Except Fault Bool :=
  let arch := machineToArch (getPeArch buf)
  if arch = 0 then .ok false else searchDbx hash (src.dbxData arch)

end Code

section Contents

/-- An entry is the GUID of its owner and its data. -/
structure Entry where
  owner : List UInt8
  data : List UInt8
  length_owner : owner.length = 16

def Entry.encode (e : Entry) : List UInt8 := e.owner ++ e.data

structure SignatureList where
  signatureType : List UInt8
  header : List UInt8
  signatureSize : ℕ
  entries : List Entry
  length_type : signatureType.length = 16
  size_lt : signatureSize < 2 ^ 32
  length_entry : ∀ e ∈ entries, e.encode.length = signatureSize

def SignatureList.size (l : SignatureList) : ℕ := 28 + l.header.length + l.entries.length * l.signatureSize

def SignatureList.encode (l : SignatureList) : List UInt8 :=
  l.signatureType ++ dwordBytes l.size ++ dwordBytes l.header.length ++ dwordBytes l.signatureSize ++
    l.header ++ l.entries.flatMap Entry.encode

/-- The time, the length of the authentication information with what it consists of, and the lists. -/
def encodeParts (time auth : List UInt8) (lists : List SignatureList) : List UInt8 :=
  time ++ dwordBytes (4 + auth.length) ++ auth ++ lists.flatMap SignatureList.encode

structure Content where
  time : List UInt8
  auth : List UInt8
  lists : List SignatureList
  length_time : time.length = 16
  le_length_auth : 20 ≤ auth.length
  length_lt : (encodeParts time auth lists).length < 2 ^ 32

def Content.encode (c : Content) : List UInt8 := encodeParts c.time c.auth c.lists

/-- The hash is the data of an entry of a list of such hashes. -/
def Listed (lists : List SignatureList) (hash : List UInt8) : Prop :=
  ∃ l ∈ lists, l.signatureType = efiCertSha256Guid ∧ ∃ e ∈ l.entries, e.data = hash

/-- The 32 bytes behind each owner, where there are so many. -/
def windows : List Entry → List UInt8 → List (List UInt8)
  | [], _ => []
  | e :: es, following => (e.data ++ es.flatMap Entry.encode ++ following).take 32 :: windows es following

/-- The answer is the right one, without a read outside the content and without a failed assertion. -/
def Answered (src : Sources) (hash : List UInt8) (buf : PeImage.Memory) (c : Content) : Prop :=
  ∃ r, isRevokedByDbx src hash buf = .ok r ∧ (r = true ↔ Listed c.lists hash)

/-- Only the first list counts, and it has to be one of SHA-256 hashes with entries. With entries
of 48 bytes the hash has to be among them or in no list; with others the bytes behind their
owners have to be in the content, and to equal the hash if another list has it. -/
def Meets (c : Content) (hash : List UInt8) : Prop :=
  match c.lists with
  | [] => True
  | first :: rest =>
    if first.signatureType ≠ efiCertSha256Guid then ¬Listed rest hash
    else if first.signatureSize = 0 then first.header = [] ∧ rest = []
    else if first.signatureSize = 48 then (∃ e ∈ first.entries, e.data = hash) ∨ ¬Listed rest hash
    else
      let found := windows first.entries (rest.flatMap SignatureList.encode)
      (hash ∈ found ∨ ∀ w ∈ found, w.length = 32) ∧ (hash ∈ found ↔ Listed rest hash)

end Contents

end SecureWipeOut.Dbx
