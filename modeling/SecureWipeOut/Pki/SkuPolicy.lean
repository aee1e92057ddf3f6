import SecureWipeOut.Lib.Bytes
import SecureWipeOut.Lib.CInt
import Mathlib.Data.List.Destutter

/-! # The code integrity policy of an edition

The model of `ParseSKUSiPolicy`, which collects the hashes of forbidden files from a policy.
The content is read at addresses that its own sizes give, wherever they lead; what stands in
memory behind it is a parameter. Beside it stand well-formed policies and their encoding.
-/
namespace SecureWipeOut.SkuPolicy
open Bytes CInt

def skuCodeIntegrityPolicy : List UInt8 :=
  [0xc8,0x12,0x6d,0x97,0x9f,0xcb,0x30,0x47,0xbe,0x52,0x54,0x60,0x08,0x43,0x23,0x8e]

def pe256HashSize : ℕ := 32

section Code

/-- What the calls give: the path, the type of the file, the content and its size, the memory
for it and for the hashes. -/
structure Calls where
  wpath : Bool
  contentType : Option ℕ
  content : Option (List UInt8)
  bufferGranted : Bool
  contentGiven : Bool
  tableGranted : ℕ → Bool
  content_lt : ∀ c ∈ content, c.length < 2 ^ 32

def certQueryContentPkcs7Signed : ℕ := 8

/-- A number of bytes rounded up to whole DWORDs. -/
def padded (n : ℕ) : ℕ := (n + 3) / 4 * 4

variable (mem : ℕ → UInt8)

def dwBaseIndex : ℕ :=
  if mem 0 = 4 then 2 + if mem 1 &&& 0x80 = 0x80 then (mem 1 &&& 0x7f).toNat else 0 else 0

/-- The address behind a number of EKU rules. -/
def skipEkuRules : ℕ → ℕ → ℕ
  | 0, a => a
  | left + 1, a => skipEkuRules left (a + (readDword mem a + 7) / 4 * 4)

/-- The address of the data of a file rule, behind its name. -/
def fileRuleData (a : ℕ) : ℕ :=
  let fileNameLength := readDword mem (a + 4)
  a + 8 + if fileNameLength ≠ 0 then padded fileNameLength else 0

/-- The loop over the file rules, with the number of those left and the bytes of the table;
none if a hash is written behind it. -/
def fileRuleLoop (bytes : ℕ) : ℕ → ℕ → List (List UInt8) → Option (List (List UInt8))
  | 0, _, table => some table
  | left + 1, a, table =>
    let data := fileRuleData mem a
    let hashLength := readDword mem (data + 12)
    let hash := slice mem (data + 16) pe256HashSize
    if 0x80 < hashLength then some table
    else if readDword mem a = 0 ∧ hashLength = pe256HashSize ∧ table.getLast? ≠ some hash then
      if (table.length + 1) * pe256HashSize ≤ bytes then
        fileRuleLoop bytes left (data + 16 + padded hashLength) (table ++ [hash])
      else none
    else fileRuleLoop bytes left (data + 16 + padded hashLength) table

/-- The walk over the content, with the hashes collected. -/
def walkPolicy (tableGranted : ℕ → Bool) : Option (Bool × List (List UInt8)) :=
  let header := dwBaseIndex mem
  if readDword mem (header + 64) + 4 ≠ 68 then some (true,[])
  else if slice mem (header + 4) 16 ≠ skuCodeIntegrityPolicy then some (true,[])
  else
    let rules := skipEkuRules mem (readDword mem (header + 40)) (header + 68)
    let entryCount := readDword mem (header + 44)
    let bytes := dword (entryCount * pe256HashSize)
    if tableGranted bytes = false then some (true,[])
    else (fileRuleLoop mem bytes entryCount rules []).map fun table => (true,table)

/-- The return value and the hashes; none if a hash is written outside the table. -/
def parseSKUSiPolicy (calls : Calls) (beyond : ℕ → UInt8) : Option (Bool × List (List UInt8)) :=
  if calls.wpath = false then some (false,[])
  else
    match calls.contentType, calls.content with
    | none, _ => some (false,[])
    | some type, content =>
      if type ≠ certQueryContentPkcs7Signed then some (true,[])
      else
        match content with
        | none => some (false,[])
        | some content =>
          if content = [] then some (true,[])
          else if calls.bufferGranted = false then some (true,[])
          else if calls.contentGiven = false then some (false,[])
          else walkPolicy (memOf content beyond) calls.tableGranted

end Code

section Policies

/-- What rounds bytes up to whole DWORDs. -/
def Pads (data padding : List UInt8) : Prop := padding.length = padded data.length - data.length

structure EkuRule where
  data : List UInt8
  padding : List UInt8
  data_lt : data.length < 2 ^ 32
  pads : Pads data padding

def EkuRule.encode (r : EkuRule) : List UInt8 := dwordBytes r.data.length ++ r.data ++ r.padding

structure FileRule where
  type : ℕ
  fileName : List UInt8
  namePadding : List UInt8
  unknownAndVersion : List UInt8
  hash : List UInt8
  hashPadding : List UInt8
  type_lt : type < 2 ^ 32
  name_lt : fileName.length < 2 ^ 32
  name_pads : Pads fileName namePadding
  length_version : unknownAndVersion.length = 12
  hash_le : hash.length ≤ 0x80
  hash_pads : Pads hash hashPadding

def FileRule.encode (r : FileRule) : List UInt8 :=
  dwordBytes r.type ++ dwordBytes r.fileName.length ++ r.fileName ++ r.namePadding ++
    r.unknownAndVersion ++ dwordBytes r.hash.length ++ r.hash ++ r.hashPadding

def ciDeny : ℕ := 0

structure Policy where
  formatVersion : ℕ
  platformGuid : List UInt8
  optionFlags : ℕ
  ekuRules : List EkuRule
  fileRules : List FileRule
  signerCounts : List UInt8
  version : List UInt8
  rest : List UInt8
  length_platform : platformGuid.length = 16
  ekuRules_lt : ekuRules.length < 2 ^ 32
  fileRules_lt : fileRules.length < 2 ^ 32
  length_signerCounts : signerCounts.length = 8
  length_version : version.length = 8

def Policy.header (p : Policy) : List UInt8 :=
  dwordBytes p.formatVersion ++ skuCodeIntegrityPolicy ++ p.platformGuid ++ dwordBytes p.optionFlags ++
    dwordBytes p.ekuRules.length ++ dwordBytes p.fileRules.length ++ p.signerCounts ++ p.version ++
    dwordBytes 64

/-- The header, the rules of both kinds, and what the signers follow with. -/
def Policy.encode (p : Policy) : List UInt8 :=
  p.header ++ p.ekuRules.flatMap EkuRule.encode ++ p.fileRules.flatMap FileRule.encode ++ p.rest

/-- The number of bytes that a length of more than one byte stands for. -/
def bigEndian (bytes : List UInt8) : ℕ := bytes.foldl (fun n b => 256 * n + b.toNat) 0

/-- A content is a policy, or an OCTET STRING of one; a first byte of 4 is the tag of the latter. -/
inductive Frames (body : List UInt8) : List UInt8 → Prop where
  | plain : body.head? ≠ some 4 → Frames body body
  | short {k : UInt8} : k < 0x80 → body.length = k.toNat → Frames body ([4,k] ++ body)
  | long {k : UInt8} {size : List UInt8} : 0x80 ≤ k → size.length = k.toNat - 0x80 →
      body.length = bigEndian size → Frames body ([4,k] ++ size ++ body)

def WellFormed (content : List UInt8) (p : Policy) : Prop := Frames p.encode content

def FileRule.denies (r : FileRule) : Bool := r.type == ciDeny && r.hash.length == pe256HashSize

/-- The 32-byte hashes of the files denied, of equal ones in a row the first. -/
def Policy.hashes (p : Policy) : List (List UInt8) :=
  ((p.fileRules.filter FileRule.denies).map FileRule.hash).destutter (· ≠ ·)

/-- The content that the calls deliver. -/
def Calls.Delivers (calls : Calls) (content : List UInt8) : Prop :=
  calls.wpath = true ∧ calls.contentType = some certQueryContentPkcs7Signed ∧ calls.content = some content ∧
    calls.bufferGranted = true ∧ calls.contentGiven = true

/-- TRUE is returned for well-formed policies only, with their hashes in the table. -/
def Sound (calls : Calls) (beyond : ℕ → UInt8) : Prop :=
  ∃ r table, parseSKUSiPolicy calls beyond = some (r,table) ∧
    (r = true → ∃ content p, calls.Delivers content ∧ WellFormed content p ∧ table = p.hashes)

/-- One of the calls fails, and FALSE is what it left as the return value. -/
def Calls.Fails (calls : Calls) : Prop :=
  calls.wpath = false ∨ calls.contentType = none ∨ calls.contentType = some certQueryContentPkcs7Signed ∧
    (calls.content = none ∨
      calls.content ≠ some [] ∧ calls.bufferGranted = true ∧ calls.contentGiven = false)

/-- A call fails and says so; or the content is well-formed, and its table is granted, and not cut
by the 32 bits of its size, unless it is empty. -/
def Meets (calls : Calls) : Prop :=
  calls.Fails ∨ ∃ content p, calls.Delivers content ∧ WellFormed content p ∧
    (p.hashes = [] ∨ calls.tableGranted (dword (p.fileRules.length * pe256HashSize)) = true ∧
      p.hashes.length * pe256HashSize ≤ dword (p.fileRules.length * pe256HashSize))

end Policies

end SecureWipeOut.SkuPolicy
