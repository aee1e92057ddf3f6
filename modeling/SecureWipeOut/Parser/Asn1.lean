import SecureWipeOut.Lib.CInt
import SecureWipeOut.Lib.CText

/-! # Data of an ASN.1 buffer

The walk over the elements of a DER encoding that looks for the first data of a type
behind an OID. Memory is a function on addresses counted from the start of the buffer, so
that a read behind the buffer's end has a value too; every read is recorded with the call
that makes it.
-/
namespace SecureWipeOut.Asn1
open CInt CText

def isSequence (h : UInt8) : Bool := h &&& 0x20 ≠ 0
def isUniversalTag (h : UInt8) : Bool := h &&& 0xC0 = 0
def tag (h : UInt8) : UInt8 := h &&& 0x1F
def lenLen (l : UInt8) : ℕ := (l &&& 0x7F).toNat

/-- A read of `buf[index]` in the call for the buffer of size bufLen at base. -/
structure Read where
  base : ℕ
  bufLen : ℕ
  index : ℕ
  deriving DecidableEq

/-- The variables shared by all calls; data is an address and a length. -/
structure Search where
  matched : Bool
  data : Option (ℕ × ℕ)
  reads : List Read

def Search.read (s : Search) (base bufLen index count : ℕ) : Search :=
  { s with reads := (List.range' index count).map (fun i => ⟨base,bufLen,i⟩) ++ s.reads }

inductive Status where
  | ok
  | error
  | running
  deriving DecidableEq

/-- The length field at an address, none if it has more than two bytes, and the number of
bytes read for it. -/
def lengthField (mem : ℕ → UInt8) (a : ℕ) : Option ℕ × ℕ :=
  if mem a &&& 0x80 ≠ 0 then
    if 2 < lenLen (mem a) then (none,1)
    else (some ((List.range (lenLen (mem a))).foldl
      (fun len i => 256 * len + (mem (a + 1 + i)).toNat) 0),1 + lenLen (mem a))
  else (some (mem a).toNat,1)

section walk
variable (mem : ℕ → UInt8) (oid : List UInt8) (asn1Type : UInt8)

/-- The `len` bytes at an address. -/
def slice (a len : ℕ) : List UInt8 := (List.range len).map fun i => mem (a + i)

/-- What is done with content that is not a sequence: it may be the OID or the data. -/
def primitive (base bufLen pos len : ℕ) (h : UInt8) (s : Search) : Search :=
  if isUniversalTag h = false then s
  else if s.matched = false ∧ tag h = 0x06 ∧ len = oid.length then
    let s := s.read base bufLen pos oid.length
    if slice mem (base + pos) len = oid then { s with matched := true } else s
  else if s.matched = true ∧ tag h = asn1Type then { s with data := some (base + pos,len) }
  else s

/-- The rest of an iteration, behind the header: walk stands for the loop of this call and,
for the content of a sequence, of the calls below it. -/
def element (walk : ℕ → ℕ → ℕ → Search → Status × Search) (base bufLen pos : ℕ) (h : UInt8)
    (length : Option ℕ) (s : Search) : Status × Search :=
  match length with
  | none => (.error,s)
  | some len =>
    -- The difference wraps when the header has gone past the end.
    if qsub bufLen pos < len then (.error,s)
    else if len = 0 then walk base bufLen pos s
    else if isSequence h = true then
      match walk (base + pos) len 0 s with
      | (.ok,s) => if s.data.isSome then (.ok,s) else walk base bufLen (pos + len) s
      | r => r
    else
      let s := primitive mem oid asn1Type base bufLen pos len h s
      if s.data.isSome then (.ok,s) else walk base bufLen (pos + len) s

/-- The loop over the elements of one buffer, from pos on. The element NULL is taken to
have one more byte, which is not read. -/
def getDataFromAsn1Internal : ℕ → ℕ → ℕ → ℕ → Search → Status × Search
  | 0,_,_,_,s => (.running,s)
  | fuel + 1,base,bufLen,pos,s =>
    if bufLen ≤ pos then (.ok,s)
    else
      let h := mem (base + pos)
      let s := s.read base bufLen pos 1
      if tag h = 0x1F then (.error,s)
      else if isUniversalTag h = true ∧ tag h = 0x05 then
        getDataFromAsn1Internal fuel base bufLen (pos + 2) s
      else
        let field := lengthField mem (base + (pos + 1))
        element mem oid asn1Type (getDataFromAsn1Internal fuel) base bufLen (pos + 1 + field.2) h
          field.1 (s.read base bufLen (pos + 1) field.2)

end walk

/-- The bytes of a number in base 128, all but the last flagged. -/
def makeFlaggedInt (value : ℕ) : List UInt8 :=
  let flagged := [28,21,14,7].foldl (fun (more,value,buf) shift =>
    if more || 2 ^ shift ≤ value then
      (true,value % 2 ^ shift,buf ++ [0x80 ||| UInt8.ofNat (value / 2 ^ shift)])
    else (more,value,buf)) (false,value,[])
  flagged.2.2 ++ [UInt8.ofNat flagged.2.1]

/-- The loop over the arcs of an OID string, with the number of arcs seen. -/
def oidArcs : ℕ → List Char → ℕ → ℕ → List UInt8 → Option (ℕ × List UInt8)
  | 0,_,_,_,_ => none
  | fuel + 1,s,arcno,val1,oid =>
    let isDigit (c : Char) : Bool := decide ('0' ≤ c ∧ c ≤ '9')
    let val := strtoul 10 s
    let endp := s.dropWhile isDigit
    if (s.head?.map isDigit).getD false = false then none
    else if endp ≠ [] ∧ endp.head? ≠ some '.' then none
    else if arcno = 0 ∧ 2 < val then some (1,oid)
    else if arcno = 1 ∧ val1 < 2 ∧ 39 < val then none
    else
      let oid :=
        if arcno = 0 then oid
        else if arcno = 1 then
          if val1 < 2 then oid ++ [UInt8.ofNat (val1 * 40 + val)]
          else oid ++ makeFlaggedInt (dword (val + 80))
        else oid ++ makeFlaggedInt val
      let val1 := if arcno = 0 then val else val1
      if endp.head? = some '.' then oidArcs fuel endp.tail (arcno + 1) val1 oid
      else some (arcno + 1,oid)

def oidFromStr (s : List Char) : Option (List UInt8) :=
  match oidArcs (s.length + 1) s 0 0 [] with
  | none => none
  | some (arcno,oid) => if arcno = 1 ∨ oid.length < 2 ∨ 254 < oid.length then none else some oid

/-- What is searched: with no OID string the first data of the type, none if the string
cannot be converted. -/
inductive Target where
  | first
  | behind (oid : List UInt8)

def target (oidStr : Option (List Char)) : Option Target :=
  match oidStr with
  | none => some .first
  | some [] => some .first
  | some s => (oidFromStr s).map .behind

def Target.matched : Target → Bool
  | .first => true
  | .behind _ => false

def Target.oid : Target → List UInt8
  | .first => []
  | .behind oid => oid

def getDataFromAsn1 (fuel : ℕ) (mem : ℕ → UInt8) (bufLen : ℕ) (oidStr : Option (List Char))
    (asn1Type : UInt8) : Status × Search :=
  if 65536 ≤ bufLen then (.ok,⟨false,none,[]⟩)
  else
    match target oidStr with
    | none => (.ok,⟨false,none,[]⟩)
    | some t => getDataFromAsn1Internal mem t.oid asn1Type fuel 0 bufLen 0 ⟨t.matched,none,[]⟩

end SecureWipeOut.Asn1
