import SecureWipeOut.Lib.DecimalFormat
import SecureWipeOut.Parser.TokenFile

/-! # The two stores of the settings

The settings are kept in a text file or in the registry. The model of the functions that
write and read them, on texts of single characters, which are the ones that an ANSI file holds.
A registry keeps what is written to it.
-/
namespace SecureWipeOut.Settings
open CText DecimalFormat TokenFile

section Bytes

/-- A number in `n` bytes, the lowest first. -/
def toBytes : ℕ → ℕ → List UInt8
  | 0,_ => []
  | n + 1,v => UInt8.ofNat v :: toBytes n (v / 256)

def ofBytes : List UInt8 → ℕ
  | [] => 0
  | b :: bytes => b.toNat + 256 * ofBytes bytes

/-- The bytes of a text in UTF-8. -/
def utf8 (text : List Char) : List UInt8 := text.flatMap String.utf8EncodeChar

theorem ofBytes_toBytes (n v : ℕ) : ofBytes (toBytes n v) = v % 256 ^ n := by
  induction n generalizing v with
  | zero => simp [ofBytes,toBytes,Nat.mod_one]
  | succ n ih =>
    rw [toBytes,ofBytes,ih,pow_succ',Nat.mod_mul,UInt8.toNat_ofNat']

theorem length_toBytes (n v : ℕ) : (toBytes n v).length = n := by
  induction n generalizing v with
  | zero => rfl
  | succ n ih => rw [toBytes,List.length_cons,ih]

theorem ofBytes_append_zeros (bytes : List UInt8) (n : ℕ) :
    ofBytes (bytes ++ List.replicate n 0) = ofBytes bytes := by
  induction bytes with
  | nil =>
    induction n with
    | zero => rfl
    | succ n ih => simpa [List.replicate_succ,ofBytes] using ih
  | cons b bytes ih => rw [List.cons_append,ofBytes,ofBytes,ih]

end Bytes

section Ini

/-- What `ReadIniKey64` returns for a file. -/
def readIniKey64 (key ini : List Char) : Int64 :=
  match getTokenDataFileIndexed key (some ini) 1 with
  | none => 0
  | some str => Int64.ofInt (strtoi64 str)

def readIniKey32 (key ini : List Char) : Int32 :=
  match getTokenDataFileIndexed key (some ini) 1 with
  | none => 0
  | some str => Int32.ofInt (strtol str).1

/-- The static buffer of the result has room for 511 bytes. -/
def readIniKeyStr (key ini : List Char) : List UInt8 :=
  match getTokenDataFileIndexed key (some ini) 1 with
  | none => []
  | some val => (utf8 val).take 511

def readIniKeyBool (key ini : List Char) : Bool := readIniKey32 key ini != 0

/-- Whether the file has been written, and the file. -/
def writeIniKeyStr (key val ini : List Char) : Bool × List Char :=
  match setTokenDataFile key val (some ini) with
  | none => (false,ini)
  | some ini => (true,ini)

def writeIniKey64 (key : List Char) (val : Int64) (ini : List Char) : Bool × List Char :=
  writeIniKeyStr key ((decimal val.toInt).take 23) ini

def writeIniKey32 (key : List Char) (val : Int32) (ini : List Char) : Bool × List Char :=
  writeIniKeyStr key ((decimal val.toInt).take 11) ini

def writeIniKeyBool (key : List Char) (b : Bool) (ini : List Char) : Bool × List Char :=
  writeIniKey32 key (if b then 1 else 0) ini

end Ini

section Registry

inductive RegType
  | sz
  | dword
  | qword
deriving DecidableEq

structure RegValue where
  type : RegType
  bytes : List UInt8
deriving DecidableEq

/-- The values of the application, and those elsewhere by their full names. What a query
leaves in a buffer that is too small is not specified. -/
structure Registry where
  app : List Char → Option RegValue
  others : List Char → Option RegValue
  overflow : RegValue → ℕ → List UInt8

/-- A key with a backslash behind its first character is a full name, of which the part up to the
last backslash has to fit a path. -/
def Registry.value (r : Registry) (key : List Char) : Option RegValue :=
  if '\\' ∈ key.tail then
    if 260 ≤ (key.rdropWhile fun c => c != '\\').length - 1 then none else r.others key
  else r.app key

/-- What `_GetRegistryKey` leaves in the buffer. -/
def getRegistryKey (key : List Char) (destSize : ℕ) (r : Registry) : List UInt8 :=
  match r.value key with
  | none => List.replicate destSize 0
  | some v =>
    if v.bytes.length ≤ destSize then v.bytes ++ List.replicate (destSize - v.bytes.length) 0
    else r.overflow v destSize

/-- `_SetRegistryKey`: only short keys are written. -/
def setRegistryKey (key : List Char) (type : RegType) (src : List UInt8) (r : Registry) : Bool × Registry :=
  if '\\' ∈ key then (false,r) else (true,{r with app := Function.update r.app key (some ⟨type,src⟩)})

def readRegistryKey64 (key : List Char) (r : Registry) : Int64 := Int64.ofNat (ofBytes (getRegistryKey key 8 r))

def readRegistryKey32 (key : List Char) (r : Registry) : Int32 := Int32.ofNat (ofBytes (getRegistryKey key 4 r))

def readRegistryKeyBool (key : List Char) (r : Registry) : Bool := readRegistryKey32 key r != 0

def readRegistryKeyStr (key : List Char) (r : Registry) : List UInt8 :=
  (getRegistryKey key 511 r).takeWhile fun b => b != 0

def writeRegistryKey64 (key : List Char) (val : Int64) (r : Registry) : Bool × Registry :=
  setRegistryKey key .qword (toBytes 8 val.toBitVec.toNat) r

def writeRegistryKey32 (key : List Char) (val : Int32) (r : Registry) : Bool × Registry :=
  setRegistryKey key .dword (toBytes 4 val.toBitVec.toNat) r

def writeRegistryKeyBool (key : List Char) (b : Bool) (r : Registry) : Bool × Registry :=
  writeRegistryKey32 key (if b then 1 else 0) r

def writeRegistryKeyStr (key val : List Char) (r : Registry) : Bool × Registry :=
  setRegistryKey key .sz (utf8 val) r

end Registry

section Operations

inductive Op
  | writeStr (key val : List Char)
  | write64 (key : List Char) (val : Int64)
  | write32 (key : List Char) (val : Int32)
  | writeBool (key : List Char) (b : Bool)
  | readStr (key : List Char)
  | read64 (key : List Char)
  | read32 (key : List Char)
  | readBool (key : List Char)
deriving DecidableEq

inductive Reply
  | written (b : Bool)
  | str (bytes : List UInt8)
  | int64 (val : Int64)
  | int32 (val : Int32)
  | bool (b : Bool)
deriving DecidableEq

/-- `WriteSetting*` and `ReadSetting*` with an INI file. -/
def iniStep (ini : List Char) : Op → List Char × Reply
  | .writeStr key val => ((writeIniKeyStr key val ini).2,.written (writeIniKeyStr key val ini).1)
  | .write64 key val => ((writeIniKey64 key val ini).2,.written (writeIniKey64 key val ini).1)
  | .write32 key val => ((writeIniKey32 key val ini).2,.written (writeIniKey32 key val ini).1)
  | .writeBool key b => ((writeIniKeyBool key b ini).2,.written (writeIniKeyBool key b ini).1)
  | .readStr key => (ini,.str (readIniKeyStr key ini))
  | .read64 key => (ini,.int64 (readIniKey64 key ini))
  | .read32 key => (ini,.int32 (readIniKey32 key ini))
  | .readBool key => (ini,.bool (readIniKeyBool key ini))

/-- `WriteSetting*` and `ReadSetting*` without an INI file. -/
def registryStep (r : Registry) : Op → Registry × Reply
  | .writeStr key val => ((writeRegistryKeyStr key val r).2,.written (writeRegistryKeyStr key val r).1)
  | .write64 key val => ((writeRegistryKey64 key val r).2,.written (writeRegistryKey64 key val r).1)
  | .write32 key val => ((writeRegistryKey32 key val r).2,.written (writeRegistryKey32 key val r).1)
  | .writeBool key b => ((writeRegistryKeyBool key b r).2,.written (writeRegistryKeyBool key b r).1)
  | .readStr key => (r,.str (readRegistryKeyStr key r))
  | .read64 key => (r,.int64 (readRegistryKey64 key r))
  | .read32 key => (r,.int32 (readRegistryKey32 key r))
  | .readBool key => (r,.bool (readRegistryKeyBool key r))

/-- The replies of a sequence of operations. -/
def run {σ : Type} (step : σ → Op → σ × Reply) : σ → List Op → List Reply
  | _,[] => []
  | s,op :: ops => (step s op).2 :: run step (step s op).1 ops

def Op.isRead : Op → Bool
  | .readStr _ => true
  | .read64 _ => true
  | .read32 _ => true
  | .readBool _ => true
  | _ => false

/-- What the reads among the operations return. -/
def reads {σ : Type} (step : σ → Op → σ × Reply) (s : σ) (ops : List Op) : List Reply :=
  ((ops.zip (run step s ops)).filter fun p => p.1.isRead).map Prod.snd

end Operations

end SecureWipeOut.Settings
