import SecureWipeOut.Lib.Calendar
import SecureWipeOut.Parser.Asn1Bounds

/-! # The timestamp of a signature

The countersignature of a signature and that of a signature nested in it carry a time each,
as the text of an ASN.1 element. The number that its digits write is the timestamp, and the
two are compared as numbers.
-/
namespace SecureWipeOut.TimeStamp
open CInt CText Asn1

abbrev Bytes := List UInt8

structure Attribute where
  objId : List Char
  value : Bytes

/-- The parts of the certificate API that are used: the content of a PKCS #7 message, and
the unauthenticated attributes of the signer of a message. -/
structure Api where
  decodeContentInfo : Bytes → Option Bytes
  signerAttributes : Bytes → Option (List Attribute)
  /-- What lies in memory behind a buffer. -/
  beyond : Bytes → ℕ → UInt8

def szOidRfc3161CounterSign : List Char := "1.3.6.1.4.1.311.3.3.1".toList
def szOidTimestampToken : List Char := "1.2.840.113549.1.9.16.1.4".toList
def szOidNestedSignature : List Char := "1.3.6.1.4.1.311.2.4.1".toList

/-- The data that the search of a buffer ends with. -/
def asn1Data (api : Api) (buf : Bytes) (oidStr : Option (List Char)) (asn1Type : UInt8) : Option Bytes :=
  let mem := memory buf (api.beyond buf)
  (getDataFromAsn1 (buf.length + 1) mem buf.length oidStr asn1Type).2.data.map fun d => slice mem d.1 d.2

/-- `strtoull` with base 10. -/
def strtoull (s : List Char) : ℕ :=
  match s.dropWhile isSpace with
  | '-' :: s => if digits 10 s < 2 ^ 64 then (2 ^ 64 - digits 10 s) % 2 ^ 64 else 2 ^ 64 - 1
  | '+' :: s => min (2 ^ 64 - 1) (digits 10 s)
  | s => min (2 ^ 64 - 1) (digits 10 s)

def charsOf (bytes : Bytes) : List Char := bytes.map fun b => Char.ofNat b.toNat

/-- The number of a text YYYYMMDDhhmmss[.s...]Z, none if it has another form. -/
def timestampOf (str : Bytes) : Option ℕ :=
  if str.length < 14 ∨ (charsOf str).getLast? ≠ some 'Z' then none else some (strtoull (charsOf str))

/-- The timestamp in the content of a countersignature. -/
def tokenTimestamp (api : Api) (content : Bytes) : Option ℕ :=
  ((asn1Data api content (some szOidTimestampToken) 0x04).bind fun token =>
    asn1Data api token none 0x18).bind timestampOf

/-- The loop over the attributes: whether a countersignature was seen, and its timestamp.
A second countersignature ends it with no timestamp. -/
def rfc3161Loop (api : Api) : List Attribute → Bool → ℕ → ℕ
  | [], _, ts => ts
  | a :: rest, found, ts =>
    if a.objId ≠ szOidRfc3161CounterSign then rfc3161Loop api rest found ts
    else if found then 0
    else
      match api.decodeContentInfo a.value with
      | none => rfc3161Loop api rest true ts
      | some content => rfc3161Loop api rest true ((tokenTimestamp api content).getD ts)

def getRfc3161TimeStamp (api : Api) (signer : List Attribute) : ℕ := rfc3161Loop api signer false 0

def nestedLoop (api : Api) : List Attribute → Bool → ℕ → ℕ
  | [], _, ts => ts
  | a :: rest, found, ts =>
    if a.objId ≠ szOidNestedSignature then nestedLoop api rest found ts
    else if found then 0
    else
      match (api.decodeContentInfo a.value).bind api.signerAttributes with
      | none => nestedLoop api rest true ts
      | some nested => nestedLoop api rest true (getRfc3161TimeStamp api nested)

def getNestedRfc3161TimeStamp (api : Api) (signer : List Attribute) : ℕ := nestedLoop api signer false 0

/-- `_abs64` of an unsigned difference; the smallest value stays as it is. -/
def abs64 (n : ℕ) : ℤ :=
  if qword n ≤ 2 ^ 63 then if qword n = 2 ^ 63 then -2 ^ 63 else qword n else 2 ^ 64 - qword n

/-- The timestamp that is left when there may be a nested one. -/
def checkNested (timestamp nestedTimestamp : ℕ) : ℕ :=
  if timestamp ≠ 0 ∧ nestedTimestamp ≠ 0 ∧ 100 < abs64 (qsub nestedTimestamp timestamp) then 0
  else timestamp

/-- The timestamp of a file, given the attributes of its signer if it has one. -/
def getSignatureTimeStamp (api : Api) (signer : Option (List Attribute)) : ℕ :=
  match signer with
  | none => 0
  | some attributes =>
    checkNested (getRfc3161TimeStamp api attributes) (getNestedRfc3161TimeStamp api attributes)

section Check
open Calendar
variable {a b : DateTime}

theorem abs64_qsub_le_iff {m n : ℕ} (hm : m < 10 ^ 14) (hn : n < 10 ^ 14) :
    abs64 (qsub m n) ≤ 100 ↔ n ≤ m + 100 ∧ m ≤ n + 100 := by
  unfold abs64 qsub qword
  split_ifs <;> omega

theorem checkNested_eq_iff :
    checkNested a.stamp b.stamp = a.stamp ↔ a.stamp ≤ b.stamp + 100 ∧ b.stamp ≤ a.stamp + 100 := by
  have ha := a.stamp_pos
  have hb := b.stamp_pos
  rw [← abs64_qsub_le_iff b.stamp_lt a.stamp_lt]
  unfold checkNested
  split
  case isTrue h => exact ⟨fun h0 => by omega,fun hle => absurd h.2.2 (not_lt.mpr hle)⟩
  case isFalse h =>
    refine ⟨fun _ => ?_,fun _ => rfl⟩
    by_contra hgt
    exact h ⟨by omega,by omega,not_le.mp hgt⟩

/-- The check of two times agrees with the seconds between them exactly when they lie in
the same hour or are more than a minute apart. -/
theorem checkNested_iff : (checkNested a.stamp b.stamp = a.stamp ↔ a.Within b 60) ↔
    a.SameHour b ∨ ¬a.Within b 60 := by
  rw [checkNested_eq_iff]
  by_cases hsame : a.SameHour b
  · exact iff_of_true hsame.stamp_iff (Or.inl hsame)
  · have hfar := DateTime.stamp_far hsame
    have hno : ¬(a.stamp ≤ b.stamp + 100 ∧ b.stamp ≤ a.stamp + 100) := by omega
    rw [iff_false_left hno,or_iff_right hsame]

end Check

section Signatures
open Calendar

/-- A signature with two times keeps its timestamp exactly when they are at most a minute
apart, if and only if they lie in the same hour or are more than a minute apart. -/
theorem getSignatureTimeStamp_iff (api : Api) (signer : List Attribute) (a b : DateTime)
    (ha : getRfc3161TimeStamp api signer = a.stamp) (hb : getNestedRfc3161TimeStamp api signer = b.stamp) :
    (getSignatureTimeStamp api (some signer) = a.stamp ↔ a.Within b 60) ↔
      a.SameHour b ∨ ¬a.Within b 60 := by
  have hcheck : getSignatureTimeStamp api (some signer) = checkNested a.stamp b.stamp := by
    rw [getSignatureTimeStamp,ha,hb]
  rw [hcheck]
  exact checkNested_iff

/-- Messages that are their own content, signed by a signer with a countersignature. -/
def plainApi : Api where
  decodeContentInfo value := some value
  signerAttributes value := some [⟨szOidRfc3161CounterSign,value⟩]
  beyond _ _ := 0

/-- The OID of a timestamp token and an octet string with a time. -/
def plainToken (time : List Char) : Bytes :=
  [0x06,0x0B,0x2A,0x86,0x48,0x86,0xF7,0x0D,0x01,0x09,0x10,0x01,0x04,0x04,0x11,0x18,0x0F] ++
    time.map fun c => UInt8.ofNat c.toNat

def plainSigner (time nestedTime : List Char) : List Attribute :=
  [⟨szOidRfc3161CounterSign,plainToken time⟩,⟨szOidNestedSignature,plainToken nestedTime⟩]

/-- 12:59:30 and 13:00:00 of one day. -/
def beforeOne : DateTime where
  year := 2024
  month := 1
  day := 1
  hour := 12
  minute := 59
  second := 30
  year_lt := by decide
  month_pos := by decide
  month_le := by decide
  day_pos := by decide
  day_le := by decide
  hour_lt := by decide
  minute_lt := by decide
  second_lt := by decide

def atOne : DateTime where
  year := 2024
  month := 1
  day := 1
  hour := 13
  minute := 0
  second := 0
  year_lt := by decide
  month_pos := by decide
  month_le := by decide
  day_pos := by decide
  day_le := by decide
  hour_lt := by decide
  minute_lt := by decide
  second_lt := by decide

def aroundOne : List Attribute := plainSigner "20240101125930Z".toList "20240101130000Z".toList

theorem getSignatureTimeStamp_iff_aroundOne :
    (getSignatureTimeStamp plainApi (some aroundOne) = beforeOne.stamp ↔ beforeOne.Within atOne 60) ↔
      beforeOne.SameHour atOne ∨ ¬beforeOne.Within atOne 60 :=
  getSignatureTimeStamp_iff plainApi aroundOne beforeOne atOne (by decide +kernel) (by decide +kernel)

/-- Half a minute apart across the full hour, and the timestamp is dropped. -/
theorem getSignatureTimeStamp_across_hour :
    getRfc3161TimeStamp plainApi aroundOne = beforeOne.stamp ∧
      getNestedRfc3161TimeStamp plainApi aroundOne = atOne.stamp ∧ beforeOne.Within atOne 60 ∧
      getSignatureTimeStamp plainApi (some aroundOne) ≠ beforeOne.stamp := by
  refine ⟨by decide +kernel,by decide +kernel,?_,by decide +kernel⟩
  unfold DateTime.Within DateTime.instant DateTime.seconds
  simp only [beforeOne,atOne]
  omega

end Signatures

end SecureWipeOut.TimeStamp
