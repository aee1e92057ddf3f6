import SecureWipeOut.Lib.Jq
import SecureWipeOut.Lib.Text

/-! # Certificates of data destruction

The certificate data are a here-document into which the values are substituted as they
are. They are signed and then rewritten by jq with the signature in place, and the
document printed for the user shows what `jq -r` makes of them.
-/
namespace SecureWipeOut.Certificate
open Json Text

def certVersion : Line := "1.0".toList
def certAuthority : Line := "SecureWipe India Pvt Ltd".toList
def certValidityYears : Line := "10".toList
def secureWipeVersion : Line := "1.0.0".toList
def operatorId : Line := "SYSTEM".toList
def location : Line := "Secure Boot Environment".toList

inductive DeviceType
  | unknown | hdd | ssd | nvme | emmc | usb

def getDeviceTypeName : DeviceType → Line
  | .hdd => "Traditional Hard Drive (HDD)".toList
  | .ssd => "Solid State Drive (SSD)".toList
  | .nvme => "NVMe SSD".toList
  | .emmc => "eMMC Storage".toList
  | .usb => "USB Storage Device".toList
  | .unknown => "Unknown Device Type".toList

/-- The arguments of `create_certificate_data`. -/
structure Request where
  device : List Char
  deviceInfo : List Char
  wipeMethod : List Char
  wipeDuration : List Char
  verificationStatus : List Char

/-- What the commands print and the exported variables hold: the clock, the digest of a
text, a number of a JSON text, and the findings about the device. -/
structure Session where
  timestamp : Line
  day : Line
  time : Line
  sha256sum : List Char → Line
  numeral : List Char → Line
  deviceSizeGb : Option ℕ
  detectedDeviceType : DeviceType
  hpaDetected : Bool
  timestamp_chars : ∀ c ∈ timestamp, c.isDigit = true ∨ c ∈ "-: UTC".toList
  day_digits : ∀ c ∈ day, c.isDigit = true
  time_digits : ∀ c ∈ time, c.isDigit = true
  sha256sum_hex : ∀ t, ∀ c ∈ sha256sum t, c ∈ "0123456789abcdef".toList
  numeral_chars : ∀ t, ∀ c ∈ numeral t, c ∈ "0123456789+-.eE".toList

/-- A command substitution removes null characters, and the line breaks at the end. -/
def substitution (output : List Char) : List Char :=
  (output.filter fun c => c != Char.ofNat 0).rdropWhile fun c => c == '\n'

/-- An argument that `echo` takes for options. -/
def echoOption : List Char → Bool
  | '-' :: c :: cs => (c :: cs).all fun c => "neE".toList.contains c
  | _ => false

def echo (arg : List Char) : List Char :=
  if echoOption arg then (if arg.contains 'n' then [] else ['\n']) else arg ++ ['\n']

/-- The pipe through `tr '/' '-'` and `tr -d '/dev'`, which removes single characters. -/
def deviceTag (device : List Char) : List Char :=
  substitution (((echo device).map fun c => if c = '/' then '-' else c).filter
    fun c => !"/dev".toList.contains c)

def certId (s : Session) (r : Request) : List Char :=
  "SW-".toList ++ s.day ++ "-".toList ++ deviceTag r.device ++ "-".toList ++ s.time

/-- The text that the certificate's hash is taken of. -/
def hashInput (s : Session) (r : Request) : List Char :=
  certId s r ++ r.device ++ s.timestamp ++ r.wipeMethod

def deviceSize (s : Session) : Line :=
  match s.deviceSizeGb with
  | some n => Nat.toDigits 10 n
  | none => "Unknown".toList

def hpaStatus (s : Session) : Line := if s.hpaDetected then "true".toList else "false".toList

/-- A line of the here-document that gives a value its name. -/
def entry (name : String) (value : List Char) : List Char :=
  ' ' :: ' ' :: ' ' :: ' ' :: '"' :: (name.toList ++ '"' :: ':' :: ' ' :: '"' :: (value ++ ['"']))

/-- The here-document. -/
def certificateData (s : Session) (r : Request) : List (List Char) :=
  ["\x7b".toList,
    "  \"certificate\": \x7b".toList,
    entry "version" certVersion ++ [','],
    entry "id" (certId s r) ++ [','],
    entry "issued_date" s.timestamp ++ [','],
    entry "authority" certAuthority ++ [','],
    entry "validity_period" (certValidityYears ++ " years".toList) ++ [','],
    entry "hash" (s.sha256sum (hashInput s r)),
    "  \x7d,".toList,
    "  \"device\": \x7b".toList,
    entry "path" r.device ++ [','],
    entry "description" r.deviceInfo ++ [','],
    entry "type" (getDeviceTypeName s.detectedDeviceType) ++ [','],
    entry "size_gb" (deviceSize s) ++ [','],
    entry "hpa_detected" (hpaStatus s),
    "  \x7d,".toList,
    "  \"operation\": \x7b".toList,
    entry "method" r.wipeMethod ++ [','],
    entry "duration_seconds" r.wipeDuration ++ [','],
    entry "verification_status" r.verificationStatus ++ [','],
    entry "operator" operatorId ++ [','],
    entry "location" location ++ [','],
    entry "timestamp" s.timestamp,
    "  \x7d,".toList,
    "  \"security\": \x7b".toList,
    entry "wiping_engine_version" secureWipeVersion ++ [','],
    entry "certificate_authority" certAuthority ++ [','],
    entry "cryptographic_signature" "Generated".toList ++ [','],
    "    \"tamper_proof\": true,".toList,
    "    \"audit_trail\": true".toList,
    "  \x7d,".toList,
    "  \"compliance\": \x7b".toList,
    "    \"standards\": [\"NIST SP 800-88\", \"DoD 5220.22-M\", \"ISO 27001\"],".toList,
    entry "india_compliance" "IT Act 2000, Digital India Initiative".toList ++ [','],
    entry "environmental" "E-Waste Management Rules 2016".toList,
    "  \x7d".toList,
    "\x7d".toList]

def fileText (ls : List (List Char)) : List Char := ls.flatMap fun l => l ++ ['\n']

/-- The file `certificate-data.json` as `create_certificate_data` leaves it. -/
def createCertificateData (s : Session) (r : Request) : List Char := fileText (certificateData s r)

/-- A value as `create_pdf_certificate` extracts it with `jq -r`. -/
def extract (s : Session) (file : List Char) (object name : String) : List Char :=
  substitution (runFilter (Value.printRaw s.numeral)
    (fun v => (v.index object.toList).bind (Value.index name.toList)) file)

section Specification
variable (s : Session) (r : Request)

/-- The file is valid and gives the arguments back. -/
def RoundTrip : Prop :=
  (parseJson (createCertificateData s r)).isSome = true ∧
    extract s (createCertificateData s r) "device" "path" = r.device ∧
    extract s (createCertificateData s r) "device" "description" = r.deviceInfo ∧
    extract s (createCertificateData s r) "operation" "method" = r.wipeMethod ∧
    extract s (createCertificateData s r) "operation" "duration_seconds" = r.wipeDuration ∧
    extract s (createCertificateData s r) "operation" "verification_status" = r.verificationStatus

/-- The strings that are substituted as they are passed in. -/
def Request.strings (r : Request) : List (List Char) :=
  [r.device,r.deviceInfo,r.wipeMethod,r.wipeDuration,r.verificationStatus]

end Specification

end SecureWipeOut.Certificate
