import SecureWipeOut.Boot.CertificateRoundTrip
import SecureWipeOut.Lib.JqLayout

/-! # What a certificate gives evidence of

The hash of a certificate is taken of four of its fields, and the signature of a text that
jq then writes anew. No record is bound by its hash, and no signature verifies the file
that it is stored with.
-/
namespace SecureWipeOut.Certificate
open Json Text

/-- A signature scheme under which a signature verifies the signed text and no other, and
the encoding of its signatures. -/
structure Scheme where
  sign : List Char → List Char
  verify : List Char → List Char → Bool
  base64 : List Char → Line
  verify_iff : ∀ text signed, verify text (sign signed) = true ↔ text = signed

/-- The files `certificate-data.json` and `certificate-signature.sig`. -/
structure Files where
  data : List Char
  signature : List Char

/-- The assignment to `.security.cryptographic_signature`. -/
def storeSignature (signature : Line) (v : Value) : Option Value :=
  (v.index "security".toList).bind fun security =>
    (security.setIndex "cryptographic_signature".toList (.string signature)).bind fun security =>
      v.setIndex "security".toList security

variable (s : Session) (k : Scheme) (r : Request)

/-- `openssl` may fail. That jq may fail too is not noticed: its output, however much there
is of it, replaces the data. -/
def generateCryptographicSignature (opensslSigns : Bool) (files : Files) : Bool × Files :=
  if opensslSigns then
    (true,{
      data := runFilter (Value.print s.numeral 0) (storeSignature (k.base64 (k.sign files.data))) files.data
      signature := k.sign files.data })
  else (false,files)

section Specification

/-- The fields that a certificate records: its identifier, the path, the description and the size of
the device, the method, the duration and the outcome, and the time. -/
def recorded : List (List Char) :=
  [certId s r,r.device,r.deviceInfo,deviceSize s,r.wipeMethod,r.wipeDuration,r.verificationStatus,s.timestamp]

/-- Every other record has another text to be hashed. -/
def HashEvident : Prop :=
  ∀ (s' : Session) (r' : Request), recorded s' r' ≠ recorded s r → hashInput s' r' ≠ hashInput s r

/-- After the signature has been generated it verifies the data. -/
def SignatureEvident : Prop := ∀ (opensslSigns : Bool) (signature : List Char) (files : Files),
  generateCryptographicSignature s k opensslSigns ⟨createCertificateData s r,signature⟩ = (true,files) →
    k.verify files.data files.signature = true

end Specification

/-- The text that is hashed has neither the description of the device nor its size, neither
the duration nor the outcome. -/
theorem hashInput_update (size : Option ℕ) (deviceInfo wipeDuration verificationStatus : List Char) :
    hashInput
      { s with deviceSizeGb := size }
      { r with
        deviceInfo := deviceInfo
        wipeDuration := wipeDuration
        verificationStatus := verificationStatus } = hashInput s r := rfl

theorem not_hashEvident : ¬ HashEvident s r := by
  intro h
  refine h s { r with deviceInfo := 'x' :: r.deviceInfo } ?_ (hashInput_update s r s.deviceSizeGb _ _ _)
  intro heq
  have hinfo : 'x' :: r.deviceInfo = r.deviceInfo := (List.cons.inj (List.cons.inj (List.cons.inj heq).2).2).1
  exact absurd (congrArg List.length hinfo) (by simp)

/-- The line with the standards has the first of them next to its bracket. -/
theorem createCertificateData_layout : ['[','"','N'] <:+: createCertificateData s r := by
  have hline : standardsLine ∈ certificateData s r := List.mem_of_getElem? (i := 32) rfl
  obtain ⟨before,after,heq⟩ := List.append_of_mem hline
  have hstandards : ['[','"','N'] <:+: standardsLine := ⟨"    \"standards\": ".toList,_,rfl⟩
  have hfile : standardsLine <:+: createCertificateData s r := by
    refine ⟨fileText before,'\n' :: fileText after,?_⟩
    rw [createCertificateData,heq]
    simp [fileText]
  exact hstandards.trans hfile

theorem not_mem_numeral (t : List Char) : '[' ∉ s.numeral t :=
  fun h => absurd (s.numeral_chars t _ h) (by decide)

/-- What jq writes is never the text that was signed. -/
theorem rewritten_ne (filter : Value → Option Value) :
    runFilter (Value.print s.numeral 0) filter (createCertificateData s r) ≠ createCertificateData s r := by
  intro h
  have hfollows : Follows 'N' := ⟨by decide,by decide,by decide⟩
  have hlayout := createCertificateData_layout s r
  rw [← h] at hlayout
  exact runFilter_layout hfollows (not_mem_numeral s) filter _ hlayout

theorem generateCryptographicSignature_signs (data signature : List Char) :
    generateCryptographicSignature s k true ⟨data,signature⟩ =
      (true,⟨runFilter (Value.print s.numeral 0) (storeSignature (k.base64 (k.sign data))) data,k.sign data⟩) := by
  rw [generateCryptographicSignature,if_pos rfl]

/-- A text that changes when it is rewritten is not verified. -/
theorem not_verify {data : List Char}
    (hne : ∀ filter, runFilter (Value.print s.numeral 0) filter data ≠ data) :
    ∃ files, generateCryptographicSignature s k true ⟨data,[]⟩ = (true,files) ∧
      ¬ k.verify files.data files.signature = true := by
  refine ⟨_,generateCryptographicSignature_signs s k data [],?_⟩
  rw [k.verify_iff]
  exact hne _

theorem not_signatureEvident : ¬ SignatureEvident s k r := by
  intro h
  obtain ⟨files,hfiles,hverify⟩ := not_verify s k (rewritten_ne s r)
  exact hverify (h true [] files hfiles)

/-- No certificate is bound by its hash, and none is verified by the signature stored with it. -/
theorem certificate_not_evident (s : Session) (k : Scheme) (r : Request) :
    ¬ HashEvident s r ∧ ¬ SignatureEvident s k r :=
  ⟨not_hashEvident s r,not_signatureEvident s k r⟩

def passedDrive : Request where
  device := "/dev/sda".toList
  deviceInfo := "Samsung 870 EVO".toList
  wipeMethod := "NIST SP 800-88".toList
  wipeDuration := "3600".toList
  verificationStatus := "PASSED".toList

def failedDrive : Request := { passedDrive with verificationStatus := "FAILED".toList }

/-- A scheme whose signatures are the texts themselves. -/
def textScheme : Scheme where
  sign text := text
  verify text signature := text == signature
  base64 signature := signature
  verify_iff _ _ := beq_iff_eq

theorem certificate_not_evident_failed : (recorded newYear failedDrive ≠ recorded newYear passedDrive ∧
    hashInput newYear failedDrive = hashInput newYear passedDrive) ∧
    ¬ SignatureEvident newYear textScheme passedDrive := by
  refine ⟨⟨fun h => ?_,hashInput_update newYear passedDrive _ _ _ _⟩,not_signatureEvident _ _ _⟩
  have hstatus : failedDrive.verificationStatus = passedDrive.verificationStatus := by
    simp only [recorded,List.cons.injEq] at h
    exact h.2.2.2.2.2.2.1
  exact absurd hstatus (by decide)

end SecureWipeOut.Certificate
