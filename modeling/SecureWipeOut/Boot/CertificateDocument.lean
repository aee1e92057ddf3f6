import SecureWipeOut.Boot.Certificate
import SecureWipeOut.Lib.JsonValues

/-! # Reading certificate data back

On plain strings the here-document is read line by line as it is meant to be.
-/
namespace SecureWipeOut.Certificate
open Json Text

section Plain

theorem plain_of_all {s : List Char} (h : s.all (fun c => !special c) = true) : Plain s := by
  intro c hc
  simpa using List.all_eq_true.mp h c hc

theorem Plain.append {s t : List Char} (hs : Plain s) (ht : Plain t) : Plain (s ++ t) := by
  intro c hc
  rcases List.mem_append.mp hc with hc | hc
  · exact hs c hc
  · exact ht c hc

theorem plain_of_digits {s : List Char} (h : ∀ c ∈ s, c.isDigit = true) : Plain s := by
  intro c hc
  have hd := h c hc
  simp only [Char.isDigit,Bool.and_eq_true,decide_eq_true_eq] at hd
  have h1 : 48 ≤ c.toNat := hd.1
  have h2 : c.toNat ≤ 57 := hd.2
  simp only [special,Bool.or_eq_false_iff,beq_eq_false_iff_ne,decide_eq_false_iff_not]
  refine ⟨⟨?_,?_⟩,by omega⟩
  · rintro rfl
    exact absurd h1 (by decide)
  · rintro rfl
    exact absurd h2 (by decide)

variable (s : Session) (r : Request)

theorem plain_timestamp : Plain s.timestamp := by
  intro c hc
  rcases s.timestamp_chars c hc with h | h
  · exact plain_of_digits (s := [c]) (by simpa using h) c List.mem_cons_self
  · exact plain_of_all rfl c h

theorem plain_sha256sum (t : List Char) : Plain (s.sha256sum t) :=
  fun c hc => plain_of_all (s := "0123456789abcdef".toList) rfl c (s.sha256sum_hex t c hc)

theorem plain_deviceType (d : DeviceType) : Plain (getDeviceTypeName d) := by
  cases d <;> exact plain_of_all rfl

theorem plain_deviceSize : Plain (deviceSize s) := by
  unfold deviceSize
  split
  · exact plain_of_digits fun c hc => Nat.isDigit_of_mem_toDigits (by decide) (by decide) hc
  · exact plain_of_all rfl

theorem plain_hpaStatus : Plain (hpaStatus s) := by
  unfold hpaStatus
  split <;> exact plain_of_all rfl

/-- What `tr` makes of a character, and which ones it removes. -/
def dashed (c : Char) : Char := if c = '/' then '-' else c
def removed (c : Char) : Bool := "/dev".toList.contains c

theorem special_dashed (c : Char) : special (dashed c) = special c := by
  unfold dashed
  split
  · next h => rw [h]; rfl
  · rfl

theorem substitution_sublist (output : List Char) : (substitution output).Sublist output :=
  (List.rdropWhile_prefix _ _).sublist.trans (List.filter_sublist)

theorem substitution_line (line : List Char) : substitution (line ++ ['\n']) = substitution line := by
  have hnl : ['\n'].filter (fun c => c != Char.ofNat 0) = ['\n'] := rfl
  rw [substitution,List.filter_append,hnl,List.rdropWhile_concat_pos _ _ _ rfl]
  rfl

/-- The path of a device contributes no other characters than its own. -/
theorem deviceTag_sublist (device : List Char) : (deviceTag device).Sublist (device.map dashed) := by
  have hecho : ∃ l : List Char, l.Sublist device ∧ (echo device = l ++ ['\n'] ∨ echo device = l) := by
    unfold echo
    split
    · split
      · exact ⟨[],List.nil_sublist device,Or.inr rfl⟩
      · exact ⟨[],List.nil_sublist device,Or.inl rfl⟩
    · exact ⟨device,List.Sublist.refl device,Or.inl rfl⟩
  obtain ⟨l,hl,heq⟩ := hecho
  have hkept : ((l.map dashed).filter fun c => !removed c).Sublist (device.map dashed) :=
    List.filter_sublist.trans (hl.map dashed)
  change (substitution (((echo device).map dashed).filter fun c => !removed c)).Sublist _
  rcases heq with heq | heq
  · have hnl : (['\n'].map dashed).filter (fun c => !removed c) = ['\n'] := rfl
    rw [heq,List.map_append,List.filter_append,hnl,substitution_line]
    exact (substitution_sublist _).trans hkept
  · rw [heq]
    exact (substitution_sublist _).trans hkept

theorem plain_deviceTag {device : List Char} (h : Plain device) : Plain (deviceTag device) := by
  intro c hc
  obtain ⟨d,hd,rfl⟩ := List.mem_map.mp ((deviceTag_sublist device).subset hc)
  rw [special_dashed]
  exact h d hd

theorem plain_certId (h : Plain r.device) : Plain (certId s r) := by
  have hdash : Plain "-".toList := plain_of_all rfl
  have hstart : Plain ("SW-".toList ++ s.day) := Plain.append (plain_of_all rfl) (plain_of_digits s.day_digits)
  exact Plain.append (Plain.append (Plain.append (Plain.append hstart hdash) (plain_deviceTag h)) hdash)
    (plain_of_digits s.time_digits)

end Plain

section Lines
variable {fuel : ℕ} {k : String} {v x : List Char} {ls : List (List Char)}

theorem fileText_cons (l : List Char) (ls : List (List Char)) :
    fileText (l :: ls) = l ++ '\n' :: fileText ls := by
  simp [fileText]

theorem skip_entry (rest : List Char) : skip ('\n' :: (entry k v ++ rest)) =
    '"' :: (k.toList ++ '"' :: ':' :: ' ' :: '"' :: (v ++ '"' :: rest)) := by
  have htext : '\n' :: (entry k v ++ rest) = '\n' :: ' ' :: ' ' :: ' ' :: ' ' ::
      '"' :: (k.toList ++ '"' :: ':' :: ' ' :: '"' :: (v ++ '"' :: rest)) := by
    simp [entry]
  rw [htext]
  rfl

theorem parseMembers_entry (hk : Plain k.toList) (hv : Plain v) :
    parseMembers (fuel + 2) ('\n' :: fileText ((entry k v ++ [',']) :: ls)) =
      (parseMembers (fuel + 1) ('\n' :: fileText ls)).map fun r => ((k.toList,.string v) :: r.1,r.2) := by
  have htext : skip ('\n' :: fileText ((entry k v ++ [',']) :: ls)) =
      '"' :: (k.toList ++ '"' :: ':' :: ' ' :: '"' :: (v ++ '"' :: ',' :: '\n' :: fileText ls)) := by
    rw [fileText_cons,List.append_assoc,skip_entry]
    rfl
  have hvalue : parseValue (fuel + 1) (' ' :: '"' :: (v ++ '"' :: ',' :: '\n' :: fileText ls)) =
      some (.string v,',' :: '\n' :: fileText ls) := parseValue_string hv rfl
  have hcomma : skip (',' :: '\n' :: fileText ls) = ',' :: '\n' :: fileText ls := rfl
  exact parseMembers_cons hk htext hvalue hcomma

theorem parseMembers_entry_last (hk : Plain k.toList) (hv : Plain v) :
    parseMembers (fuel + 2) ('\n' :: fileText (entry k v :: ("  \x7d".toList ++ x) :: ls)) =
      some ([(k.toList,.string v)],x ++ '\n' :: fileText ls) := by
  have htext : skip ('\n' :: fileText (entry k v :: ("  \x7d".toList ++ x) :: ls)) =
      '"' :: (k.toList ++ '"' :: ':' :: ' ' :: '"' :: (v ++ '"' :: '\n' :: ' ' :: ' ' :: '\x7d' ::
        (x ++ '\n' :: fileText ls))) := by
    rw [fileText_cons,skip_entry,fileText_cons,List.append_assoc]
    rfl
  have hvalue : parseValue (fuel + 1) (' ' :: '"' :: (v ++ '"' :: '\n' :: ' ' :: ' ' :: '\x7d' ::
      (x ++ '\n' :: fileText ls))) = some (.string v,'\n' :: ' ' :: ' ' :: '\x7d' ::
        (x ++ '\n' :: fileText ls)) := parseValue_string hv rfl
  have hbrace : skip ('\n' :: ' ' :: ' ' :: '\x7d' :: (x ++ '\n' :: fileText ls)) =
      '\x7d' :: (x ++ '\n' :: fileText ls) := rfl
  exact parseMembers_last hk htext hvalue hbrace

/-- The lines of an object all of whose values are strings. -/
def blockLines (entries : List (String × List Char)) (last : String × List Char) : List (List Char) :=
  entries.map (fun e => entry e.1 e.2 ++ [',']) ++ [entry last.1 last.2]

def stringMember (e : String × List Char) : List Char × Value := (e.1.toList,.string e.2)

theorem parseMembers_block (n : ℕ) (x : List Char) (ls : List (List Char))
    (entries : List (String × List Char)) (last : String × List Char)
    (h : ∀ e ∈ entries, Plain e.1.toList ∧ Plain e.2) (hlast : Plain last.1.toList ∧ Plain last.2) :
    parseMembers (n + entries.length + 2)
        ('\n' :: fileText (blockLines entries last ++ ("  \x7d".toList ++ x) :: ls)) =
      some ((entries ++ [last]).map stringMember,x ++ '\n' :: fileText ls) := by
  induction entries with
  | nil => exact parseMembers_entry_last hlast.1 hlast.2
  | cons e entries ih =>
    obtain ⟨hk,hv⟩ := h e List.mem_cons_self
    have hrest := ih fun d hd => h d (List.mem_cons_of_mem e hd)
    have hlen : n + (e :: entries).length + 2 = n + entries.length + 1 + 2 := by
      rw [List.length_cons]
      omega
    change parseMembers _ ('\n' :: fileText ((entry e.1 e.2 ++ [',']) ::
      (blockLines entries last ++ ("  \x7d".toList ++ x) :: ls))) = _
    rw [hlen,parseMembers_entry hk hv]
    change Option.map _ (parseMembers (n + entries.length + 2) _) = _
    rw [hrest]
    rfl

/-- The line that opens an object. -/
def opening (name : String) : List Char := ' ' :: ' ' :: '"' :: (name.toList ++ ['"',':',' ','{'])

/-- An object of the document, given what becomes of its members. -/
theorem parseMembers_opening {ms : List (List Char × Value)} {w : List Char} (hk : Plain k.toList)
    (hstart : ∃ u, skip ('\n' :: fileText ls) = '"' :: u)
    (hms : parseMembers fuel ('\n' :: fileText ls) = some (ms,w)) :
    (∀ x, skip w = ',' :: x → parseMembers (fuel + 2) ('\n' :: fileText (opening k :: ls)) =
      (parseMembers (fuel + 1) x).map fun r => ((k.toList,.object (collapse ms)) :: r.1,r.2)) ∧
    ∀ x, skip w = '}' :: x → parseMembers (fuel + 2) ('\n' :: fileText (opening k :: ls)) =
      some ([(k.toList,.object (collapse ms))],x) := by
  obtain ⟨u,hu⟩ := hstart
  have htext : skip ('\n' :: fileText (opening k :: ls)) =
      '"' :: (k.toList ++ '"' :: ':' :: ' ' :: '{' :: '\n' :: fileText ls) := by
    have heq : '\n' :: fileText (opening k :: ls) =
        '\n' :: ' ' :: ' ' :: '"' :: (k.toList ++ '"' :: ':' :: ' ' :: '{' :: '\n' :: fileText ls) := by
      simp [fileText_cons,opening]
    rw [heq]
    rfl
  have hvalue : parseValue (fuel + 1) (' ' :: '{' :: '\n' :: fileText ls) =
      some (.object (collapse ms),w) := by
    have hbrace : skip (' ' :: '{' :: '\n' :: fileText ls) = '{' :: '\n' :: fileText ls := rfl
    rw [parseValue_object hbrace hu,hms]
    rfl
  exact ⟨fun x hx => parseMembers_cons hk htext hvalue hx,fun x hx => parseMembers_last hk htext hvalue hx⟩

theorem skip_blockLines (entries : List (String × List Char)) (last : String × List Char)
    (ls : List (List Char)) : ∃ u, skip ('\n' :: fileText (blockLines entries last ++ ls)) = '"' :: u := by
  cases entries with
  | nil =>
    change ∃ u, skip ('\n' :: fileText (entry last.1 last.2 :: ls)) = '"' :: u
    rw [fileText_cons,skip_entry]
    exact ⟨_,rfl⟩
  | cons e entries =>
    change ∃ u, skip ('\n' :: fileText ((entry e.1 e.2 ++ [',']) :: (blockLines entries last ++ ls))) = '"' :: u
    rw [fileText_cons,List.append_assoc,skip_entry]
    exact ⟨_,rfl⟩

/-- An object of strings that is not the last one. -/
theorem parseMembers_object (n : ℕ) {entries : List (String × List Char)} {last : String × List Char}
    {ms : List (List Char × Value)} {w : List Char} (hk : Plain k.toList)
    (h : ∀ e ∈ entries, Plain e.1.toList ∧ Plain e.2) (hlast : Plain last.1.toList ∧ Plain last.2)
    (hrest : parseMembers (n + entries.length + 3) ('\n' :: fileText ls) = some (ms,w)) :
    parseMembers (n + entries.length + 4)
        ('\n' :: fileText (opening k :: (blockLines entries last ++ ("  \x7d".toList ++ [',']) :: ls))) =
      some ((k.toList,.object (collapse ((entries ++ [last]).map stringMember))) :: ms,w) := by
  have hobject := (parseMembers_opening hk (skip_blockLines entries last _)
    (parseMembers_block n [','] ls entries last h hlast)).1 _ rfl
  exact hobject.trans (congrArg _ hrest)

/-- A line that sets a flag. -/
def flag (name : String) : List Char :=
  ' ' :: ' ' :: ' ' :: ' ' :: '"' :: (name.toList ++ ['"',':',' ','t','r','u','e'])

theorem skip_flag (rest : List Char) : skip ('\n' :: (flag k ++ rest)) =
    '"' :: (k.toList ++ '"' :: ':' :: ' ' :: 't' :: 'r' :: 'u' :: 'e' :: rest) := by
  have htext : '\n' :: (flag k ++ rest) = '\n' :: ' ' :: ' ' :: ' ' :: ' ' ::
      '"' :: (k.toList ++ '"' :: ':' :: ' ' :: 't' :: 'r' :: 'u' :: 'e' :: rest) := by
    simp [flag]
  rw [htext]
  rfl

theorem parseValue_true (rest : List Char) :
    parseValue (fuel + 1) (' ' :: 't' :: 'r' :: 'u' :: 'e' :: rest) = some (.bool true,rest) := rfl

theorem parseMembers_flag (hk : Plain k.toList) :
    parseMembers (fuel + 2) ('\n' :: fileText ((flag k ++ [',']) :: ls)) =
      (parseMembers (fuel + 1) ('\n' :: fileText ls)).map fun r => ((k.toList,.bool true) :: r.1,r.2) := by
  have htext : skip ('\n' :: fileText ((flag k ++ [',']) :: ls)) =
      '"' :: (k.toList ++ '"' :: ':' :: ' ' :: 't' :: 'r' :: 'u' :: 'e' :: ',' :: '\n' :: fileText ls) := by
    rw [fileText_cons,List.append_assoc,skip_flag]
    rfl
  have hcomma : skip (',' :: '\n' :: fileText ls) = ',' :: '\n' :: fileText ls := rfl
  exact parseMembers_cons hk htext (parseValue_true _) hcomma

theorem parseMembers_flag_last (hk : Plain k.toList) :
    parseMembers (fuel + 2) ('\n' :: fileText (flag k :: ("  \x7d".toList ++ x) :: ls)) =
      some ([(k.toList,.bool true)],x ++ '\n' :: fileText ls) := by
  have htext : skip ('\n' :: fileText (flag k :: ("  \x7d".toList ++ x) :: ls)) =
      '"' :: (k.toList ++ '"' :: ':' :: ' ' :: 't' :: 'r' :: 'u' :: 'e' :: '\n' :: ' ' :: ' ' :: '\x7d' ::
        (x ++ '\n' :: fileText ls)) := by
    rw [fileText_cons,skip_flag,fileText_cons,List.append_assoc]
    rfl
  have hbrace : skip ('\n' :: ' ' :: ' ' :: '\x7d' :: (x ++ '\n' :: fileText ls)) =
      '\x7d' :: (x ++ '\n' :: fileText ls) := rfl
  exact parseMembers_last hk htext (parseValue_true _) hbrace

end Lines

section Document

/-- The standards that the document names. -/
def standards : Value := .array [.string "NIST SP 800-88".toList,.string "DoD 5220.22-M".toList,
  .string "ISO 27001".toList]

def standardsLine : List Char := "    \"standards\": [\"NIST SP 800-88\", \"DoD 5220.22-M\", \"ISO 27001\"],".toList

theorem parseMembers_standards (fuel : ℕ) (ls : List (List Char)) :
    parseMembers (fuel + 6) ('\n' :: fileText (standardsLine :: ls)) =
      (parseMembers (fuel + 5) ('\n' :: fileText ls)).map fun r => (("standards".toList,standards) :: r.1,r.2) := by
  have hn : Plain "NIST SP 800-88".toList := plain_of_all rfl
  have hd : Plain "DoD 5220.22-M".toList := plain_of_all rfl
  have hi : Plain "ISO 27001".toList := plain_of_all rfl
  have hk : Plain "standards".toList := plain_of_all rfl
  have hlist : parseElements (fuel + 4) ('"' :: ("NIST SP 800-88".toList ++ '"' :: ',' :: ' ' :: '"' ::
      ("DoD 5220.22-M".toList ++ '"' :: ',' :: ' ' :: '"' :: ("ISO 27001".toList ++ '"' :: ']' :: ',' :: '\n' ::
        fileText ls)))) = some ([.string "NIST SP 800-88".toList,.string "DoD 5220.22-M".toList,
          .string "ISO 27001".toList],',' :: '\n' :: fileText ls) := by
    rw [parseElements_cons (parseValue_string hn rfl) rfl,parseElements_cons (parseValue_string hd rfl) rfl,
      parseElements_last (parseValue_string hi rfl) rfl]
    rfl
  have hvalue : parseValue (fuel + 5) (' ' :: '[' :: '"' :: ("NIST SP 800-88".toList ++ '"' :: ',' :: ' ' :: '"' ::
      ("DoD 5220.22-M".toList ++ '"' :: ',' :: ' ' :: '"' :: ("ISO 27001".toList ++ '"' :: ']' :: ',' :: '\n' ::
        fileText ls)))) = some (standards,',' :: '\n' :: fileText ls) := by
    rw [parseValue_array rfl,hlist]
    rfl
  have hcomma : skip (',' :: '\n' :: fileText ls) = ',' :: '\n' :: fileText ls := rfl
  rw [fileText_cons]
  exact parseMembers_cons hk rfl hvalue hcomma

variable (s : Session) (r : Request)

def certificateEntries : List (String × List Char) :=
  [("version",certVersion),("id",certId s r),("issued_date",s.timestamp),("authority",certAuthority),
    ("validity_period",certValidityYears ++ " years".toList)]

def deviceEntries : List (String × List Char) :=
  [("path",r.device),("description",r.deviceInfo),("type",getDeviceTypeName s.detectedDeviceType),
    ("size_gb",deviceSize s)]

def operationEntries : List (String × List Char) :=
  [("method",r.wipeMethod),("duration_seconds",r.wipeDuration),("verification_status",r.verificationStatus),
    ("operator",operatorId),("location",location)]

def securityLines : List (List Char) :=
  [entry "wiping_engine_version" secureWipeVersion ++ [','],entry "certificate_authority" certAuthority ++ [','],
    entry "cryptographic_signature" "Generated".toList ++ [','],flag "tamper_proof" ++ [','],flag "audit_trail"]

def complianceEntry : String × List Char := ("india_compliance","IT Act 2000, Digital India Initiative".toList)

def complianceLast : String × List Char := ("environmental","E-Waste Management Rules 2016".toList)

/-- The here-document by its objects. -/
theorem certificateData_eq : certificateData s r = "\x7b".toList :: opening "certificate" ::
    (blockLines (certificateEntries s r) ("hash",s.sha256sum (hashInput s r)) ++
      ("  \x7d".toList ++ [',']) :: opening "device" ::
    (blockLines (deviceEntries s r) ("hpa_detected",hpaStatus s) ++
      ("  \x7d".toList ++ [',']) :: opening "operation" ::
    (blockLines (operationEntries r) ("timestamp",s.timestamp) ++
      ("  \x7d".toList ++ [',']) :: opening "security" ::
    (securityLines ++ ("  \x7d".toList ++ [',']) :: opening "compliance" ::
    (standardsLine :: (blockLines [complianceEntry] complianceLast ++
      ("  \x7d".toList ++ []) :: ["\x7d".toList])))))) := rfl

/-- The members of the document. -/
def documentMembers : List (List Char × Value) :=
  [("certificate".toList,.object (collapse
      ((certificateEntries s r ++ [("hash",s.sha256sum (hashInput s r))]).map stringMember))),
    ("device".toList,.object (collapse
      ((deviceEntries s r ++ [("hpa_detected",hpaStatus s)]).map stringMember))),
    ("operation".toList,.object (collapse
      ((operationEntries r ++ [("timestamp",s.timestamp)]).map stringMember))),
    ("security".toList,.object (collapse
      [("wiping_engine_version".toList,.string secureWipeVersion),
        ("certificate_authority".toList,.string certAuthority),
        ("cryptographic_signature".toList,.string "Generated".toList),
        ("tamper_proof".toList,.bool true),("audit_trail".toList,.bool true)])),
    ("compliance".toList,.object (collapse
      (("standards".toList,standards) :: [complianceEntry,complianceLast].map stringMember)))]

theorem parseMembers_security (fuel : ℕ) (ls : List (List Char)) :
    parseMembers (fuel + 6) ('\n' :: fileText (securityLines ++ ("  \x7d".toList ++ [',']) :: ls)) =
      some ([("wiping_engine_version".toList,.string secureWipeVersion),
        ("certificate_authority".toList,.string certAuthority),
        ("cryptographic_signature".toList,.string "Generated".toList),
        ("tamper_proof".toList,.bool true),("audit_trail".toList,.bool true)],',' :: '\n' :: fileText ls) := by
  change parseMembers (fuel + 6) ('\n' :: fileText ((entry "wiping_engine_version" secureWipeVersion ++ [',']) ::
    (entry "certificate_authority" certAuthority ++ [',']) ::
    (entry "cryptographic_signature" "Generated".toList ++ [',']) :: (flag "tamper_proof" ++ [',']) ::
    flag "audit_trail" :: ("  \x7d".toList ++ [',']) :: ls)) = _
  rw [parseMembers_entry (plain_of_all rfl) (plain_of_all rfl),
    parseMembers_entry (plain_of_all rfl) (plain_of_all rfl),
    parseMembers_entry (plain_of_all rfl) (plain_of_all rfl),parseMembers_flag (plain_of_all rfl),
    parseMembers_flag_last (plain_of_all rfl)]
  rfl

variable {s r}

theorem plain_documentEntries (h : ∀ t ∈ r.strings, Plain t) :
    (∀ e ∈ certificateEntries s r, Plain e.1.toList ∧ Plain e.2) ∧
      (∀ e ∈ deviceEntries s r, Plain e.1.toList ∧ Plain e.2) ∧
      ∀ e ∈ operationEntries r, Plain e.1.toList ∧ Plain e.2 := by
  simp only [Request.strings,List.forall_mem_cons] at h
  obtain ⟨hdevice,hinfo,hmethod,hduration,hstatus,-⟩ := h
  simp only [certificateEntries,deviceEntries,operationEntries,List.forall_mem_cons,List.not_mem_nil,
    false_imp_iff,implies_true,and_true]
  refine ⟨⟨⟨plain_of_all rfl,plain_of_all rfl⟩,⟨plain_of_all rfl,plain_certId s r hdevice⟩,
    ⟨plain_of_all rfl,plain_timestamp s⟩,⟨plain_of_all rfl,plain_of_all rfl⟩,plain_of_all rfl,
    plain_of_all rfl⟩,?_,?_⟩
  · exact ⟨⟨plain_of_all rfl,hdevice⟩,⟨plain_of_all rfl,hinfo⟩,⟨plain_of_all rfl,plain_deviceType _⟩,
      plain_of_all rfl,plain_deviceSize s⟩
  · exact ⟨⟨plain_of_all rfl,hmethod⟩,⟨plain_of_all rfl,hduration⟩,⟨plain_of_all rfl,hstatus⟩,
      ⟨plain_of_all rfl,plain_of_all rfl⟩,plain_of_all rfl,plain_of_all rfl⟩

/-- On plain arguments the document has the members it is written with. -/
theorem parseMembers_document (h : ∀ t ∈ r.strings, Plain t) (n : ℕ) :
    parseMembers (n + 22) ('\n' :: fileText (certificateData s r).tail) =
      some (documentMembers s r,['\n']) := by
  obtain ⟨hc,hd,ho⟩ := plain_documentEntries (s := s) h
  have hkey : Plain "hash".toList ∧ Plain "hpa_detected".toList ∧ Plain "timestamp".toList ∧
      Plain "india_compliance".toList ∧ Plain "environmental".toList :=
    ⟨plain_of_all rfl,plain_of_all rfl,plain_of_all rfl,plain_of_all rfl,plain_of_all rfl⟩
  have hname : Plain "certificate".toList ∧ Plain "device".toList ∧ Plain "operation".toList ∧
      Plain "security".toList ∧ Plain "compliance".toList :=
    ⟨plain_of_all rfl,plain_of_all rfl,plain_of_all rfl,plain_of_all rfl,plain_of_all rfl⟩
  have hcompliance : parseMembers (n + 16) ('\n' :: fileText (standardsLine ::
      (blockLines [complianceEntry] complianceLast ++ ("  \x7d".toList ++ []) :: ["\x7d".toList]))) =
        some (("standards".toList,standards) :: [complianceEntry,complianceLast].map stringMember,
          [] ++ '\n' :: fileText ["\x7d".toList]) := by
    have hblock := parseMembers_block (n + 12) [] ["\x7d".toList] [complianceEntry]
      complianceLast (by simpa using ⟨hkey.2.2.2.1,plain_of_all rfl⟩) ⟨hkey.2.2.2.2,plain_of_all rfl⟩
    rw [parseMembers_standards (n + 10)]
    change Option.map _ (parseMembers (n + 12 + [complianceEntry].length + 2) _) = _
    rw [hblock]
    rfl
  have hlast := (parseMembers_opening hname.2.2.2.2 ⟨_,rfl⟩ hcompliance).2 _ rfl
  have hsecurity := fun ls => (parseMembers_opening hname.2.2.2.1 ⟨_,rfl⟩
    (parseMembers_security (n + 11) ls)).1 _ rfl
  have hend := (hsecurity _).trans (congrArg _ hlast)
  have htimestamp : Plain ("timestamp",s.timestamp).1.toList ∧ Plain ("timestamp",s.timestamp).2 :=
    ⟨hkey.2.2.1,plain_timestamp s⟩
  have hhpa : Plain ("hpa_detected",hpaStatus s).1.toList ∧ Plain ("hpa_detected",hpaStatus s).2 :=
    ⟨hkey.2.1,plain_hpaStatus s⟩
  have hhash : Plain ("hash",s.sha256sum (hashInput s r)).1.toList ∧
      Plain ("hash",s.sha256sum (hashInput s r)).2 := ⟨hkey.1,plain_sha256sum s _⟩
  have hoperation := parseMembers_object (n + 11) hname.2.2.1 ho htimestamp hend
  have hdevice := parseMembers_object (n + 13) hname.2.1 hd hhpa hoperation
  rw [certificateData_eq,List.tail_cons]
  exact parseMembers_object (n + 13) hname.1 hc hhash hdevice

theorem length_le_fileText (ls : List (List Char)) : ls.length ≤ (fileText ls).length := by
  induction ls with
  | nil => exact le_refl _
  | cons l ls ih =>
    rw [fileText_cons,List.length_append,List.length_cons,List.length_cons]
    omega

theorem parseJson_document (h : ∀ t ∈ r.strings, Plain t) :
    parseJson (createCertificateData s r) = some (.object (collapse (documentMembers s r))) := by
  have htext : createCertificateData s r = '{' :: '\n' :: fileText (certificateData s r).tail := rfl
  have hfuel : ∃ n, (createCertificateData s r).length + 1 = n + 22 + 1 := by
    have hlen : (certificateData s r).length ≤ (createCertificateData s r).length := length_le_fileText _
    have hlines : (certificateData s r).length = 37 := rfl
    exact ⟨(createCertificateData s r).length - 22,by omega⟩
  obtain ⟨n,hn⟩ := hfuel
  have hquote : ∃ w, skip ('\n' :: fileText (certificateData s r).tail) = '"' :: w := ⟨_,rfl⟩
  obtain ⟨w,hw⟩ := hquote
  have hbrace : skip (createCertificateData s r) = '{' :: '\n' :: fileText (certificateData s r).tail := rfl
  rw [parseJson,hn,parseValue_object hbrace hw,parseMembers_document h]
  rfl

theorem index_entries {entries : List (String × List Char)} {name : String} {t : List Char}
    (h : (entries.map Prod.fst).Nodup) (hmem : (name,t) ∈ entries) :
    (Value.object (collapse (entries.map stringMember))).index name.toList = some (.string t) := by
  refine index_of_mem ?_ (List.mem_map_of_mem hmem)
  have hkeys : (entries.map stringMember).map Prod.fst = (entries.map Prod.fst).map String.toList := by
    simp [List.map_map,Function.comp_def,stringMember]
  rw [hkeys]
  exact h.map fun _ _ => String.toList_injective

theorem documentMembers_nodup : ((documentMembers s r).map Prod.fst).Nodup := by
  change (["certificate".toList,"device".toList,"operation".toList,"security".toList,"compliance".toList]).Nodup
  decide

theorem index_device {name : String} {t : List Char}
    (h : (name,t) ∈ deviceEntries s r ++ [("hpa_detected",hpaStatus s)]) :
    ((Value.object (collapse (documentMembers s r))).index "device".toList).bind
      (Value.index name.toList) = some (.string t) := by
  have hobject := index_of_mem (documentMembers_nodup (s := s) (r := r)) (List.mem_of_getElem? (i := 1) rfl)
  refine (congrArg (fun o => o.bind (Value.index name.toList)) hobject).trans ?_
  have hkeys : (["path","description","type","size_gb","hpa_detected"] : List String).Nodup := by decide
  exact index_entries hkeys h

theorem index_operation {name : String} {t : List Char}
    (h : (name,t) ∈ operationEntries r ++ [("timestamp",s.timestamp)]) :
    ((Value.object (collapse (documentMembers s r))).index "operation".toList).bind
      (Value.index name.toList) = some (.string t) := by
  have hobject := index_of_mem (documentMembers_nodup (s := s) (r := r)) (List.mem_of_getElem? (i := 2) rfl)
  refine (congrArg (fun o => o.bind (Value.index name.toList)) hobject).trans ?_
  have hkeys : (["method","duration_seconds","verification_status","operator","location","timestamp"] :
      List String).Nodup := by decide
  exact index_entries hkeys h

/-- A plain argument comes back from the document. -/
theorem extract_document (h : ∀ t ∈ r.strings, Plain t) {object name : String} {t : List Char}
    (hv : ((Value.object (collapse (documentMembers s r))).index object.toList).bind
      (Value.index name.toList) = some (.string t)) (ht : Plain t) :
    extract s (createCertificateData s r) object name = t := by
  have hzero : t.filter (fun c => c != Char.ofNat 0) = t := by
    refine List.filter_eq_self.mpr fun c hc => ?_
    have hne : c ≠ Char.ofNat 0 := by
      rintro rfl
      exact (not_special (ht _ hc)).2.2 (by decide)
    simpa using hne
  have hline : t.rdropWhile (fun c => c == '\n') = t := by
    refine List.rdropWhile_eq_self_iff.mpr fun hne hlast => ?_
    have hnl := (not_special (ht _ (List.getLast_mem hne))).2.2
    rw [beq_iff_eq.mp hlast] at hnl
    exact hnl (by decide)
  rw [extract,runFilter_of_parseJson (parseJson_document h),hv]
  change substitution (t ++ ['\n']) = t
  rw [substitution_line,substitution,hzero,hline]

end Document

end SecureWipeOut.Certificate
