import SecureWipeOut.Boot.CertificateRoundTrip
import SecureWipeOut.Boot.DeviceNames

/-! # Identifiers of devices

The serial of a device and the identifier of its certificate are made of the device's
path, of which single letters are deleted. For the devices that the launcher enumerates
this says which paths fall together.
-/
namespace SecureWipeOut.Certificate
open DeviceNames

/-- The letters of a name that are not deleted. -/
def keptLetters (letters : List Char) : List Char := letters.filter fun c => !removed c

/-- Two disks of the first form with the same partition, whose letters differ at most in
the letters `d`, `e` and `v`. -/
def Collide : DeviceName → DeviceName → Prop
  | .sd l d _ _, .sd l' d' _ _ => keptLetters l = keptLetters l' ∧ d = d'
  | _, _ => False

instance : DecidableRel Collide := fun a b => by
  cases a <;> cases b <;> unfold Collide <;> infer_instance

/-- The `device_serial` of `generate_tamper_proof_certificate`. -/
def deviceSerial (device : List Char) : List Char := deviceTag device

theorem not_removed_of_isDigit {c : Char} (h : c.isDigit = true) : removed c = false := by
  by_contra hc
  rw [Bool.not_eq_false] at hc
  have hmem : c ∈ "/dev".toList := List.contains_iff_mem.mp hc
  revert h
  fin_cases hmem <;> decide

section Tag

/-- A text of letters and digits only loses its letters `d`, `e` and `v`. -/
theorem filter_dashed {t : List Char} (h : ∀ c ∈ t, c.isAlphanum = true) :
    (t.map dashed).filter (fun c => !removed c) = t.filter fun c => !removed c := by
  have hid : t.map dashed = t.map id := by
    apply List.map_congr_left
    intro c hc
    rw [dashed,if_neg,id]
    rintro rfl
    exact absurd (h _ hc) (by decide)
  rw [hid,List.map_id]

/-- Nothing of dashes, letters and digits is lost in a command substitution. -/
theorem substitution_alphanum (k : ℕ) {t : List Char} (h : ∀ c ∈ t, c.isAlphanum = true) :
    substitution (List.replicate k '-' ++ t) = List.replicate k '-' ++ t := by
  have hchar : ∀ c ∈ List.replicate k '-' ++ t, (c != Char.ofNat 0) = true ∧ (c == '\n') = false := by
    intro c hc
    rcases List.mem_append.mp hc with hc | hc
    · rw [List.eq_of_mem_replicate hc]
      decide
    · refine ⟨?_,?_⟩
      · rw [bne_iff_ne]
        rintro rfl
        exact absurd (h _ hc) (by decide)
      · rw [beq_eq_false_iff_ne]
        rintro rfl
        exact absurd (h _ hc) (by decide)
  rw [substitution,List.filter_eq_self.mpr fun c hc => (hchar c hc).1]
  rw [List.rdropWhile_eq_self_iff]
  intro hne hlast
  rw [(hchar _ (List.getLast_mem hne)).2] at hlast
  cases hlast

/-- The serial of a device is its name behind two dashes, less the letters `d`, `e` and `v`. -/
theorem deviceTag_path (d : DeviceName) :
    deviceTag d.path = "--".toList ++ d.base.filter fun c => !removed c := by
  have halnum := d.base_alphanum
  have hecho : echo d.path = d.path ++ ['\n'] := rfl
  have hdev : ("/dev/".toList.map dashed).filter (fun c => !removed c) = "--".toList := by decide
  have hnl : (['\n'].map dashed).filter (fun c => !removed c) = ['\n'] := by decide
  change substitution (((echo d.path).map dashed).filter fun c => !removed c) = _
  rw [hecho,DeviceName.path,List.map_append,List.filter_append,List.map_append,List.filter_append,hdev,hnl,
    filter_dashed halnum,substitution_line]
  exact substitution_alphanum 2 fun c hc => halnum c (List.mem_of_mem_filter hc)

end Tag

section Collisions

theorem filter_digits {t : List Char} (h : ∀ c ∈ t, c.isDigit = true) :
    (t.filter fun c => !removed c) = t := by
  apply List.filter_eq_self.mpr
  intro c hc
  rw [not_removed_of_isDigit (h c hc)]
  rfl

theorem filter_partitionSuffix {p : Option (List Char)} (h : ∀ t ∈ p, ∀ c ∈ t, c.isDigit = true) :
    ((partitionSuffix p).filter fun c => !removed c) = partitionSuffix p := by
  cases p with
  | none => rfl
  | some t =>
    rw [partitionSuffix,List.filter_cons_of_pos (by decide),filter_digits (h t rfl)]

/-- What is left of a name. -/
def keptBase : DeviceName → List Char
  | .sd letters digits _ _ => "s".toList ++ (keptLetters letters ++ digits)
  | .nvme controller space partition _ _ _ =>
    "nm".toList ++ (controller ++ 'n' :: (space ++ partitionSuffix partition))
  | .mmcblk card partition _ _ => "mmcblk".toList ++ (card ++ partitionSuffix partition)

@[simp] theorem keptBase_sd {l ds : List Char} (hl hd) :
    keptBase (.sd l ds hl hd) = "s".toList ++ (keptLetters l ++ ds) := rfl
@[simp] theorem keptBase_nvme {k n : List Char} {p : Option (List Char)} (hk hn hp) :
    keptBase (.nvme k n p hk hn hp) = "nm".toList ++ (k ++ 'n' :: (n ++ partitionSuffix p)) := rfl
@[simp] theorem keptBase_mmcblk {k : List Char} {p : Option (List Char)} (hk hp) :
    keptBase (.mmcblk k p hk hp) = "mmcblk".toList ++ (k ++ partitionSuffix p) := rfl

theorem filter_base (d : DeviceName) : (d.base.filter fun c => !removed c) = keptBase d := by
  cases d with
  | sd l ds hl hd =>
    rw [DeviceName.base_sd,keptBase_sd,List.filter_append,List.filter_append,filter_digits hd]
    rfl
  | nvme k n p hk hn hp =>
    rw [DeviceName.base_nvme,keptBase_nvme,List.filter_append,List.filter_append,List.filter_cons_of_pos (by decide),
      List.filter_append,filter_digits hk,filter_digits hn,filter_partitionSuffix hp]
    rfl
  | mmcblk k p hk hp =>
    rw [DeviceName.base_mmcblk,keptBase_mmcblk,List.filter_append,List.filter_append,filter_digits hk,filter_partitionSuffix hp]
    rfl

/-- Letters followed by digits are cut in one way only. -/
theorem letters_digits_inj {l l' ds ds' : List Char} (hl : ∀ c ∈ l, c.isLower = true)
    (hl' : ∀ c ∈ l', c.isLower = true) (hd : ∀ c ∈ ds, c.isDigit = true)
    (hd' : ∀ c ∈ ds', c.isDigit = true) (h : l ++ ds = l' ++ ds') : l = l' ∧ ds = ds' := by
  have hdisjoint : ∀ c : Char, c.isLower = true → c.isDigit = false := by
    intro c hc
    rw [Char.isLower,Bool.and_eq_true,decide_eq_true_eq] at hc
    rw [Char.isDigit,Bool.and_eq_false_iff,decide_eq_false_iff_not]
    have hlow : 97 ≤ c.val.toNat := hc.1
    right
    rw [decide_eq_false_iff_not]
    intro hle
    have hhigh : c.val.toNat ≤ 57 := hle
    omega
  have hcut : ∀ {a b : List Char}, (∀ c ∈ a, c.isLower = true) → (∀ c ∈ b, c.isDigit = true) →
      (a ++ b).filter Char.isDigit = b := by
    intro a b ha hb
    have hnone : a.filter Char.isDigit = [] := by
      apply List.filter_eq_nil_iff.mpr
      intro c hc
      rw [hdisjoint c (ha c hc)]
      decide
    rw [List.filter_append,hnone,List.filter_eq_self.mpr hb,List.nil_append]
  have hds : ds = ds' := by
    have := congrArg (List.filter Char.isDigit) h
    rwa [hcut hl hd,hcut hl' hd'] at this
  subst hds
  exact ⟨List.append_cancel_right h,rfl⟩

theorem path_inj {d d' : DeviceName} : d.path = d'.path ↔ d.base = d'.base :=
  List.append_right_inj _

/-- Two devices have the same serial exactly if they are the same or collide. -/
theorem deviceTag_eq_iff (d d' : DeviceName) :
    deviceTag d.path = deviceTag d'.path ↔ d.path = d'.path ∨ Collide d d' := by
  rw [deviceTag_path,deviceTag_path,List.append_right_inj,filter_base,filter_base,path_inj]
  cases d with
  | sd l ds hl hd =>
    cases d' with
    | sd l' ds' hl' hd' =>
      have hkept : ∀ {t : List Char}, (∀ c ∈ t, c.isLower = true) →
          ∀ c ∈ keptLetters t, c.isLower = true := fun ht c hc => ht c (List.mem_of_mem_filter hc)
      simp only [keptBase_sd,DeviceName.base_sd,List.append_right_inj,Collide]
      constructor
      · intro h
        exact Or.inr (letters_digits_inj (hkept hl) (hkept hl') hd hd' h)
      · rintro (h | ⟨hk,rfl⟩)
        · obtain ⟨rfl,rfl⟩ := letters_digits_inj hl hl' hd hd' h
          rfl
        · rw [hk]
    | nvme => simp [Collide]
    | mmcblk => simp [Collide]
  | nvme =>
    cases d' with
    | nvme => simp only [keptBase_nvme,DeviceName.base_nvme,List.append_right_inj,Collide,or_false]
    | sd => simp [Collide]
    | mmcblk => simp [Collide]
  | mmcblk =>
    cases d' with
    | mmcblk => simp only [keptBase_mmcblk,DeviceName.base_mmcblk,List.append_right_inj,Collide,or_false]
    | sd => simp [Collide]
    | nvme => simp [Collide]

/-- At the same date and time, identifiers differ where the serials do. -/
theorem certId_eq_iff (s : Session) (r r' : Request) :
    certId s r = certId s r' ↔ deviceTag r.device = deviceTag r'.device := by
  simp only [certId,List.append_left_inj,List.append_right_inj]

/-- The serials and the certificates of two different devices have different names exactly
if the devices do not collide. -/
theorem certificateIds_distinct_iff (s : Session) (r r' : Request) (d d' : DeviceName)
    (h : d.path ≠ d'.path) : (deviceSerial d.path ≠ deviceSerial d'.path ∧
      certId s { r with device := d.path } ≠ certId s { r' with device := d'.path }) ↔
      ¬Collide d d' := by
  have htag := deviceTag_eq_iff d d'
  simp only [ne_eq,deviceSerial,certId_eq_iff]
  tauto

theorem certificateIds_distinct_iff_disks : deviceSerial (DeviceName.disk 'a' rfl).path ≠
    deviceSerial (DeviceName.disk 'b' rfl).path ∧
      ∀ r r' : Request, certId newYear { r with device := (DeviceName.disk 'a' rfl).path } ≠
        certId newYear { r' with device := (DeviceName.disk 'b' rfl).path } := by
  have hpath : (DeviceName.disk 'a' rfl).path ≠ (DeviceName.disk 'b' rfl).path := by decide
  have h := fun r r' =>
    (certificateIds_distinct_iff newYear r r' (.disk 'a' rfl) (.disk 'b' rfl) hpath).mpr (by decide)
  exact ⟨(h ⟨[],[],[],[],[]⟩ ⟨[],[],[],[],[]⟩).1,fun r r' => (h r r').2⟩

/-- The fourth and the fifth disk of a machine share their serial and their certificate. -/
theorem certificateIds_fourth_disk : (DeviceName.disk 'd' rfl).path ≠ (DeviceName.disk 'e' rfl).path ∧
    deviceSerial (DeviceName.disk 'd' rfl).path = deviceSerial (DeviceName.disk 'e' rfl).path ∧
      ∀ (s : Session) (r r' : Request), certId s { r with device := (DeviceName.disk 'd' rfl).path } =
        certId s { r' with device := (DeviceName.disk 'e' rfl).path } := by
  have htag : deviceTag (DeviceName.disk 'd' rfl).path = deviceTag (DeviceName.disk 'e' rfl).path :=
    (deviceTag_eq_iff _ _).mpr (Or.inr (by decide))
  exact ⟨by decide,htag,fun s r r' => (certId_eq_iff s _ _).mpr htag⟩

end Collisions

end SecureWipeOut.Certificate
