import SecureWipeOut.Image.PeImage

/-! # Sections by name

The model of `GetPeSection`. The table of sections is looked for behind a header of the usual
size, the name is cut to seven characters, and the length is taken from the first record of
the table, so that what is returned is the section asked for only where none of this matters.
-/
namespace SecureWipeOut.PeImage

def shortName : ℕ := 8

/-- A name in a field of eight bytes. -/
def pad (name : List UInt8) : List UInt8 := name ++ List.replicate (shortName - name.length) 0

section Code

/-- The copy of a name keeps its last byte for the NUL. -/
def staticStrcpy (name : List UInt8) : List UInt8 := pad (name.take (shortName - 1))

variable (mem : Memory)

def machine : ℕ := readWord mem (ntHeaders mem + 4)

/-- Whether the headers are taken for those of a 32-bit image. -/
def isPe32 : Bool := machine mem == 0x14c || machine mem == 0x1c0

def sectionTable : ℤ := ntHeaders mem + if isPe32 mem then 248 else 264

def record (i : ℕ) : ℤ := sectionTable mem + 40 * i

def sectionName (a : ℤ) : List UInt8 := (List.range shortName).map fun k => mem (a + k)

/-- The first record that bears the copied name. -/
def findRecord (name : List UInt8) : Option ℕ :=
  (List.range (numberOfSections mem)).find? fun i => sectionName mem (record mem i) == staticStrcpy name

/-- The place of the data and the length. -/
def getPeSection (name : List UInt8) : Option (ℕ × ℕ) :=
  if readWord mem 0 ≠ 0x5a4d then none
  else if readDword mem (ntHeaders mem) ≠ 0x4550 then none
  else (findRecord mem name).map fun i =>
    ((sectionHeader mem (record mem i)).pointerToRawData,(sectionHeader mem (record mem 0)).sizeOfRawData)

end Code

section Specification
variable (mem : Memory)

/-- The first section of the image that has a name. -/
def findSection (name : List UInt8) : Option ℕ :=
  (List.range (numberOfSections mem)).find? fun i => sectionName mem (sectionAt mem i) == pad name

/-- What is returned is the data of the first section of that name, and its raw size. -/
def Located (name : List UInt8) : Prop := ∀ p n, getPeSection mem name = some (p,n) →
  ∃ i, findSection mem name = some i ∧ p = (sectionHeader mem (sectionAt mem i)).pointerToRawData ∧
    n = (sectionHeader mem (sectionAt mem i)).sizeOfRawData

def IsImage : Prop := readWord mem 0 = 0x5a4d ∧ readDword mem (ntHeaders mem) = 0x4550

/-- The optional header has the size that its structure has with all its directories. -/
def StandardHeader : Prop := sizeOfOptionalHeader mem = if isPe32 mem then 224 else 240

instance : Decidable (StandardHeader mem) := inferInstanceAs (Decidable (_ = _))

/-- Behind a standard header and for a short name, the section has the size of the first one.
Otherwise a record taken for the section has to point to the data of the section, and the
first record has to give its size. -/
def Meets (name : List UInt8) : Prop :=
  if StandardHeader mem ∧ name.length < shortName then
    ∀ i, findSection mem name = some i →
      (sectionHeader mem (sectionAt mem i)).sizeOfRawData = (sectionHeader mem (sectionAt mem 0)).sizeOfRawData
  else
    ∀ j, findRecord mem name = some j → ∃ i, findSection mem name = some i ∧
      (sectionHeader mem (record mem j)).pointerToRawData =
        (sectionHeader mem (sectionAt mem i)).pointerToRawData ∧
      (sectionHeader mem (record mem 0)).sizeOfRawData = (sectionHeader mem (sectionAt mem i)).sizeOfRawData

end Specification

section Exactness
variable {mem : Memory} {name : List UInt8}

theorem record_eq (h : StandardHeader mem) (i : ℕ) : record mem i = sectionAt mem i := by
  rw [StandardHeader] at h
  rw [record,sectionTable,sectionAt,optionalHeader,h]
  split
  · push_cast
    ring
  · push_cast
    ring

theorem staticStrcpy_of_short (h : name.length < shortName) : staticStrcpy name = pad name := by
  rw [staticStrcpy,List.take_of_length_le (Nat.le_sub_one_of_lt h)]

/-- A name of eight bytes loses the last one. -/
theorem staticStrcpy_ne (h : name.length = shortName) (hnul : 0 ∉ name) : staticStrcpy name ≠ pad name := by
  intro heq
  have hlen : (name.take (shortName - 1)).length = 7 := by
    rw [List.length_take,h]
    rfl
  have hpad : pad name = name := by
    rw [pad,h]
    exact List.append_nil name
  rw [hpad,staticStrcpy,pad,hlen] at heq
  exact hnul (heq ▸ List.mem_append_right _ List.mem_cons_self)

/-- So no record that is taken for a name of eight bytes bears it. -/
theorem sectionName_ne_of_findRecord {j : ℕ} (h : name.length = shortName) (hnul : 0 ∉ name)
    (hj : findRecord mem name = some j) : sectionName mem (record mem j) ≠ pad name := by
  have hcopy := List.find?_some hj
  rw [eq_of_beq hcopy]
  exact staticStrcpy_ne h hnul

theorem findRecord_eq (h : StandardHeader mem) (hname : name.length < shortName) :
    findRecord mem name = findSection mem name := by
  simp only [findRecord,findSection,record_eq h,staticStrcpy_of_short hname]

theorem getPeSection_of_image (h : IsImage mem) (name : List UInt8) :
    getPeSection mem name = (findRecord mem name).map fun i =>
      ((sectionHeader mem (record mem i)).pointerToRawData,(sectionHeader mem (record mem 0)).sizeOfRawData) := by
  rw [getPeSection,if_neg (not_not.mpr h.1),if_neg (not_not.mpr h.2)]

/-- Every record taken has to agree with the section of the name. -/
theorem located_iff_record (h : IsImage mem) : Located mem name ↔
    ∀ j, findRecord mem name = some j → ∃ i, findSection mem name = some i ∧
      (sectionHeader mem (record mem j)).pointerToRawData =
        (sectionHeader mem (sectionAt mem i)).pointerToRawData ∧
      (sectionHeader mem (record mem 0)).sizeOfRawData = (sectionHeader mem (sectionAt mem i)).sizeOfRawData := by
  rw [Located,getPeSection_of_image h]
  constructor
  · intro hloc j hj
    exact hloc _ _ (by rw [hj]; rfl)
  · intro hrec p n hpn
    obtain ⟨j,hj,hdata⟩ := Option.map_eq_some_iff.mp hpn
    obtain ⟨rfl,rfl⟩ := Prod.mk.inj hdata
    exact hrec j hj

/-- The fields of an image with the sections .text and .sbat. -/
def twoSections : List (ℤ × UInt8) :=
  [(0,0x4d),(1,0x5a),(0x3c,0x40),(0x40,0x50),(0x41,0x45),(0x44,0x64),(0x45,0x86),(0x46,2),(0x54,0xf0),
    (0x58,0x0b),(0x59,0x02),(0x148,0x2e),(0x149,0x74),(0x14a,0x65),(0x14b,0x78),(0x14c,0x74),(0x159,0x10),
    (0x15d,0x04),(0x170,0x2e),(0x171,0x73),(0x172,0x62),(0x173,0x61),(0x174,0x74),(0x181,0x02),(0x185,0x14)]

def twoSectionImage : Memory := fun a => ((twoSections.find? fun f => f.1 = a).map Prod.snd).getD 0

def sbatName : List UInt8 := [0x2e,0x73,0x62,0x61,0x74]

def textName : List UInt8 := [0x2e,0x74,0x65,0x78,0x74]

end Exactness

end SecureWipeOut.PeImage
