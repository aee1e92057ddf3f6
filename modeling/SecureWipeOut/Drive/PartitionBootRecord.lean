import SecureWipeOut.Drive.BootRecord

/-! # The partition boot record

On FAT32 `WritePBR` writes the records of the primary and of the backup boot sector in a loop. A
failure ends the loop, behind which the function returns `TRUE`.
-/
namespace SecureWipeOut.BootRecord
open CInt Sectors FileData

section Model

/-- The parts of the boot sectors, which are data of the program. -/
structure PbrCode where
  label11Char : List UInt8
  brFat16 : List UInt8
  brFat16At3e : List UInt8
  brFat16fdAt3e : List UInt8
  brFat16rosAt3e : List UInt8
  brFat32 : List UInt8
  brFat32At52 : List UInt8
  brFat32At3f0 : List UInt8
  brFat32fdAt52 : List UInt8
  brFat32fdAt3f0 : List UInt8
  brFat32rosAt52 : List UInt8
  brFat32rosAt3f0 : List UInt8
  brFat32rosAt1c00 : List UInt8
  brFat32kosAt52 : List UInt8
  brFat32peAt52 : List UInt8
  brFat32peAt3f0 : List UInt8
  brFat32peAt1800 : List UInt8
  brFat32ntAt52 : List UInt8
  brFat32ntAt3f0 : List UInt8
  brFat32ntAt1800 : List UInt8
  brNtfs : List UInt8
  brNtfsAt54 : List UInt8

/-- The settings that `WritePBR` reads; a sector has at least 512 bytes. -/
structure PbrRequest where
  sectorSize : ℕ
  le_sectorSize : 512 ≤ sectorSize
  bootType : BootType
  imgReport : ImageReport

def magic (text : String) : List UInt8 := text.toList.map fun c => UInt8.ofNat c.toNat

variable (code : PbrCode) (req : PbrRequest)

def fat16Br (at3e : List UInt8) : List (ℕ × List UInt8) :=
  [(0x0,code.brFat16),(0x2b,code.label11Char),(0x3e,at3e)]

/-- The records of the boot sector of FAT16, or nothing where it is not supported. -/
def fat16Records : Option (List (ℕ × List UInt8)) :=
  if req.bootType = .freedos then some (fat16Br code code.brFat16fdAt3e)
  else if req.bootType = .reactos then some (fat16Br code code.brFat16rosAt3e)
  else if req.bootType = .image ∧ req.imgReport.hasKolibrios = true then none
  else some (fat16Br code code.brFat16At3e)

/-- The functions `write_fat_32_*_br` differ in the parts that follow the label. -/
def fat32Br (parts : List (ℕ × List UInt8)) : List (ℕ × List UInt8) :=
  (0x0,code.brFat32) :: (0x47,code.label11Char) :: parts

def fat32Records : List (ℕ × List UInt8) :=
  let image := req.bootType = .image
  if req.bootType = .freedos then fat32Br code [(0x52,code.brFat32fdAt52),(0x3f0,code.brFat32fdAt3f0)]
  else if req.bootType = .reactos then
    fat32Br code [(0x52,code.brFat32rosAt52),(0x3f0,code.brFat32rosAt3f0),(0x1c00,code.brFat32rosAt1c00)]
  else if image ∧ req.imgReport.hasKolibrios = true then fat32Br code [(0x52,code.brFat32kosAt52)]
  else if image ∧ req.imgReport.hasBootmgrAny = true then
    fat32Br code [(0x52,code.brFat32peAt52),(0x3f0,code.brFat32peAt3f0),(0x1800,code.brFat32peAt1800)]
  else if image ∧ req.imgReport.hasWinpe = true then
    fat32Br code [(0x52,code.brFat32ntAt52),(0x3f0,code.brFat32ntAt3f0),(0x1800,code.brFat32ntAt1800)]
  else fat32Br code [(0x52,code.brFat32At52),(0x3f0,code.brFat32At3f0)]

def fat16DriveId : List (ℕ × List UInt8) := [(0x24,[0x80])]
def fat32DriveId : List (ℕ × List UInt8) := [(0x40,[0x80])]

variable {σ : Type*} (v : Volume σ)

/-- A check of the boot sector, and then its records. -/
def checkAndWrite (offset : ℕ) (check : ℕ × List UInt8) (records : List (ℕ × List UInt8)) (r : Run σ) :
    Bool × Run σ :=
  let bps := setBytesPerSector req.sectorSize
  let c := containsData v bps offset check.1 check.2 r
  if c.1 then writeRecords v bps offset records c.2 else c

/-- The body of the loop over the copies; `false` stands for its `break`. -/
def fat32Copy (offset : ℕ) (r : Run σ) : Bool × Run σ :=
  checkAndWrite req v offset (0x52,magic "FAT32   ") (fat32Records code req ++ fat32DriveId) r

def fat32Copies : ℕ → ℕ → Run σ → Run σ
  | 0,_,r => r
  | copies + 1,offset,r =>
    let c := fat32Copy code req v offset r
    if c.1 then fat32Copies copies (qword (offset + dword (6 * req.sectorSize))) c.2 else c.2

def writePbr (actualFsType : FsType) (s : σ) : Bool × Run σ :=
  let r : Run σ := ⟨s,[]⟩
  match actualFsType with
  | .fat16 =>
    let bps := setBytesPerSector req.sectorSize
    let c := containsData v bps 0 0x36 (magic "FAT16   ") r
    match fat16Records code req with
    | none => (false,c.2)
    | some records => if c.1 then writeRecords v bps 0 (records ++ fat16DriveId) c.2 else c
  | .fat32 => (true,fat32Copies code req v 2 0 r)
  | .ntfs =>
    checkAndWrite req v 0 (0x03,magic "NTFS    ") [(0x0,code.brNtfs),(0x54,code.brNtfsAt54)] r
  | .ext2 | .ext3 | .ext4 => (true,r)
  | _ => (false,r)

end Model

section Specification
variable (code : PbrCode) (req : PbrRequest)

/-- The places of the records that a FAT32 boot sector needs. -/
def required : List ℕ := (fat32Records code req ++ fat32DriveId).map Prod.fst

/-- Success means that both boot sectors have all their records. -/
def BothWritten {σ : Type*} (v : Volume σ) (s : σ) : Prop :=
  (writePbr code req v .fat32 s).1 = true → ∀ offset ∈ [0,6 * req.sectorSize],
    ∀ position ∈ required code req, .record offset position true ∈ (writePbr code req v .fat32 s).2.log

/-- Both passes of the loop succeed, and the offset of the second one does not wrap. -/
def CopiesSucceed {σ : Type*} (v : Volume σ) (s : σ) : Prop :=
  6 * req.sectorSize < 2 ^ 32 ∧ (fat32Copy code req v 0 ⟨s,[]⟩).1 = true ∧
    (fat32Copy code req v (6 * req.sectorSize) (fat32Copy code req v 0 ⟨s,[]⟩).2).1 = true

end Specification

section Records
variable {σ : Type*} {v : Volume σ} {bps offset : ℕ}

/-- What a part of a run tells of the records at an offset: which ones may have been written, and
whether all of them have been. -/
structure Written (offset : ℕ) (positions : List ℕ) (ok : Bool) (events : List Event) : Prop where
  own : ∀ o p b, .record o p b ∈ events → o = offset
  among : ∀ o p b, .record o p b ∈ events → p ∈ positions
  all : ok = true → ∀ p ∈ positions, .record offset p true ∈ events
  missing : ok = false → ∃ p ∈ positions, .record offset p true ∉ events

theorem record_notMem_writeEvents (position : ℕ) (pData : List UInt8) (aucBuf : Option (ℕ → UInt8)) (s : σ)
    (o p : ℕ) (b : Bool) : .record o p b ∉ writeEvents v bps offset position pData aucBuf s := by
  cases aucBuf with
  | none => simp [writeEvents]
  | some aucBuf =>
    unfold writeEvents
    dsimp only
    split
    · simp
    · split <;> simp

theorem writeRecord_written (v : Volume σ) (bps offset position : ℕ) (pData : List UInt8) (r : Run σ) :
    ∃ events, (writeRecord v bps offset position pData r).2.log = r.log ++ events ∧
      Written offset [position] (writeRecord v bps offset position pData r).1 events := by
  have hone : ∀ o q b, .record o q b ∈ writeEvents v bps offset position pData (v.malloc maxDataLen r.dev).1
      (v.malloc maxDataLen r.dev).2 ++ [.record offset position (writeRecord v bps offset position pData r).1] →
      o = offset ∧ q = position ∧ b = (writeRecord v bps offset position pData r).1 := by
    intro o q b hmem
    rcases List.mem_append.mp hmem with hmem | hmem
    · exact absurd hmem (record_notMem_writeEvents position pData _ _ o q b)
    · simpa using hmem
  refine ⟨_,List.append_assoc _ _ _,fun o q b h => (hone o q b h).1,fun o q b h => ?_,fun hok q hq => ?_,fun hok => ?_⟩
  · rw [(hone o q b h).2.1]
    exact List.mem_cons_self
  · rw [List.mem_singleton.mp hq,← hok]
    exact List.mem_append_right _ List.mem_cons_self
  · refine ⟨position,List.mem_cons_self,fun h => ?_⟩
    rw [← (hone _ _ _ h).2.2] at hok
    cases hok

theorem Written.fail {ps : List ℕ} {events : List Event} (h : Written offset ps false events) (qs : List ℕ) :
    Written offset (ps ++ qs) false events := by
  refine ⟨h.own,fun o p b he => List.mem_append_left _ (h.among o p b he),fun hok => ?_,fun _ => ?_⟩
  · cases hok
  · obtain ⟨p,hp,hmissing⟩ := h.missing rfl
    exact ⟨p,List.mem_append_left _ hp,hmissing⟩

theorem Written.append {ps qs : List ℕ} {ok : Bool} {events events' : List Event} (h : Written offset ps true events)
    (h' : Written offset qs ok events') (hdisjoint : ps.Disjoint qs) :
    Written offset (ps ++ qs) ok (events ++ events') := by
  refine ⟨fun o p b he => ?_,fun o p b he => ?_,fun hok p hp => ?_,fun hok => ?_⟩
  · exact (List.mem_append.mp he).elim (h.own o p b) (h'.own o p b)
  · exact List.mem_append.mpr ((List.mem_append.mp he).imp (h.among o p b) (h'.among o p b))
  · exact List.mem_append.mpr ((List.mem_append.mp hp).imp (h.all rfl p) (h'.all hok p))
  · obtain ⟨q,hq,hmissing⟩ := h'.missing hok
    refine ⟨q,List.mem_append_right _ hq,fun he => ?_⟩
    rcases List.mem_append.mp he with he | he
    · exact hdisjoint (h.among _ _ _ he) hq
    · exact hmissing he

theorem writeRecords_written {records : List (ℕ × List UInt8)} (hnodup : (records.map Prod.fst).Nodup) (r : Run σ) :
    ∃ events, (writeRecords v bps offset records r).2.log = r.log ++ events ∧
      Written offset (records.map Prod.fst) (writeRecords v bps offset records r).1 events := by
  induction records generalizing r with
  | nil => exact ⟨[],(List.append_nil _).symm,by simp,by simp,by simp [writeRecords],by simp [writeRecords]⟩
  | cons p records ih =>
    rw [List.map_cons,List.nodup_cons] at hnodup
    obtain ⟨events,hlog,hwritten⟩ := writeRecord_written v bps offset p.1 p.2 r
    rw [writeRecords]
    cases hok : (writeRecord v bps offset p.1 p.2 r).1 with
    | false =>
      rw [hok] at hwritten
      rw [if_neg Bool.false_ne_true,hok]
      exact ⟨events,hlog,hwritten.fail (records.map Prod.fst)⟩
    | true =>
      rw [hok] at hwritten
      obtain ⟨events',hlog',hwritten'⟩ := ih hnodup.2 (writeRecord v bps offset p.1 p.2 r).2
      rw [if_pos rfl]
      refine ⟨events ++ events',by rw [hlog',hlog,List.append_assoc],hwritten.append hwritten' ?_⟩
      exact List.singleton_disjoint.mpr hnodup.1

end Records

section Copies
variable (code : PbrCode) (req : PbrRequest) {σ : Type*} (v : Volume σ)

theorem required_nodup : (required code req).Nodup := by
  unfold required fat32Records fat32Br fat32DriveId
  dsimp only
  split
  · simp
  · split
    · simp
    · split
      · simp
      · split
        · simp
        · split <;> simp

theorem required_ne_nil : required code req ≠ [] := by
  rw [required,List.map_append]
  exact List.append_ne_nil_of_right_ne_nil _ (List.cons_ne_nil _ _)

theorem containsData_log (bps offset position : ℕ) (pData : List UInt8) (r : Run σ) :
    (containsData v bps offset position pData r).2.log = r.log := by
  unfold containsData
  dsimp only
  split <;> rfl

/-- One pass of the loop writes all the records of its copy, or leaves one out. -/
theorem fat32Copy_written (offset : ℕ) (r : Run σ) :
    ∃ events, (fat32Copy code req v offset r).2.log = r.log ++ events ∧
      Written offset (required code req) (fat32Copy code req v offset r).1 events := by
  unfold fat32Copy checkAndWrite
  dsimp only
  split
  next hcheck =>
    rw [← containsData_log v (setBytesPerSector req.sectorSize) offset 0x52 (magic "FAT32   ") r]
    exact writeRecords_written (required_nodup code req) _
  next hcheck =>
    obtain ⟨p,positions,hpos⟩ := List.exists_cons_of_ne_nil (required_ne_nil code req)
    refine ⟨[],by rw [containsData_log,List.append_nil],by simp,by simp,fun h => absurd h hcheck,fun _ => ?_⟩
    exact ⟨p,hpos ▸ List.mem_cons_self,by simp⟩

end Copies

section ReadOnly

/-- A drive that can be read only. -/
def readOnly : Handle Device where
  getFilePointer d := (some d.pos,d)
  setFilePointerEx li d := (true,{d with pos := li})
  readFile n d := device.readFile n d
  writeFile _ _ d := (⟨false,0⟩,d)
  cancelled d := (false,d)
  read_le _ _ := le_refl _
  write_le _ _ _ := Nat.zero_le _

def emptyParts : PbrCode :=
  ⟨[0],[0],[0],[0],[0],[0],[0],[0],[0],[0],[0],[0],[0],[0],[0],[0],[0],[0],[0],[0],[0],[0]⟩

def fat32Plain : PbrRequest := ⟨512,le_rfl,.freedos,⟨0,false,false,false,false,0,false,0⟩⟩

end ReadOnly

end SecureWipeOut.BootRecord
