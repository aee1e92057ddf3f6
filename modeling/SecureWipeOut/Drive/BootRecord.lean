import SecureWipeOut.Drive.FileData

/-! # Records of a boot sector

The boot records are written by a sequence of calls of `write_data` that ends at the first one
that fails. A run is the state of the drive together with what the calls have met with.
-/
namespace SecureWipeOut.BootRecord
open ByteStore CInt Sectors FileData

section Model

/-- What a run meets with: an allocation, a range that is refused, the transfers with the number
of bytes and the value returned, and the result of writing a record. -/
inductive Event where
  | allocation (ok : Bool)
  | refused
  | direct (size : ℕ) (returned : ℤ)
  | transfer (size : ℕ) (returned : ℤ)
  | record (offset position : ℕ) (ok : Bool)
  deriving DecidableEq

structure Run (σ : Type*) where
  dev : σ
  log : List Event

/-- An open drive, and the allocation of a buffer that holds arbitrary bytes. -/
structure Volume (σ : Type*) where
  handle : Handle σ
  largeDrive : Bool
  malloc : ℕ → σ → Option (ℕ → UInt8) × σ

def setBytesPerSector (value : ℕ) : ℕ := if value < 512 ∨ 65536 < value then 512 else value

variable {σ : Type*} (v : Volume σ) (bps offset : ℕ)

/-- What a call of `write_data` meets with. -/
def writeEvents (position : ℕ) (pData : List UInt8) (aucBuf : Option (ℕ → UInt8)) (s : σ) : List Event :=
  match aucBuf with
  | none => [.allocation false]
  | some aucBuf =>
    let position := qword (position + offset)
    let sectors := sectorsOf bps position pData.length
    let size := qword (sectors.2 * bps)
    if maxDataLen < size ∨ 0xFFFFFFFF < pData.length then [.allocation true,.refused]
    else
      let r := readSectors64 v.handle bps sectors.1 sectors.2 s
      if r.1.1 ≤ 0 then [.allocation true,.transfer size r.1.1]
      else
        let aucBuf := overwrite aucBuf 0 r.1.1.toNat r.1.2
        let aucBuf := overwrite aucBuf (qsub position (qword (sectors.1 * bps))) pData.length fun i => pData.getD i 0
        let w := writeSectors64 v.handle v.largeDrive bps sectors.1 sectors.2 aucBuf r.2
        [.allocation true,.transfer size r.1.1,.transfer size w.1]

def writeRecord (position : ℕ) (pData : List UInt8) (r : Run σ) : Bool × Run σ :=
  let m := v.malloc maxDataLen r.dev
  let w := writeData v.handle v.largeDrive bps offset position pData m.1 m.2
  (w.1,⟨w.2,r.log ++ writeEvents v bps offset position pData m.1 m.2 ++ [.record offset position w.1]⟩)

/-- Records are written up to the first one that fails. -/
def writeRecords : List (ℕ × List UInt8) → Run σ → Bool × Run σ
  | [],r => (true,r)
  | p :: records,r =>
    let w := writeRecord v bps offset p.1 p.2 r
    if w.1 then writeRecords records w.2 else w

def containsData (position : ℕ) (pData : List UInt8) (r : Run σ) : Bool × Run σ :=
  let m := v.malloc maxDataLen r.dev
  if m.1.isNone then (false,⟨m.2,r.log⟩)
  else
    let m := v.malloc maxDataLen m.2
    let d := readData v.handle bps offset position pData.length m.1 m.2
    (d.1 == some pData,⟨d.2,r.log⟩)

end Model

section Boot

inductive FsType where
  | unknown | fat16 | fat32 | ntfs | udf | exfat | refs | ext2 | ext3 | ext4
  deriving DecidableEq

inductive BootType where
  | nonBootable | msdos | freedos | image | syslinuxV4 | syslinuxV6 | reactos | grub4dos | grub2 | uefiNtfs
  deriving DecidableEq

inductive TargetType where
  | bios | uefi
  deriving DecidableEq

/-- What the boot records depend on in the report about an image. -/
structure ImageReport where
  winpe : ℕ
  usesMinint : Bool
  hasBootmgr : Bool
  hasBootmgrEfi : Bool
  hasKolibrios : Bool
  hasGrub2 : ℕ
  hasGrub4dos : Bool
  slVersion : ℕ

variable (r : ImageReport)

def ImageReport.hasBootmgrAny : Bool := r.hasBootmgr || r.hasBootmgrEfi

def ImageReport.hasWinpe : Bool :=
  r.winpe &&& 0x0007 == 0x0007 || r.winpe &&& 0x0023 == 0x0023 || r.winpe &&& 0x01C0 == 0x01C0

def ImageReport.hasWindows : Bool := r.hasBootmgrAny || r.usesMinint || r.hasWinpe

def ImageReport.hasSyslinux : Bool := r.slVersion != 0

end Boot

section Events

/-- The events at which a run ends: a transfer of one's own is tested for 0 only. -/
def Event.stops : Event → Bool
  | .allocation ok => !ok
  | .refused => true
  | .direct _ returned => returned == 0
  | .transfer _ returned => decide (returned ≤ 0)
  | .record .. => false

/-- A transfer fails when it returns a negative value or a short count. -/
def Event.fails : Event → Bool
  | .direct size returned => decide (returned < size)
  | .transfer size returned => decide (returned < size)
  | _ => false

variable {σ : Type*} {v : Volume σ} {bps offset : ℕ}

/-- A record is written unless its call meets with an event that stops it. -/
theorem writeData_eq (position : ℕ) (pData : List UInt8) (aucBuf : Option (ℕ → UInt8)) (s : σ) :
    (writeData v.handle v.largeDrive bps offset position pData aucBuf s).1 =
      !(writeEvents v bps offset position pData aucBuf s).any Event.stops := by
  cases aucBuf with
  | none => rfl
  | some aucBuf =>
    unfold writeData writeEvents fetch
    dsimp only
    by_cases hlarge : maxDataLen < qword ((sectorsOf bps (qword (position + offset)) pData.length).2 * bps)
    · rw [if_pos hlarge,if_pos (Or.inl hlarge)]
      rfl
    · by_cases hlen : 0xFFFFFFFF < pData.length
      · rw [if_neg hlarge,if_pos hlen,if_pos (Or.inr hlen)]
        rfl
      · rw [if_neg hlarge,if_neg hlen,if_neg (not_or.mpr ⟨hlarge,hlen⟩)]
        generalize readSectors64 v.handle bps _ _ s = rd
        by_cases hread : rd.1.1 ≤ 0
        · rw [if_pos hread,if_pos hread]
          simp [Event.stops,hread]
        · rw [if_neg hread,if_neg hread]
          simp only [List.any_cons,Event.stops,decide_eq_false hread,List.any_nil,Bool.not_true,Bool.false_or,Bool.or_false]
          rw [← decide_not]
          exact decide_eq_decide.mpr not_le.symm

theorem writeRecord_fst (v : Volume σ) (bps offset position : ℕ) (pData : List UInt8) (r : Run σ) :
    ∃ events, (writeRecord v bps offset position pData r).2.log = r.log ++ events ∧
      (writeRecord v bps offset position pData r).1 = !events.any Event.stops := by
  refine ⟨_,List.append_assoc _ _ _,?_⟩
  rw [List.any_append,writeRecord]
  dsimp only
  rw [writeData_eq]
  simp [Event.stops]

/-- A sequence of records succeeds exactly when it meets with no event that stops it. -/
theorem writeRecords_fst (v : Volume σ) (bps offset : ℕ) (records : List (ℕ × List UInt8)) (r : Run σ) :
    ∃ events, (writeRecords v bps offset records r).2.log = r.log ++ events ∧
      (writeRecords v bps offset records r).1 = !events.any Event.stops := by
  induction records generalizing r with
  | nil => exact ⟨[],(List.append_nil _).symm,rfl⟩
  | cons p records ih =>
    obtain ⟨events,hlog,hfst⟩ := writeRecord_fst v bps offset p.1 p.2 r
    rw [writeRecords]
    split
    next hok =>
      obtain ⟨events',hlog',hfst'⟩ := ih (writeRecord v bps offset p.1 p.2 r).2
      refine ⟨events ++ events',?_,?_⟩
      · rw [hlog',hlog,List.append_assoc]
      · rw [hok] at hfst
        rw [hfst',List.any_append,Bool.not_or,← hfst,Bool.true_and]
    next => exact ⟨events,hlog,hfst⟩

end Events

end SecureWipeOut.BootRecord
