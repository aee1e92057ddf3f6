import SecureWipeOut.Drive.BootRecord

/-! # The master boot record

`WriteMBR` tests the transfers of its own for a return of 0 only, where a failure is a negative
value or a short count, and the calls of `write_data` that follow take a short read for a whole
one.
-/
namespace SecureWipeOut.BootRecord
open ByteStore CInt Sectors FileData

section Model

/-- The code of the boot records, which is data of the program. -/
structure MbrCode where
  mbrMsgRufus : List UInt8
  mbrZero : List UInt8
  mbrSyslinux : List UInt8
  mbrGrub2 : List UInt8
  mbrGrub : List UInt8
  mbrReactos : List UInt8
  mbrKolibri : List UInt8
  mbrRufus : List UInt8
  mbrWin7 : List UInt8

/-- The settings that `WriteMBR` reads. -/
structure MbrRequest where
  sectorSize : ℕ
  gpt : Bool
  fileSystem : FsType
  fsType : FsType
  bootType : BootType
  targetType : TargetType
  imgReport : ImageReport
  allowDualUefiBios : Bool
  useRufusMbr : Bool

variable (code : MbrCode) (req : MbrRequest)

def MbrRequest.needsMasquerading : Bool := req.imgReport.hasWinpe && !req.imgReport.usesMinint

/-- The records of `write_bootmark`. -/
def bootmarks (bps : ℕ) : List (ℕ × List UInt8) :=
  (((List.range (bps / 0x200 + 1)).map fun i => 0x1FE + 0x200 * i).filter fun pos => decide (pos < bps)).map
    fun pos => (pos,[0x55,0xAA])

/-- The functions `write_*_mbr` differ in the code only. -/
def mbrRecords (bps : ℕ) (code : List UInt8) : List (ℕ × List UInt8) := (0x0,code) :: bootmarks bps

def windowsMbr : List UInt8 :=
  if req.needsMasquerading || req.useRufusMbr then code.mbrRufus else code.mbrWin7

/-- The choice of the code, by order of preference. -/
def chooseMbr : List UInt8 :=
  let image := req.bootType == .image
  let report := req.imgReport
  if image && report.hasWindows && req.allowDualUefiBios && req.targetType == .bios then windowsMbr code req
  else if req.bootType == .nonBootable || req.targetType == .uefi then code.mbrZero
  else if req.bootType == .syslinuxV4 || req.bootType == .syslinuxV6 || image && report.hasSyslinux then
    code.mbrSyslinux
  else if image && report.hasGrub2 != 0 || req.bootType == .grub2 then code.mbrGrub2
  else if image && report.hasGrub4dos || req.bootType == .grub4dos then code.mbrGrub
  else if req.bootType == .reactos then code.mbrReactos
  else if image && report.hasKolibrios && (req.fsType == .fat16 || req.fsType == .fat32) then code.mbrKolibri
  else windowsMbr code req

/-- The type and the flag of the first partition are set in the sector read. -/
def patchMbr (buffer : ℕ → UInt8) : ℕ → UInt8 :=
  let buffer := match req.fileSystem with
    | .fat16 => Function.update buffer 0x1c2 0x0e
    | .fat32 => Function.update buffer 0x1c2 0x0c
    | _ => buffer
  if req.bootType != .nonBootable && req.targetType == .bios then
    Function.update buffer 0x1be (if req.needsMasquerading then 0x81 else 0x80)
  else buffer

variable {σ : Type*} (v : Volume σ)

def writeMbr (s : σ) : Bool × Run σ :=
  let bps := setBytesPerSector req.sectorSize
  if req.sectorSize < 512 then (false,⟨s,[]⟩)
  else if req.gpt then writeRecords v bps 0 (mbrRecords bps code.mbrMsgRufus) ⟨s,[]⟩
  else
    let m := v.malloc req.sectorSize s
    match m.1 with
    | none => (false,⟨m.2,[.allocation false]⟩)
    | some buffer =>
      let r := readSectors64 v.handle req.sectorSize 0 1 m.2
      if r.1.1 = 0 then (false,⟨r.2,[.allocation true,.direct req.sectorSize r.1.1]⟩)
      else
        let buffer := patchMbr req (overwrite buffer 0 r.1.1.toNat r.1.2)
        let w := writeSectors64 v.handle v.largeDrive req.sectorSize 0 1 buffer r.2
        let log := [.allocation true,.direct req.sectorSize r.1.1,.direct req.sectorSize w.1]
        if w.1 = 0 then (false,⟨w.2,log⟩)
        else writeRecords v bps 0 (mbrRecords bps (chooseMbr code req)) ⟨w.2,log⟩

/-- A transfer that fails makes the function fail. -/
def DetectsErrors (s : σ) : Prop :=
  (∃ e ∈ (writeMbr code req v s).2.log, e.fails = true) → (writeMbr code req v s).1 = false

/-- A failure that is not tested for: of a transfer of one's own any but a return of 0, in
`write_data` a positive short count. -/
def Event.undetected (e : Event) : Bool := e.fails && !e.stops

end Model

section Errors
variable {code : MbrCode} {req : MbrRequest} {σ : Type*} {v : Volume σ}

theorem writeRecords_any {bps offset : ℕ} {records : List (ℕ × List UInt8)} {r : Run σ}
    (hr : r.log.any Event.stops = false) : (writeRecords v bps offset records r).1 =
      !(writeRecords v bps offset records r).2.log.any Event.stops := by
  obtain ⟨events,hlog,hfst⟩ := writeRecords_fst v bps offset records r
  rw [hfst,hlog,List.any_append,hr,Bool.false_or]

/-- The function succeeds exactly when it meets with no event that stops it. -/
theorem writeMbr_fst (code : MbrCode) (v : Volume σ) (hsize : 512 ≤ req.sectorSize) (s : σ) :
    (writeMbr code req v s).1 = !(writeMbr code req v s).2.log.any Event.stops := by
  unfold writeMbr
  rw [if_neg (not_lt.mpr hsize)]
  split
  · exact writeRecords_any rfl
  · dsimp only
    split
    · rfl
    · split
      next hread => simp [Event.stops,hread]
      next hread =>
        split
        next hwrite => simp [Event.stops,hwrite]
        next hwrite =>
          apply writeRecords_any
          simp [Event.stops,hread,hwrite]

theorem writeMbr_of_lt (code : MbrCode) (v : Volume σ) (hsize : req.sectorSize < 512) (s : σ) :
    writeMbr code req v s = (false,⟨s,[]⟩) :=
  if_pos hsize

end Errors

section Unread

/-- A drive on which setting the pointer fails the first time. -/
def firstSeekFails : Handle (Bool × Device) where
  getFilePointer d := (some d.2.pos,d)
  setFilePointerEx li d := if d.1 then (false,false,d.2) else ((device.setFilePointerEx li d.2).1,false,(device.setFilePointerEx li d.2).2)
  readFile n d := ((device.readFile n d.2).1,d.1,(device.readFile n d.2).2)
  writeFile buf n d := ((device.writeFile buf n d.2).1,d.1,(device.writeFile buf n d.2).2)
  cancelled d := (false,d)
  read_le _ _ := le_refl _
  write_le _ _ _ := le_refl _

def plainMbr : MbrRequest where
  sectorSize := 512
  gpt := false
  fileSystem := .ntfs
  fsType := .ntfs
  bootType := .nonBootable
  targetType := .bios
  imgReport := ⟨0,false,false,false,false,0,false,0⟩
  allowDualUefiBios := false
  useRufusMbr := true

end Unread

end SecureWipeOut.BootRecord
