import SecureWipeOut.Lib.CInt
import SecureWipeOut.Lib.Ranges

/-! # Partition placement in CreatePartition

Partitions before the main one are placed upwards from the first offset, those
behind it downwards from the end of the disk, and the main partition takes what
is between. Offsets and sizes are unsigned 64-bit values, so a subtraction that
has no room wraps instead of failing.
-/
namespace SecureWipeOut.CreatePartition
open CInt Ranges

def MB : ℕ := 1048576

inductive Style where
  | mbr
  | gpt
  | sfd
  deriving DecidableEq

/-- The XP_* bits. -/
structure Extra where
  msr : Bool
  esp : Bool
  uefiNtfs : Bool
  compat : Bool
  persistence : Bool
  deriving DecidableEq

structure Request where
  diskSize : ℕ
  sectorSize : ℕ
  sectorsPerTrack : ℕ
  style : Style
  oldBiosFixes : Bool
  espFirst : Bool
  extra : Extra
  clusterSize : ℕ
  uefiNtfsSize : ℕ
  persistenceSize : ℕ

structure Partition where
  name : String
  offset : ℕ
  size : ℕ

def espSize : ℕ := 260 * MB
def msrSize : ℕ := 128 * MB

namespace Request
variable (r : Request)

def bytesPerTrack : ℕ := r.sectorsPerTrack * r.sectorSize

/-- A combo box value of zero stands for the smallest cluster. -/
def cluster : ℕ := if r.clusterSize = 0 then 0x200 else r.clusterSize

end Request

def ceil64 (x y : ℕ) : ℕ := qword (x + y - 1) / y * y

variable (r : Request)

def firstOffset : ℕ :=
  if r.style = .gpt || !r.oldBiosFixes then 1 * MB
  else qword (ceil64 r.bytesPerTrack r.cluster * 2)

/-- The start of the partition after one that ends at x: up to a track, then
down to a cluster when clusters are whole sectors. -/
def nextOffset (x : ℕ) : ℕ :=
  let y := ceil64 x r.bytesPerTrack
  if r.cluster % r.sectorSize = 0 then floorAlign y r.cluster else y

/-- The leading ESP and MSR, and the offset they leave to the main partition. -/
def leading : List Partition × ℕ :=
  let esp :=
    if r.espFirst && r.extra.esp then
      ([⟨"EFI System Partition",firstOffset r,espSize⟩],
        nextOffset r (qword (firstOffset r + espSize)))
    else ([],firstOffset r)
  if r.extra.msr then
    (esp.1 ++ [⟨"Microsoft Reserved Partition",esp.2,msrSize⟩],
      nextOffset r (qword (esp.2 + msrSize)))
  else esp

/-- Names and sizes of the partitions behind the main one, in table order. -/
def trailing : List (String × ℕ) :=
  let persistence :=
    if r.extra.persistence then
      [("Linux Persistence",ceil64 r.persistenceSize r.bytesPerTrack)]
    else []
  let other :=
    if r.extra.esp && !r.espFirst then
      [("EFI System Partition",ceil64 espSize r.bytesPerTrack)]
    else if r.extra.uefiNtfs then
      [("UEFI:NTFS",ceil64 r.uefiNtfsSize r.bytesPerTrack)]
    else if r.extra.compat then [("BIOS Compatibility",r.bytesPerTrack)]
    else []
  persistence ++ other

/-- Placement from the last entry down, each aligned down to a track. -/
def placeTrailing (track : ℕ) : List (String × ℕ) → ℕ → List Partition × ℕ
  | [], last => ([],last)
  | e :: rest, last =>
    let placed := placeTrailing track rest last
    let offset := floorAlign (qsub placed.2 e.2) track
    (⟨e.1,offset,e.2⟩ :: placed.1,offset)

def lastOffset : ℕ :=
  if r.style = .gpt then qsub r.diskSize (33 * r.sectorSize) else r.diskSize

def mainSize (offset last : ℕ) : ℕ :=
  let size := floorAlign (qsub last offset) r.bytesPerTrack
  if r.cluster % r.sectorSize = 0 then floorAlign size r.cluster else size

structure Layout where
  leading : List Partition
  main : Partition
  trailing : List Partition

def Layout.all (l : Layout) : List Partition := l.leading ++ l.main :: l.trailing

/-- What the layout computation ends with: FALSE, TRUE before anything is laid out
(the super floppy style), or a layout to be written to the disk. -/
inductive Outcome where
  | failed
  | nothing
  | laid (l : Layout)

def maxPartitions : ℕ := 16

def createPartition (mainName : String) : Outcome :=
  if r.style = .sfd then .nothing
  else if r.extra.uefiNtfs && r.uefiNtfsSize = 0 then .failed
  else if maxPartitions < (leading r).1.length + 1 + (trailing r).length then .failed
  else
    let before := leading r
    let after := placeTrailing r.bytesPerTrack (trailing r) (lastOffset r)
    let size := mainSize r before.2 after.2
    if size = 0 then .failed
    else .laid ⟨before.1,⟨mainName,before.2,size⟩,after.1⟩

/-- No subtraction of the placement asks for more than there is. -/
def NoUnderflowTrailing (track : ℕ) : List (String × ℕ) → ℕ → Prop
  | [], _ => True
  | e :: rest, last =>
    NoUnderflowTrailing track rest last ∧ e.2 ≤ (placeTrailing track rest last).2

def reserve : ℕ := if r.style = .gpt then 33 * r.sectorSize else 0

structure NoUnderflow : Prop where
  fits_reserve : reserve r ≤ r.diskSize
  fits_trailing : NoUnderflowTrailing r.bytesPerTrack (trailing r) (lastOffset r)
  fits_main : (leading r).2 ≤ (placeTrailing r.bytesPerTrack (trailing r) (lastOffset r)).2

/-- The partitions of a sound layout are nonempty, apart from each other and inside
the usable part of the disk, and the main one is a whole number of clusters. -/
structure Sound (l : Layout) : Prop where
  disjoint : l.all.Pairwise (fun p q => p.offset + p.size ≤ q.offset)
  positive : ∀ p ∈ l.all, 0 < p.size
  inside : ∀ p ∈ l.all, p.offset + p.size + reserve r ≤ r.diskSize
  clusters : r.cluster % r.sectorSize = 0 → r.cluster ∣ l.main.size

/-- Sizes of the requested partitions other than the main one, before rounding. -/
def fixedSizes : ℕ :=
  (if r.extra.esp then espSize else 0) + (if r.extra.msr then msrSize else 0) +
    (if r.extra.persistence then r.persistenceSize else 0) +
    (if r.extra.uefiNtfs then r.uefiNtfsSize else 0) +
    (if r.extra.compat && !r.extra.uefiNtfs && !(r.extra.esp && !r.espFirst) then
      r.bytesPerTrack else 0)

/-- What the callers guarantee, and a disk that holds the fixed-size partitions with
four tracks, 2 MB and a cluster to spare. -/
structure Admissible : Prop where
  sector : 0 < r.sectorSize
  track : 0 < r.sectorsPerTrack
  cluster : ∃ k, 9 ≤ k ∧ k ≤ 25 ∧ r.cluster = 2 ^ k
  small : r.extra.esp ∨ r.extra.msr → r.cluster ≤ 65536
  windows : r.extra.msr = r.extra.esp
  gpt : r.extra.esp → r.style = .gpt
  single : r.extra.esp → r.extra.uefiNtfs = false
  compat : r.extra.compat = r.oldBiosFixes
  persistence : r.extra.persistence → 0 < r.persistenceSize
  disk : r.diskSize < 2 ^ 63
  slack : fixedSizes r + 4 * r.bytesPerTrack + 2 * MB + r.cluster ≤ r.diskSize

section Room
/-! The same quantities without any wrapping. -/

def exactNext (x : ℕ) : ℕ :=
  if r.cluster % r.sectorSize = 0 then floorAlign (ceilAlign x r.bytesPerTrack) r.cluster
  else ceilAlign x r.bytesPerTrack

def exactFirst : ℕ :=
  if r.style = .gpt || !r.oldBiosFixes then 1 * MB
  else 2 * ceilAlign r.bytesPerTrack r.cluster

def exactAfterEsp : ℕ :=
  if r.espFirst && r.extra.esp then exactNext r (exactFirst r + espSize) else exactFirst r

def exactStart : ℕ :=
  if r.extra.msr then exactNext r (exactAfterEsp r + msrSize) else exactAfterEsp r

/-- The trailing partitions in whole tracks. -/
def exactTrailing : List ℕ :=
  (if r.extra.persistence then [ceilAlign r.persistenceSize r.bytesPerTrack] else []) ++
    if r.extra.esp && !r.espFirst then [ceilAlign espSize r.bytesPerTrack]
    else if r.extra.uefiNtfs then [ceilAlign r.uefiNtfsSize r.bytesPerTrack]
    else if r.extra.compat then [r.bytesPerTrack]
    else []

/-- The end of the main area: whole tracks once something has to stand behind it. -/
def exactEnd : ℕ :=
  if exactTrailing r = [] then r.diskSize - reserve r
  else floorAlign (r.diskSize - reserve r) r.bytesPerTrack

/-- The leading partitions and the trailing ones rounded to tracks fit the disk. -/
def Room : Prop :=
  reserve r ≤ r.diskSize ∧ exactStart r + (exactTrailing r).sum ≤ exactEnd r

instance : Decidable (Room r) := inferInstanceAs (Decidable (_ ∧ _))

end Room

end SecureWipeOut.CreatePartition
