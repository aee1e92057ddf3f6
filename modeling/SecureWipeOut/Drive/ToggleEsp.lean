import SecureWipeOut.Lib.HexFormat

/-! # Toggling an EFI System Partition

An ESP is turned into a basic data partition and back. What identifies the partition is
kept meanwhile in one of a few settings, so that the way back finds it again.
-/
namespace SecureWipeOut.ToggleEsp
open HexFormat

@[ext]
structure Guid where
  data1 : UInt32
  data2 : UInt16
  data3 : UInt16
  data4 : Fin 8 → UInt8

/-- CompareGUID, byte by byte. -/
instance : DecidableEq Guid := fun a b =>
  decidable_of_iff (a.data1 = b.data1 ∧ a.data2 = b.data2 ∧ a.data3 = b.data3 ∧
      ∀ i, a.data4 i = b.data4 i)
    ⟨fun h => Guid.ext h.1 h.2.1 h.2.2.1 (funext h.2.2.2),
      fun h => h ▸ ⟨rfl,rfl,rfl,fun _ => rfl⟩⟩

def guidToString (g : Guid) : List Char :=
  '{' :: hex 8 g.data1.toNat ++ '-' :: hex 4 g.data2.toNat ++ '-' :: hex 4 g.data3.toNat ++
    '-' :: hex 2 (g.data4 0).toNat ++ hex 2 (g.data4 1).toNat ++
    '-' :: hex 2 (g.data4 2).toNat ++ hex 2 (g.data4 3).toNat ++ hex 2 (g.data4 4).toNat ++
    hex 2 (g.data4 5).toNat ++ hex 2 (g.data4 6).toNat ++ hex 2 (g.data4 7).toNat ++ ['}']

/-- The eleven conversions must all be made; nothing looks at what follows them. Each
value is stored as an unsigned int, whose high bytes the next one overwrites. -/
def stringToGuid (s : List Char) : Option Guid := do
  let s ← scanChar '{' s
  let (a,s) ← scanHex 8 s
  let s ← scanChar '-' s
  let (b,s) ← scanHex 4 s
  let s ← scanChar '-' s
  let (c,s) ← scanHex 4 s
  let s ← scanChar '-' s
  let (d0,s) ← scanHex 2 s
  let (d1,s) ← scanHex 2 s
  let s ← scanChar '-' s
  let (d2,s) ← scanHex 2 s
  let (d3,s) ← scanHex 2 s
  let (d4,s) ← scanHex 2 s
  let (d5,s) ← scanHex 2 s
  let (d6,s) ← scanHex 2 s
  let (d7,_) ← scanHex 2 s
  return ⟨UInt32.ofNat a,UInt16.ofNat b,UInt16.ofNat c,
    fun i => UInt8.ofNat ([d0,d1,d2,d3,d4,d5,d6,d7].getD i 0)⟩

def partitionGenericEsp : Guid :=
  ⟨0xC12A7328,0xF81F,0x11D2,fun i => [0xBA,0x4B,0x00,0xA0,0xC9,0x3E,0xC9,0x3B].getD i 0⟩

def partitionMicrosoftData : Guid :=
  ⟨0xEBD0A0A2,0xB9E5,0x4433,fun i => [0x87,0xC0,0x68,0xB6,0xB7,0x26,0x99,0xC7].getD i 0⟩

inductive PartitionStyle where
  | mbr
  | gpt
  | raw
  deriving DecidableEq

/-- The members of both partition styles; the style of the layout says which count. -/
structure PartitionEntry where
  startingOffset : UInt64
  mbrType : UInt8
  gptType : Guid
  gptId : Guid
  deriving DecidableEq

structure DriveLayout where
  style : PartitionStyle
  signature : UInt32
  entries : List PartitionEntry
  deriving DecidableEq

/-- Where settings are kept: an ini file next to the application, or the registry. -/
inductive Store where
  | ini
  | registry
  deriving DecidableEq

/-- The texts of the settings `ToggleEsp%02u`, as they are read: empty when not set. -/
structure Settings where
  store : Store
  slot : ℕ → List Char

def maxEspToggle : ℕ := 8

def slots : List ℕ := List.range' 1 maxEspToggle

/-- The ini writer refuses an empty value and leaves the file as it is. -/
def writeSettingStr (s : Settings) (i : ℕ) (text : List Char) : Bool × Settings :=
  if s.store = .ini ∧ text = [] then (false,s)
  else (true,{ s with slot := Function.update s.slot i text })

/-- Every setting takes the text of the next one. -/
def moveDown (s : Settings) : Settings :=
  (List.range' 1 (maxEspToggle - 1)).foldl (fun s j => (writeSettingStr s j (s.slot (j + 1))).2) s

def storeEspInfo (s : Settings) (g : Guid) : Bool × Settings :=
  match slots.find? (fun j => s.slot j = []) with
  | some j => writeSettingStr s j (guidToString g)
  | none => writeSettingStr (moveDown s) maxEspToggle (guidToString g)

def getEspGuid (s : Settings) (i : ℕ) : Option Guid := stringToGuid (s.slot (i % 256))

def clearEspInfo (s : Settings) (i : ℕ) : Bool × Settings := writeSettingStr s (i % 256) []

structure Fat where
  mbrType : UInt8
  magic : List Char

def fatMbrTypes : List Fat :=
  [⟨0x0b,"FAT     ".toList⟩,⟨0x01,"FAT12   ".toList⟩,⟨0x0e,"FAT16   ".toList⟩,
    ⟨0x0c,"FAT32   ".toList⟩]

/-- The type of a data partition, from a boot sector if one could be read. Both places
of the magic are looked at, and the second one wins. -/
def fatType (buf : Option (List Char)) : UInt8 :=
  match buf with
  | none => 0x0b
  | some buf => [0x36,0x52].foldl (fun t offset =>
      match fatMbrTypes.find? (fun f => (buf.drop offset).take 8 = f.magic) with
      | some f => f.mbrType
      | none => t) 0x0b

def isEsp (style : PartitionStyle) (p : PartitionEntry) : Bool :=
  (style = .mbr ∧ p.mbrType = 0xef) ∨ (style = .gpt ∧ p.gptType = partitionGenericEsp)

def mbrGuid (signature : UInt32) (offset : UInt64) : Guid :=
  ⟨signature,0,0,fun i => UInt8.ofNat (offset.toNat / 256 ^ i.val)⟩

/-- What stands for a partition in the settings. On a drive of neither style there is
nothing to compare with. -/
def guidOf (d : DriveLayout) (p : PartitionEntry) : Option Guid :=
  match d.style with
  | .gpt => some p.gptId
  | .mbr => some (mbrGuid d.signature p.startingOffset)
  | .raw => none

def setEsp (style : PartitionStyle) (p : PartitionEntry) : PartitionEntry :=
  match style with
  | .gpt => { p with gptType := partitionGenericEsp }
  | .mbr => { p with mbrType := 0xef }
  | .raw => p

def setBasicData (style : PartitionStyle) (boot : UInt64 → Option (List Char))
    (p : PartitionEntry) : PartitionEntry :=
  match style with
  | .gpt => { p with gptType := partitionMicrosoftData }
  | .mbr => { p with mbrType := fatType (boot p.startingOffset) }
  | .raw => p

/-- The inner loop of the way back: the partition found, and the loop variable, which is
stepped once more before the condition ends the loop. -/
def searchEntries (d : DriveLayout) (stored : Guid) : List PartitionEntry → ℕ → Option ℕ × ℕ
  | [],j => (none,j)
  | p :: ps,j => if guidOf d p = some stored then (some j,j + 1) else searchEntries d stored ps (j + 1)

/-- The outer loop: the partition found and the inner loop's variable as it was left. -/
def searchSlots (d : DriveLayout) (s : Settings) : List ℕ → Option (ℕ × ℕ)
  | [] => none
  | i :: is =>
    match getEspGuid s i with
    | none => searchSlots d s is
    | some stored =>
      match searchEntries d stored d.entries 0 with
      | (some e,j) => some (e,j)
      | (none,_) => searchSlots d s is

/-- Which of the calls made on the system succeed, and the boot sectors read. -/
structure Calls where
  windows10 : Bool
  open_ : Bool
  getLayout : Bool
  setLayout : Bool
  settings : Bool
  boot : UInt64 → Option (List Char)

structure State where
  layout : DriveLayout
  settings : Settings

def setEntry (d : DriveLayout) (i : ℕ) (f : PartitionEntry → PartitionEntry) : DriveLayout :=
  { d with entries := d.entries.modify i f }

/-- The new layout is written; after the way back the stored data is deleted, whether or
not that succeeds. -/
def writeLayout (c : Calls) (s : State) (d : DriveLayout) (cleared : Option ℕ) : Bool × State :=
  if c.setLayout then
    (true,⟨d,match cleared with
      | some j => if c.settings then (clearEspInfo s.settings j).2 else s.settings
      | none => s.settings⟩)
  else (false,s)

/-- Without an offset the drive's ESP is looked for and turned into basic data, or one
turned before is turned back. With an offset the partition there becomes an ESP. -/
def toggleEsp (c : Calls) (s : State) (partitionOffset : UInt64) : Bool × State :=
  let d := s.layout
  if partitionOffset = 0 ∧ c.windows10 = false then (false,s)
  else if c.open_ = false then (false,s)
  else if c.getLayout = false then (false,s)
  else if partitionOffset = 0 then
    match d.entries.findIdx? (isEsp d.style) with
    | some e =>
      match d.entries[e]?.bind (guidOf d) with
      | none => (false,s)
      | some g =>
        let stored := storeEspInfo s.settings g
        if c.settings && stored.1 then
          writeLayout c ⟨d,stored.2⟩ (setEntry d e (setBasicData d.style c.boot)) none
        else (false,s)
    | none =>
      match searchSlots d s.settings slots with
      | some (e,j) => writeLayout c s (setEntry d e (setEsp d.style)) (some j)
      | none => (false,s)
  else
    match d.entries.findIdx? (fun p => p.startingOffset = partitionOffset) with
    | some e => writeLayout c s (setEntry d e (setEsp d.style)) none
    | none => (false,s)

end SecureWipeOut.ToggleEsp
