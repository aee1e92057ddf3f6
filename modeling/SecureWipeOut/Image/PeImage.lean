import SecureWipeOut.Hash.Context

/-! # Regions of a PE image

The parts of an executable that go into its Authenticode digest. Addresses are counted
from the start of the buffer, and memory around it has values too; the parser returns the
ranges of bytes it has read together with the regions.
-/
namespace SecureWipeOut.PeImage
open Hash

abbrev Memory := ℤ → UInt8

def readWord (mem : Memory) (a : ℤ) : ℕ := (mem a).toNat + 256 * (mem (a + 1)).toNat
def readDword (mem : Memory) (a : ℤ) : ℕ := readWord mem a + 65536 * readWord mem (a + 2)

/-- A 32-bit value as a LONG. -/
def long (n : ℕ) : ℤ :=
  if n % 2 ^ 32 < 2 ^ 31 then (n % 2 ^ 32 : ℕ) else (n % 2 ^ 32 : ℕ) - 2 ^ 32

structure Region where
  data : ℤ
  size : ℕ
  deriving DecidableEq

def Region.stop (r : Region) : ℤ := r.data + r.size

structure Regions where
  max : ℕ
  reg : List Region

/-- The search for the place of a new region: behind all that end before it starts, in
front of the first that starts after it ends; none if it overlaps one. -/
def insertRegion (new : Region) (stop : ℤ) : List Region → Option (List Region)
  | [] => some [new]
  | reg :: rest =>
    if reg.stop ≤ new.data then (insertRegion new stop rest).map (reg :: ·)
    else if stop ≤ reg.data then some (new :: reg :: rest)
    else none

def efiImageRegionAdd (regs : Regions) (start stop : ℤ) (nocheck : Bool) : Bool × Regions :=
  if regs.max ≤ regs.reg.length then (false,regs)
  else if stop < start then (false,regs)
  else
    let new : Region := ⟨start,(stop - start).toNat % 2 ^ 32⟩
    if nocheck then (true,{ regs with reg := regs.reg ++ [new] })
    else
      match insertRegion new stop regs.reg with
      | some reg => (true,{ regs with reg := reg })
      | none => (false,regs)

/-- Where the optional headers of 32-bit and 64-bit images differ. -/
structure Layout where
  numberOfRvaAndSizes : ℤ
  dataDirectory : ℤ
  deriving DecidableEq

def layout32 : Layout := ⟨92,96⟩
def layout64 : Layout := ⟨108,112⟩

def layoutOf (magic : ℕ) : Option Layout :=
  if magic = 0x20b then some layout64 else if magic = 0x10b then some layout32 else none

def ctidx : ℕ := 4

structure SectionHeader where
  virtualAddress : ℕ
  sizeOfRawData : ℕ
  pointerToRawData : ℕ
  deriving DecidableEq

/-- The order of sections with the same address is left open. -/
structure Qsort where
  sort : List SectionHeader → List SectionHeader
  perm : ∀ l, (sort l).Perm l
  sorted : ∀ l, (sort l).Pairwise fun a b => a.virtualAddress ≤ b.virtualAddress

/-- The raw size rounded up to the alignment, in 32 bits. -/
def roundedSize (align raw : ℕ) : ℕ :=
  ((BitVec.ofNat 32 raw + BitVec.ofNat 32 align - 1#32) &&& ~~~(BitVec.ofNat 32 align - 1#32)).toNat

section fields
variable (mem : Memory)

def lfanew : ℤ := long (readDword mem 0x3c)
def ntHeaders : ℤ := lfanew mem
def numberOfSections : ℕ := readWord mem (ntHeaders mem + 6)
def sizeOfOptionalHeader : ℕ := readWord mem (ntHeaders mem + 20)
def optionalHeader : ℤ := ntHeaders mem + 24
def magic : ℕ := readWord mem (optionalHeader mem)
def fileAlignment : ℕ := readDword mem (optionalHeader mem + 36)
def sizeOfHeaders : ℕ := readDword mem (optionalHeader mem + 60)
def checkSum : ℤ := optionalHeader mem + 64
def subsystem : ℤ := optionalHeader mem + 68
def numberOfRvaAndSizes (l : Layout) : ℕ := readDword mem (optionalHeader mem + l.numberOfRvaAndSizes)

/-- The entry of the certificate table in the data directory. -/
def securityEntry (l : Layout) : ℤ := optionalHeader mem + l.dataDirectory + 8 * ctidx
def authsz (l : Layout) : ℕ :=
  if numberOfRvaAndSizes mem l ≤ ctidx then 0 else readDword mem (securityEntry mem l + 4)

def sectionAt (i : ℕ) : ℤ := optionalHeader mem + sizeOfOptionalHeader mem + 40 * i

def sectionHeader (a : ℤ) : SectionHeader :=
  ⟨readDword mem (a + 12),readDword mem (a + 16),readDword mem (a + 20)⟩

def sections : List SectionHeader :=
  (List.range (numberOfSections mem)).map fun i => sectionHeader mem (sectionAt mem i)

/-- The headers but for the checksum and the entry of the certificate table. -/
def addHeaders (l : Layout) (regs : Regions) : Regions :=
  let regs := (efiImageRegionAdd regs 0 (checkSum mem) false).2
  if numberOfRvaAndSizes mem l ≤ ctidx then
    (efiImageRegionAdd regs (subsystem mem) (sizeOfHeaders mem) false).2
  else
    let regs := (efiImageRegionAdd regs (subsystem mem) (securityEntry mem l) false).2
    (efiImageRegionAdd regs (securityEntry mem l + 8) (sizeOfHeaders mem) false).2

end fields

/-- One section: its region, if there is room for it, and its share of the bytes hashed. -/
def addSection (align : ℕ) (acc : Regions × ℕ) (s : SectionHeader) : Regions × ℕ :=
  if s.sizeOfRawData = 0 then acc
  else
    let size := roundedSize align s.sizeOfRawData
    ((efiImageRegionAdd acc.1 s.pointerToRawData (s.pointerToRawData + size) false).2,acc.2 + size)

structure Parsed where
  reads : List (ℤ × ℕ)
  regions : Option Regions

def headerReads (mem : Memory) (l : Layout) : List (ℤ × ℕ) :=
  [(optionalHeader mem + l.numberOfRvaAndSizes,4),(optionalHeader mem + 60,4)] ++
    (if numberOfRvaAndSizes mem l ≤ ctidx then [] else [(securityEntry mem l + 4,4)]) ++
    [(optionalHeader mem + 36,4),(ntHeaders mem + 20,2)]

def sectionReads (mem : Memory) (i : ℕ) : List (ℤ × ℕ) :=
  [(sectionAt mem i + 12,4),(sectionAt mem i + 16,4)] ++
    if (sectionHeader mem (sectionAt mem i)).sizeOfRawData = 0 then [] else [(sectionAt mem i + 20,4)]

def efiImageParse (q : Qsort) (mem : Memory) (len : ℕ) : Parsed :=
  if len < 0x80 then ⟨[],none⟩
  else if long len - 0x40 < lfanew mem then ⟨[(0x3c,4)],none⟩
  else
    let reads : List (ℤ × ℕ) := [(0x3c,4),(ntHeaders mem + 6,2),(optionalHeader mem,2)]
    match layoutOf (magic mem) with
    | none => ⟨reads,none⟩
    | some l =>
      let regs := addHeaders mem l ⟨3 + numberOfSections mem + 1,[]⟩
      let acc := (q.sort (sections mem)).foldl (addSection (fileAlignment mem))
        (regs,sizeOfHeaders mem)
      let regs :=
        if acc.2 + authsz mem l < len then
          (efiImageRegionAdd acc.1 acc.2 ((len : ℤ) - authsz mem l) false).2
        else acc.1
      ⟨reads ++ headerReads mem l ++ (List.range (numberOfSections mem)).flatMap (sectionReads mem),
        some regs⟩

/-- The pieces of memory that are hashed. -/
def chunks (mem : Memory) (regs : Regions) : List Chunk :=
  regs.reg.map fun r => ⟨fun i => mem (r.data + i),r.size⟩

/-- The digest and all ranges read on the way to it. -/
def pe256Buffer (q : Qsort) (cpu : Cpu) (mem : Memory) (len : ℕ) : List (ℤ × ℕ) × Option (List UInt8) :=
  if len < 1024 ∨ 64 * 1024 * 1024 < len then ([],none)
  else
    let parsed := efiImageParse q mem len
    match parsed.regions with
    | none => (parsed.reads,none)
    | some regs => (parsed.reads ++ regs.reg.map (fun r => (r.data,r.size)),
        (sha256 cpu).hash (chunks mem regs))

end SecureWipeOut.PeImage
