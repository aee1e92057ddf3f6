import Mathlib.Tactic

/-! # Sector access

The helpers that position a drive handle and transfer whole sectors. The handle
is any state with the three file operations; nothing is assumed of what they
answer except that a transfer does not report more bytes than were asked for.
-/
namespace SecureWipeOut.Sectors

structure ReadAnswer where
  ok : Bool
  count : ℕ
  data : ℕ → UInt8

structure WriteAnswer where
  ok : Bool
  count : ℕ

/-- The operations of an open drive, and the test for a user's cancellation. -/
structure Handle (σ : Type*) where
  getFilePointer : σ → Option ℕ × σ
  setFilePointerEx : ℕ → σ → Bool × σ
  readFile : ℕ → σ → ReadAnswer × σ
  writeFile : (ℕ → UInt8) → ℕ → σ → WriteAnswer × σ
  cancelled : σ → Bool × σ
  read_le : ∀ n s, (readFile n s).1.count ≤ n
  write_le : ∀ buf n s, (writeFile buf n s).1.count ≤ n

def writeRetries : ℕ := 4

variable {σ : Type*} (h : Handle σ) (largeDrive : Bool)

/-- The attempts left, with the count reported by the one before; every attempt
after the first starts by rewinding. -/
def writeTries (buf : ℕ → UInt8) (n : ℕ) (start : Option ℕ) :
    ℕ → Bool → ℕ → σ → WriteAnswer × σ
  | 0, _, written, s => (⟨false,written⟩,s)
  | left + 1, first, written, s =>
    let rewound := if first then (true,s) else h.setFilePointerEx (start.getD 0) s
    if !rewound.1 then (⟨false,written⟩,rewound.2)
    else
      let w := h.writeFile buf n rewound.2
      if w.1.ok && (w.1.count == n || largeDrive && w.1.count == 0) then w
      else if start.isNone then (⟨false,w.1.count⟩,w.2)
      else writeTries buf n start left false w.1.count w.2

def writeFileWithRetry (buf : ℕ → UInt8) (n retries : ℕ) (s : σ) : WriteAnswer × σ :=
  let start := h.getFilePointer s
  writeTries h largeDrive buf n start.1 (if retries = 0 then 1 else retries) true n start.2

/-- The number of bytes written, or -1. -/
def writeSectors (sectorSize startSector nSectors : ℕ) (buf : ℕ → UInt8) (s : σ) : ℤ × σ :=
  let size := nSectors * sectorSize
  if 0xFFFFFFFF < size then (-1,s)
  else
    let seek := h.setFilePointerEx (startSector * sectorSize) s
    if !seek.1 then (-1,seek.2)
    else
      let w := writeFileWithRetry h largeDrive buf size writeRetries seek.2
      if !w.1.ok then (-1,w.2)
      else if w.1.count ≠ size then
        if largeDrive && w.1.count == 0 then (0,w.2) else (-1,w.2)
      else (size,w.2)

/-- The number of bytes read, or -1; a failed or short read only leaves a message. -/
def readSectors (sectorSize startSector nSectors : ℕ) (s : σ) : (ℤ × (ℕ → UInt8)) × σ :=
  let size := nSectors * sectorSize
  if 0xFFFFFFFF < size then ((-1,fun _ => 0),s)
  else
    let seek := h.setFilePointerEx (startSector * sectorSize) s
    if !seek.1 then ((-1,fun _ => 0),seek.2)
    else
      let r := h.readFile size seek.2
      ((r.1.count,r.1.data),r.2)

theorem writeSectors_le (sectorSize startSector nSectors : ℕ) (buf : ℕ → UInt8) (s : σ) :
    (writeSectors h largeDrive sectorSize startSector nSectors buf s).1 ≤
      (nSectors * sectorSize : ℕ) := by
  have hneg : (-1 : ℤ) ≤ (nSectors * sectorSize : ℕ) := by omega
  unfold writeSectors
  dsimp only
  split
  · exact hneg
  · split
    · exact hneg
    · split
      · exact hneg
      · split
        · split
          · exact Int.natCast_nonneg _
          · exact hneg
        · exact le_refl _

theorem readSectors_le (sectorSize startSector nSectors : ℕ) (s : σ) :
    (readSectors h sectorSize startSector nSectors s).1.1 ≤ (nSectors * sectorSize : ℕ) := by
  have hneg : (-1 : ℤ) ≤ (nSectors * sectorSize : ℕ) := by omega
  unfold readSectors
  dsimp only
  split
  · exact hneg
  · split
    · exact hneg
    · exact Int.ofNat_le.mpr (h.read_le _ _)

end SecureWipeOut.Sectors
