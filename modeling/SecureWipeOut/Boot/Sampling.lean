import SecureWipeOut.Boot.SectorTests

/-! # Sampling a device

The verifications of the boot scripts draw their sectors from the shell's `RANDOM`,
reduced modulo the number of sectors between the margins they leave out. Shell
arithmetic truncates towards zero and a division by zero abandons the command.
-/
namespace SecureWipeOut.Sampling
open Text Hexdump SectorTests

/-- The values `RANDOM` takes and what each read returns, in the order of the samples. -/
structure Probe where
  random : ℕ → Fin 32768
  read : ℕ → ℤ → Readback

/-- `RANDOM % (sectors - margin) + skip`. -/
def pickSector (margin skip : ℕ) (sectors : ℤ) (r : Fin 32768) : Option ℤ :=
  if sectors - margin = 0 then none else some ((r.val : ℤ).tmod (sectors - margin) + skip)

/-- The sectors that were read and the verdict, none when the command was abandoned. -/
structure Sampled where
  sectors : List ℤ
  passed : Option Bool

/-- Samples are taken until one of them is rejected. -/
def sampleUntil (pick : Fin 32768 → Option ℤ) (test : Readback → Bool) (io : Probe) : ℕ → ℕ → Sampled
  | 0, _ => ⟨[],some true⟩
  | n + 1, i =>
    match pick (io.random i) with
    | none => ⟨[],none⟩
    | some s =>
      if test (io.read i s) then
        let rest := sampleUntil pick test io n (i + 1)
        ⟨s :: rest.sectors,rest.passed⟩
      else ⟨[s],some false⟩

def verifyOverwrite (deviceSizeBytes : ℕ) (io : Probe) : Sampled :=
  sampleUntil (pickSector 1000 500 ((deviceSizeBytes / 512 : ℕ) : ℤ)) verifyOverwriteTest io 10 0

/-- The checks of the external wipes, left out when the size of the device is unknown. -/
def externalVerification (test : Readback → Bool) (samples : ℕ) (deviceSizeSectors : Option ℕ) (io : Probe) :
    Sampled :=
  let sectors := deviceSizeSectors.getD 0
  if 0 < sectors then sampleUntil (pickSector 100 50 sectors) test io samples 0 else ⟨[],some true⟩

def standardVerification : Option ℕ → Probe → Sampled := externalVerification standardExternalTest 20

def enhancedVerification : Option ℕ → Probe → Sampled := externalVerification enhancedExternalTest 30

structure Tally where
  verifiedSectors : ℕ
  failedSectors : ℕ

def Tally.count (t : Tally) (patternMatch : Bool) : Tally :=
  if patternMatch then { t with verifiedSectors := t.verifiedSectors + 1 }
  else { t with failedSectors := t.failedSectors + 1 }

def patternLoop (pick : Fin 32768 → Option ℤ) (expected : ExpectedPattern) (io : Probe) :
    ℕ → ℕ → Tally → List ℤ × Option Tally
  | 0, _, t => ([],some t)
  | n + 1, i, t =>
    match pick (io.random i) with
    | none => ([],none)
    | some s =>
      let rest := patternLoop pick expected io n (i + 1) (t.count (patternTest expected (io.read i s)))
      (s :: rest.1,rest.2)

/-- A failure rate of at most one percent is tolerated. -/
def executePatternVerification (expected : ExpectedPattern) (verifyTotalSectors sampleCount : ℕ)
    (io : Probe) : Sampled :=
  let loop := patternLoop (pickSector 2000 1000 verifyTotalSectors) expected io sampleCount 0 ⟨0,0⟩
  ⟨loop.1,loop.2.bind fun t =>
    if sampleCount = 0 then none else some (decide (t.failedSectors * 100 / sampleCount ≤ 1))⟩

/-- The collection of `execute_entropy_verification`: the sectors read and the data kept for the
estimate. The progress display divides by a tenth of the sample count. -/
def entropyLoop (pick : Fin 32768 → Option ℤ) (sampleCount : ℕ) (io : Probe) :
    ℕ → ℕ → List ℤ × Option (List Sector)
  | 0, _ => ([],some [])
  | n + 1, i =>
    match pick (io.random i) with
    | none => ([],none)
    | some s =>
      if sampleCount / 10 = 0 then ([s],none)
      else
        let rest := entropyLoop pick sampleCount io n (i + 1)
        (s :: rest.1,rest.2.map fun samples => (io.read i s).toList ++ samples)

def collectEntropySamples (verifyTotalSectors sampleCount : ℕ) (io : Probe) :
    List ℤ × Option (List Sector) :=
  entropyLoop (pickSector 2000 1000 verifyTotalSectors) sampleCount io sampleCount 0

inductive Sampler
  | verifyOverwrite
  | pattern (expected : ExpectedPattern) (sampleCount : ℕ)
  | entropy (sampleCount : ℕ)
  | standardExternal
  | enhancedExternal

namespace Sampler

def margin : Sampler → ℕ
  | verifyOverwrite => 1000
  | pattern _ _ | entropy _ => 2000
  | standardExternal | enhancedExternal => 100

def skip : Sampler → ℕ
  | verifyOverwrite => 500
  | pattern _ _ | entropy _ => 1000
  | standardExternal | enhancedExternal => 50

def samples : Sampler → ℕ
  | verifyOverwrite => 10
  | pattern _ n | entropy n => n
  | standardExternal => 20
  | enhancedExternal => 30

def pick (k : Sampler) (sectors : ℕ) : Fin 32768 → Option ℤ := pickSector k.margin k.skip sectors

/-- The sectors that a run of the verification reads on a device of the given size. -/
def sectorsRead (k : Sampler) (sectors : ℕ) (io : Probe) : List ℤ :=
  match k with
  | verifyOverwrite => (Sampling.verifyOverwrite (512 * sectors) io).sectors
  | pattern expected n => (executePatternVerification expected sectors n io).sectors
  | entropy n => (collectEntropySamples sectors n io).1
  | standardExternal => (standardVerification (some sectors) io).sectors
  | enhancedExternal => (enhancedVerification (some sectors) io).sectors

end Sampler

variable {pick : Fin 32768 → Option ℤ} {io : Probe}

theorem mem_sampleUntil {test : Readback → Bool} {s : ℤ} {n i : ℕ}
    (h : s ∈ (sampleUntil pick test io n i).sectors) : ∃ j, pick (io.random j) = some s := by
  induction n generalizing i with
  | zero => cases h
  | succ n ih =>
    unfold sampleUntil at h
    split at h
    case h_1 => cases h
    case h_2 t ht =>
      split at h
      · rcases List.mem_cons.mp h with rfl | h
        · exact ⟨i,ht⟩
        · exact ih h
      · rw [List.mem_singleton.mp h]
        exact ⟨i,ht⟩

theorem mem_patternLoop {expected : ExpectedPattern} {s : ℤ} {n i : ℕ} {t : Tally}
    (h : s ∈ (patternLoop pick expected io n i t).1) : ∃ j, pick (io.random j) = some s := by
  induction n generalizing i t with
  | zero => cases h
  | succ n ih =>
    unfold patternLoop at h
    split at h
    case h_1 => cases h
    case h_2 u hu =>
      rcases List.mem_cons.mp h with rfl | h
      · exact ⟨i,hu⟩
      · exact ih h

theorem mem_entropyLoop {count : ℕ} {s : ℤ} {n i : ℕ}
    (h : s ∈ (entropyLoop pick count io n i).1) : ∃ j, pick (io.random j) = some s := by
  induction n generalizing i with
  | zero => cases h
  | succ n ih =>
    unfold entropyLoop at h
    split at h
    case h_1 => cases h
    case h_2 u hu =>
      split at h
      · rw [List.mem_singleton.mp h]
        exact ⟨i,hu⟩
      · rcases List.mem_cons.mp h with rfl | h
        · exact ⟨i,hu⟩
        · exact ih h

/-- A verification passes exactly if every sample is drawn and accepted. -/
theorem sampleUntil_passed {test : Readback → Bool} (n i : ℕ) :
    (sampleUntil pick test io n i).passed = some true ↔
      ∀ j < n, ∃ s, pick (io.random (i + j)) = some s ∧ test (io.read (i + j) s) = true := by
  induction n generalizing i with
  | zero => simp [sampleUntil]
  | succ n ih =>
    have hrest := ih (i + 1)
    simp only [Nat.add_right_comm i 1] at hrest
    rw [sampleUntil,Nat.forall_lt_succ_left]
    simp only [← Nat.add_assoc,← hrest,Nat.add_zero]
    cases hp : pick (io.random i) with
    | none => simp
    | some s =>
      cases ht : test (io.read i s) with
      | true => simp [ht]
      | false => simp [ht]

theorem first_sampleUntil {test : Readback → Bool} {s : ℤ} {n : ℕ} (hn : 0 < n)
    (h : pick (io.random 0) = some s) : s ∈ (sampleUntil pick test io n 0).sectors := by
  obtain ⟨n,rfl⟩ := Nat.exists_eq_add_one.mpr hn
  rw [sampleUntil,h]
  dsimp only
  split <;> simp

theorem first_patternLoop {expected : ExpectedPattern} {s : ℤ} {n : ℕ} {t : Tally} (hn : 0 < n)
    (h : pick (io.random 0) = some s) : s ∈ (patternLoop pick expected io n 0 t).1 := by
  obtain ⟨n,rfl⟩ := Nat.exists_eq_add_one.mpr hn
  rw [patternLoop,h]
  simp

theorem first_entropyLoop {count : ℕ} {s : ℤ} {n : ℕ} (hn : 0 < n)
    (h : pick (io.random 0) = some s) : s ∈ (entropyLoop pick count io n 0).1 := by
  obtain ⟨n,rfl⟩ := Nat.exists_eq_add_one.mpr hn
  rw [entropyLoop,h]
  dsimp only
  split <;> simp

namespace Sampler
variable {k : Sampler} {S : ℕ} {s : ℤ}

theorem verifyOverwrite_sectors (S : ℕ) (io : Probe) : Sampling.verifyOverwrite (512 * S) io =
    sampleUntil (pickSector 1000 500 S) verifyOverwriteTest io 10 0 := by
  rw [Sampling.verifyOverwrite,Nat.mul_div_cancel_left S (by norm_num)]

theorem externalVerification_sectors (test : Readback → Bool) (n : ℕ) (hS : 0 < S) (io : Probe) :
    externalVerification test n (some S) io = sampleUntil (pickSector 100 50 S) test io n 0 :=
  if_pos hS

/-- Every sector that is read was drawn. -/
theorem drawn_of_read (hS : k.margin < S) (h : s ∈ k.sectorsRead S io) :
    ∃ j, k.pick S (io.random j) = some s := by
  have hpos : 0 < S := by omega
  cases k with
  | verifyOverwrite =>
    rw [sectorsRead,verifyOverwrite_sectors] at h
    exact mem_sampleUntil h
  | pattern expected n => exact mem_patternLoop h
  | entropy n => exact mem_entropyLoop h
  | standardExternal =>
    rw [sectorsRead,standardVerification,externalVerification_sectors _ _ hpos] at h
    exact mem_sampleUntil h
  | enhancedExternal =>
    rw [sectorsRead,enhancedVerification,externalVerification_sectors _ _ hpos] at h
    exact mem_sampleUntil h

/-- The sector drawn first is read, whatever the read returns. -/
theorem read_of_drawn (hS : k.margin < S) (hn : 0 < k.samples) (h : k.pick S (io.random 0) = some s) :
    s ∈ k.sectorsRead S io := by
  have hpos : 0 < S := by omega
  cases k with
  | verifyOverwrite =>
    rw [sectorsRead,verifyOverwrite_sectors]
    exact first_sampleUntil hn h
  | pattern expected n => exact first_patternLoop hn h
  | entropy n => exact first_entropyLoop hn h
  | standardExternal =>
    rw [sectorsRead,standardVerification,externalVerification_sectors _ _ hpos]
    exact first_sampleUntil hn h
  | enhancedExternal =>
    rw [sectorsRead,enhancedVerification,externalVerification_sectors _ _ hpos]
    exact first_sampleUntil hn h

theorem pick_eq (hS : k.margin < S) (r : Fin 32768) :
    k.pick S r = some ((r.val % (S - k.margin) + k.skip : ℕ) : ℤ) := by
  have hsub : (S : ℤ) - k.margin = ((S - k.margin : ℕ) : ℤ) := by omega
  rw [pick,pickSector,if_neg (by omega),hsub,← Int.ofNat_tmod]
  norm_cast

theorem margin_eq (k : Sampler) : k.margin = 2 * k.skip := by
  cases k <;> rfl

/-- The window of a verification: all sectors but as many as it skips at each end. -/
def InWindow (k : Sampler) (S : ℕ) (s : ℤ) : Prop := k.skip ≤ s ∧ s < S - k.skip

/-- The last sector that can be drawn lies 32767 sectors into the window. -/
theorem pick_lt (hS : k.margin < S) {r : Fin 32768} (h : k.pick S r = some s) : s < k.skip + 32768 := by
  rw [pick_eq hS,Option.some.injEq] at h
  have hmod : r.val % (S - k.margin) ≤ r.val := Nat.mod_le _ _
  omega

theorem exists_pick (hS : k.margin < S) (hsmall : S ≤ k.margin + 32768) (hs : k.InWindow S s) :
    ∃ r, k.pick S r = some s := by
  have hm := k.margin_eq
  obtain ⟨hlow,hhigh⟩ := hs
  obtain ⟨d,hd⟩ := Int.eq_ofNat_of_zero_le (Int.sub_nonneg_of_le hlow)
  refine ⟨⟨d,by omega⟩,?_⟩
  rw [pick_eq hS]
  dsimp only
  rw [Nat.mod_eq_of_lt (by omega),Option.some.injEq]
  omega

end Sampler

/-- Exactly on devices with at most 32768 sectors between the margins can every sector of
the window be drawn, and then some run reads it, whatever the reads return. -/
theorem sampling_reaches_window (k : Sampler) (S : ℕ) (hS : k.margin < S) (hn : 0 < k.samples) :
    ((∀ s, k.InWindow S s → ∃ r, k.pick S r = some s) ∧
      ∀ s, k.InWindow S s → ∀ read, ∃ random, s ∈ k.sectorsRead S ⟨random,read⟩) ↔
      S ≤ k.margin + 32768 := by
  constructor
  · rintro ⟨hdraw,_⟩
    by_contra hlarge
    have hm := k.margin_eq
    obtain ⟨r,hr⟩ := hdraw (k.skip + 32768) ⟨by omega,by omega⟩
    exact absurd (Sampler.pick_lt hS hr) (by omega)
  · intro hsmall
    refine ⟨fun s hs => Sampler.exists_pick hS hsmall hs,?_⟩
    intro s hs read
    obtain ⟨r,hr⟩ := Sampler.exists_pick hS hsmall hs
    exact ⟨fun _ => r,Sampler.read_of_drawn hS hn hr⟩

theorem sampling_reaches_window_small_disk :
    (∀ s, Sampler.verifyOverwrite.InWindow 33768 s → ∃ r, Sampler.verifyOverwrite.pick 33768 r = some s) ∧
      ∀ s, Sampler.verifyOverwrite.InWindow 33768 s →
        ∀ read, ∃ random, s ∈ Sampler.verifyOverwrite.sectorsRead 33768 ⟨random,read⟩ :=
  (sampling_reaches_window .verifyOverwrite 33768 (by decide) (by decide)).mpr (by decide)

/-- On a disk of one terabyte the sector 33268 lies in the window, and no run reads it. -/
theorem sampling_misses_terabyte_disk :
    Sampler.verifyOverwrite.InWindow 1953525168 33268 ∧
      (∀ r, Sampler.verifyOverwrite.pick 1953525168 r ≠ some 33268) ∧
      ∀ io, 33268 ∉ Sampler.verifyOverwrite.sectorsRead 1953525168 io := by
  have hS : Sampler.verifyOverwrite.margin < 1953525168 := by decide
  have hmiss : ∀ r, Sampler.verifyOverwrite.pick 1953525168 r ≠ some 33268 :=
    fun r hr => absurd (Sampler.pick_lt hS hr) (by decide)
  refine ⟨⟨by decide,by decide⟩,hmiss,?_⟩
  intro io hmem
  obtain ⟨j,hj⟩ := Sampler.drawn_of_read hS hmem
  exact hmiss _ hj

end SecureWipeOut.Sampling
