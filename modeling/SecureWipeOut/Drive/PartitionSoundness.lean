import SecureWipeOut.Drive.PartitionPlacement

/-! # When a partition layout is sound

A layout is computed without underflow exactly if there is room for it, and is sound
then. The slack that callers leave makes room in all styles but one.
-/
namespace SecureWipeOut.CreatePartition
open CInt Ranges
variable {r : Request}

theorem exactEnd_le_lastOffset (h : Admissible r) (hres : reserve r ≤ r.diskSize) :
    exactEnd r ≤ lastOffset r := by
  rw [lastOffset_eq h hres]
  unfold exactEnd
  split
  · exact le_refl _
  · exact floorAlign_le _ _

/-- The trailing partitions, once they fit, take their tracks off the exact end. -/
theorem placeTrailing_end (h : Admissible r) (hu : r.extra.uefiNtfs → 0 < r.uefiNtfsSize)
    (hres : reserve r ≤ r.diskSize) (hle : sizes (trailing r) ≤ lastOffset r) :
    (placeTrailing r.bytesPerTrack (trailing r) (lastOffset r)).2 + (exactTrailing r).sum = exactEnd r := by
  have htracks : ∀ e ∈ trailing r, r.bytesPerTrack ∣ e.2 := fun e he => (trailing_tracks h hu he).1
  have hnil : trailing r = [] ↔ exactTrailing r = [] := by rw [← trailing_eq h,List.map_eq_nil_iff]
  have hfloor := le_floorAlign_of_dvd (dvd_sizes htracks) hle
  have hsum : sizes (trailing r) = (exactTrailing r).sum := by rw [sizes,trailing_eq h]
  rw [(placeTrailing_spec htracks (lastOffset_lt h)).2 hle,exactEnd,← lastOffset_eq h hres]
  by_cases hn : exactTrailing r = []
  · rw [if_pos (hnil.mpr hn),if_pos hn,hn]
    rfl
  · rw [if_neg (mt hnil.mp hn),if_neg hn]
    omega

/-- Exactly the requests with room are computed without underflow. -/
theorem noUnderflow_iff (h : Admissible r) (hu : r.extra.uefiNtfs → 0 < r.uefiNtfsSize) :
    NoUnderflow r ↔ Room r := by
  have htracks : ∀ e ∈ trailing r, r.bytesPerTrack ∣ e.2 := fun e he => (trailing_tracks h hu he).1
  have hiff := (placeTrailing_spec htracks (lastOffset_lt h)).1
  have hlead := (leading_spec h).1
  have hsum : sizes (trailing r) = (exactTrailing r).sum := by rw [sizes,trailing_eq h]
  constructor
  · rintro ⟨hres,htr,hmain⟩
    have hend := placeTrailing_end h hu hres (hiff.mp htr)
    rw [hlead] at hmain
    exact ⟨hres,by omega⟩
  · rintro ⟨hres,hfit⟩
    have hlast := exactEnd_le_lastOffset h hres
    have hle : sizes (trailing r) ≤ lastOffset r := by omega
    have hend := placeTrailing_end h hu hres hle
    refine ⟨hres,hiff.mpr hle,?_⟩
    rw [hlead]
    omega

theorem mainSize_le {offset last : ℕ} (hle : offset ≤ last) (hlast : last < 2 ^ 64) :
    offset + mainSize r offset last ≤ last := by
  have hsub := qsub_of_le hle hlast
  have htrack := floorAlign_le (qsub last offset) r.bytesPerTrack
  have hcluster := floorAlign_le (floorAlign (qsub last offset) r.bytesPerTrack) r.cluster
  unfold mainSize
  dsimp only
  split <;> omega

theorem cluster_dvd_mainSize (offset last : ℕ) (hc : r.cluster % r.sectorSize = 0) :
    r.cluster ∣ mainSize r offset last := by
  simp only [mainSize,hc,if_true]
  exact dvd_floorAlign _ _

theorem createPartition_laid {name : String} {l : Layout}
    (h : createPartition r name = .laid l) :
    (r.extra.uefiNtfs → 0 < r.uefiNtfsSize) ∧ 0 < l.main.size ∧
      l = ⟨(leading r).1,⟨name,(leading r).2,mainSize r (leading r).2
        (placeTrailing r.bytesPerTrack (trailing r) (lastOffset r)).2⟩,
        (placeTrailing r.bytesPerTrack (trailing r) (lastOffset r)).1⟩ := by
  unfold createPartition at h
  split at h
  · cases h
  · split at h
    · cases h
    case isFalse hu =>
      split at h
      · cases h
      · dsimp only at h
        split at h
        · cases h
        case isFalse hsize =>
          cases h
          refine ⟨?_,Nat.pos_of_ne_zero hsize,rfl⟩
          intro hx
          apply Nat.pos_of_ne_zero
          simpa [hx] using hu

/-- Without underflow the three parts pack the disk one after the other. -/
theorem sound_of_noUnderflow (h : Admissible r) {name : String} {l : Layout}
    (hl : createPartition r name = .laid l) (hn : NoUnderflow r) : Sound r l := by
  obtain ⟨hu,hsize,hdef⟩ := createPartition_laid hl
  obtain ⟨hres,htr,hmain⟩ := hn
  obtain ⟨hstart,hlead⟩ := leading_spec h
  have hlast := lastOffset_lt h
  have hpos : ∀ e ∈ trailing r, 0 < e.2 := fun e he => (trailing_tracks h hu he).2
  have htrail := placeTrailing_packed hpos hlast htr
  have hend := mainSize_le (r := r) hmain (placeTrailing_lt hlast)
  have hmid : Packed (leading r).2 [range l.main]
      (placeTrailing r.bytesPerTrack (trailing r) (lastOffset r)).2 := by
    rw [hdef] at hsize ⊢
    exact ⟨le_refl _,hsize,hend⟩
  have hall : Packed (exactFirst r) (l.all.map range) (lastOffset r) := by
    rw [← hstart] at hlead
    have hpacked := hlead.append (hmid.append htrail)
    rw [hdef] at hpacked ⊢
    simpa only [Layout.all,List.map_append,List.map_cons,List.singleton_append] using hpacked
  have hmem : ∀ p ∈ l.all, 0 < p.size ∧ p.offset + p.size ≤ lastOffset r := fun p hp =>
    (hall.mem (List.mem_map_of_mem hp)).2
  constructor
  case disjoint => exact List.pairwise_map.mp hall.pairwise
  case positive => exact fun p hp => (hmem p hp).1
  case inside =>
    intro p hp
    have hle := (hmem p hp).2
    rw [lastOffset_eq h hres] at hle
    omega
  case clusters =>
    rw [hdef]
    exact cluster_dvd_mainSize _ _

/-- With the first partition at 1 MB and backup sectors within 1 MB, the slack pays
for every rounding. -/
theorem room_of_modern (h : Admissible r) (hfirst : r.style = .gpt ∨ r.oldBiosFixes = false)
    (hbackup : 33 * r.sectorSize ≤ 1 * MB) : Room r := by
  have hT := h.bytesPerTrack_pos
  have hs := h.slack
  have hMB : exactFirst r = 1 * MB := by
    rcases hfirst with hg | ho
    · simp [exactFirst,hg]
    · simp [exactFirst,ho]
  have hres : reserve r ≤ 1 * MB := by
    unfold reserve
    split <;> omega
  have hnext := exactNext_lt h (exactFirst r + espSize)
  have hnext' := exactNext_lt h (exactAfterEsp r + msrSize)
  have hend : r.diskSize - reserve r < exactEnd r + r.bytesPerTrack := by
    unfold exactEnd
    split
    · omega
    · exact lt_floorAlign_add _ hT
  have hpers := ceilAlign_lt r.persistenceSize hT
  have hesp := ceilAlign_lt espSize hT
  have huefi := ceilAlign_lt r.uefiNtfsSize hT
  refine ⟨by omega,?_⟩
  cases he : r.extra.esp with
  | true =>
    have hm : r.extra.msr = true := h.windows.trans he
    have hx := h.single he
    have hstart : exactStart r = exactNext r (exactAfterEsp r + msrSize) := if_pos hm
    cases hf : r.espFirst with
    | true =>
      have hafter : exactAfterEsp r = exactNext r (exactFirst r + espSize) := by
        simp [exactAfterEsp,hf,he]
      cases hp : r.extra.persistence <;> cases hc : r.extra.compat <;>
        simp [fixedSizes,exactTrailing,he,hm,hx,hf,hp,hc] at hs ⊢ <;> omega
    | false =>
      have hafter : exactAfterEsp r = exactFirst r := by simp [exactAfterEsp,hf]
      cases hp : r.extra.persistence <;>
        simp [fixedSizes,exactTrailing,he,hm,hx,hf,hp] at hs ⊢ <;> omega
  | false =>
    have hm : r.extra.msr = false := h.windows.trans he
    have hstart : exactStart r = exactFirst r := by simp [exactStart,exactAfterEsp,hm,he]
    cases hp : r.extra.persistence <;> cases hx : r.extra.uefiNtfs <;>
      cases hc : r.extra.compat <;>
      simp [fixedSizes,exactTrailing,he,hm,hp,hx,hc] at hs ⊢ <;> omega

def plainExtra : Extra := ⟨false,false,false,false,false⟩

/-- A 40 MB disk in MBR style with the fixes for old BIOSes. -/
def oldBiosDisk : Request where
  diskSize := 40 * MB
  sectorSize := 512
  sectorsPerTrack := 63
  style := .mbr
  oldBiosFixes := true
  espFirst := true
  extra := { plainExtra with compat := true }
  clusterSize := 32 * MB
  uefiNtfsSize := 0
  persistenceSize := 0

/-- An 8 GB disk for Windows To Go. -/
def windowsToGoDisk : Request where
  diskSize := 8192 * MB
  sectorSize := 512
  sectorsPerTrack := 63
  style := .gpt
  oldBiosFixes := false
  espFirst := true
  extra := { plainExtra with esp := true, msr := true }
  clusterSize := 4096
  uefiNtfsSize := 0
  persistenceSize := 0

theorem oldBiosDisk_admissible : Admissible oldBiosDisk := by
  constructor
  case cluster => exact ⟨25,by decide,by decide,by decide⟩
  all_goals decide

theorem windowsToGoDisk_admissible : Admissible windowsToGoDisk := by
  constructor
  case cluster => exact ⟨12,by decide,by decide,by decide⟩
  all_goals decide

end SecureWipeOut.CreatePartition
