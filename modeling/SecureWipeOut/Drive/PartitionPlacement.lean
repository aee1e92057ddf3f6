import SecureWipeOut.Drive.CreatePartition

/-! # Where the partitions are placed

Under the callers' guarantees nothing wraps before the main partition, so the leading
partitions stand where exact arithmetic puts them, and the trailing ones are whole
tracks taken off the end.
-/
namespace SecureWipeOut.CreatePartition
open CInt Ranges
variable {r : Request}

theorem ceil64_eq {x y : ℕ} (h : x + y ≤ 2 ^ 64) : ceil64 x y = ceilAlign x y := by
  unfold ceil64 ceilAlign
  rw [qword_of_lt (by omega)]

/-- Taking whole tracks off the end commutes with aligning to a track. -/
theorem floorAlign_sub {x m y : ℕ} (hm : y ∣ m) (h : m ≤ x) :
    floorAlign (x - m) y = floorAlign x y - m := by
  obtain ⟨k,rfl⟩ := hm
  unfold floorAlign
  rw [Nat.sub_mul_div,Nat.sub_mul,mul_comm k y]

section Trailing
variable {track : ℕ} {es : List (String × ℕ)} {last : ℕ}

def sizes (es : List (String × ℕ)) : ℕ := (es.map Prod.snd).sum

theorem dvd_sizes (hd : ∀ e ∈ es, track ∣ e.2) : track ∣ sizes es := by
  apply List.dvd_sum
  intro x hx
  obtain ⟨e,he,rfl⟩ := List.mem_map.mp hx
  exact hd e he

theorem placeTrailing_lt (hlast : last < 2 ^ 64) : (placeTrailing track es last).2 < 2 ^ 64 := by
  cases es with
  | nil => exact hlast
  | cons e rest => exact lt_of_le_of_lt (floorAlign_le _ _) (Nat.mod_lt _ (by norm_num))

/-- Where the placement ends, and that it never underflows exactly when the sizes
fit below the start. -/
theorem placeTrailing_spec (hd : ∀ e ∈ es, track ∣ e.2) (hlast : last < 2 ^ 64) :
    (NoUnderflowTrailing track es last ↔ sizes es ≤ last) ∧
      (sizes es ≤ last → (placeTrailing track es last).2 =
        if es = [] then last else floorAlign last track - sizes es) := by
  induction es with
  | nil => exact ⟨⟨fun _ => Nat.zero_le _,fun _ => trivial⟩,fun _ => rfl⟩
  | cons e rest ih =>
    have hrest : ∀ x ∈ rest, track ∣ x.2 := fun x hx => hd x (List.mem_cons_of_mem _ hx)
    have he : track ∣ e.2 := hd e List.mem_cons_self
    obtain ⟨hiff,heq⟩ := ih hrest
    have hsum : sizes (e :: rest) = e.2 + sizes rest := by simp [sizes]
    have hdvd := dvd_sizes hrest
    have hfloor := floorAlign_le last track
    have hkey : sizes rest ≤ last →
        (e.2 ≤ (placeTrailing track rest last).2 ↔ sizes (e :: rest) ≤ last) := by
      intro hle
      have hroof : sizes rest ≤ floorAlign last track := le_floorAlign_of_dvd hdvd hle
      rw [heq hle,hsum]
      by_cases hnil : rest = []
      · subst hnil
        simp [sizes]
      · rw [if_neg hnil]
        constructor
        · intro h
          omega
        · intro h
          have := le_floorAlign_of_dvd (Nat.dvd_add he hdvd) h
          omega
    refine ⟨⟨?_,?_⟩,?_⟩
    · rintro ⟨hr,hfit⟩
      exact (hkey (hiff.mp hr)).mp hfit
    · intro h
      have hle : sizes rest ≤ last := by omega
      exact ⟨hiff.mpr hle,(hkey hle).mpr h⟩
    · intro h
      have hle : sizes rest ≤ last := by omega
      have hfit := (hkey hle).mpr h
      simp only [placeTrailing,reduceCtorEq,if_false]
      rw [qsub_of_le hfit (placeTrailing_lt hlast),floorAlign_sub he hfit,heq hle,hsum]
      by_cases hnil : rest = []
      · subst hnil
        simp [sizes]
      · rw [if_neg hnil,floorAlign_sub hdvd (le_floorAlign_of_dvd hdvd hle),
          floorAlign_eq_of_dvd (dvd_floorAlign last track)]
        omega

def range (p : Partition) : ℕ × ℕ := (p.offset,p.size)

/-- Placed without underflow, the trailing partitions pack the space up to the end. -/
theorem placeTrailing_packed (hpos : ∀ e ∈ es, 0 < e.2) (hlast : last < 2 ^ 64)
    (h : NoUnderflowTrailing track es last) :
    Packed (placeTrailing track es last).2 ((placeTrailing track es last).1.map range) last := by
  induction es with
  | nil => exact le_refl last
  | cons e rest ih =>
    obtain ⟨hr,hfit⟩ := h
    have hp := ih (fun x hx => hpos x (List.mem_cons_of_mem _ hx)) hr
    have hle := floorAlign_le (qsub (placeTrailing track rest last).2 e.2) track
    rw [qsub_of_le hfit (placeTrailing_lt hlast)] at hle
    refine ⟨le_refl _,hpos e List.mem_cons_self,?_⟩
    apply hp.weaken
    simp only [range]
    rw [qsub_of_le hfit (placeTrailing_lt hlast)]
    omega

end Trailing

section Exact

theorem Admissible.bytesPerTrack_pos (h : Admissible r) : 0 < r.bytesPerTrack :=
  Nat.mul_pos h.track h.sector

theorem Admissible.cluster_bounds (h : Admissible r) : 512 ≤ r.cluster ∧ r.cluster ≤ 32 * MB := by
  obtain ⟨k,hk,hk',hc⟩ := h.cluster
  rw [hc]
  have hlow := Nat.pow_le_pow_right (n := 2) (by norm_num) hk
  have hhigh := Nat.pow_le_pow_right (n := 2) (by norm_num) hk'
  exact ⟨hlow,hhigh⟩

/-- A cluster allowed beside an ESP or MSR divides every multiple of 1 MB. -/
theorem Admissible.cluster_dvd (h : Admissible r) (he : r.extra.esp) (n : ℕ) :
    r.cluster ∣ n * MB := by
  have hsmall := h.small (Or.inl he)
  obtain ⟨k,_,_,hc⟩ := h.cluster
  have hk : k ≤ 16 := by
    rw [hc] at hsmall
    exact (Nat.pow_le_pow_iff_right (by norm_num)).mp (hsmall.trans_eq (by norm_num : 65536 = 2 ^ 16))
  rw [hc]
  apply Dvd.dvd.mul_left
  exact (Nat.pow_dvd_pow 2 hk).trans ⟨16,by norm_num [MB]⟩

theorem exactNext_lt (h : Admissible r) (x : ℕ) : exactNext r x < x + r.bytesPerTrack := by
  have hlt := ceilAlign_lt x h.bytesPerTrack_pos
  unfold exactNext
  split
  · exact lt_of_le_of_lt (floorAlign_le _ _) hlt
  · exact hlt

/-- Aligned to clusters, or nothing where clusters are not whole sectors. -/
def Aligned (r : Request) (x : ℕ) : Prop := r.cluster % r.sectorSize = 0 → r.cluster ∣ x

theorem aligned_exactNext (x : ℕ) : Aligned r (exactNext r x) := by
  intro hc
  rw [exactNext,if_pos hc]
  exact dvd_floorAlign _ _

/-- The alignment down to a cluster does not undo the alignment up to a track. -/
theorem le_exactNext (h : Admissible r) {x : ℕ} (hx : Aligned r x) : x ≤ exactNext r x := by
  have hle := le_ceilAlign x h.bytesPerTrack_pos
  unfold exactNext
  split
  case isTrue hc => exact le_floorAlign_of_dvd (hx hc) hle
  case isFalse => exact hle

theorem nextOffset_eq {x : ℕ} (hx : x + r.bytesPerTrack ≤ 2 ^ 64) :
    nextOffset r (qword x) = exactNext r x := by
  rcases Nat.eq_zero_or_pos r.bytesPerTrack with hT | hT
  · simp [nextOffset,exactNext,hT,ceil64,ceilAlign]
  · rw [qword_of_lt (by omega)]
    simp only [nextOffset,exactNext,ceil64_eq hx]

theorem firstOffset_eq (h : Admissible r) : firstOffset r = exactFirst r := by
  have hc := h.cluster_bounds
  have hs := h.slack
  have hd := h.disk
  have hT := h.bytesPerTrack_pos
  have hlt := ceilAlign_lt r.bytesPerTrack (y := r.cluster) (by omega)
  unfold MB at *
  unfold firstOffset exactFirst
  split
  · rfl
  · rw [ceil64_eq (by omega),qword_of_lt (by omega),mul_comm]

theorem exactFirst_of_esp (h : Admissible r) (he : r.extra.esp) : exactFirst r = 1 * MB := by
  simp [exactFirst,h.gpt he]

theorem aligned_exactAfterEsp (h : Admissible r) (he : r.extra.esp) :
    Aligned r (exactAfterEsp r) := by
  unfold exactAfterEsp
  split
  · exact aligned_exactNext _
  · intro _
    rw [exactFirst_of_esp h he]
    exact h.cluster_dvd he 1

theorem espSize_pos : 0 < espSize := by decide
theorem msrSize_pos : 0 < msrSize := by decide

/-- Nothing of the leading part wraps: it occupies the space it would in exact
arithmetic, in order and without overlap. -/
theorem leading_spec (h : Admissible r) :
    (leading r).2 = exactStart r ∧
      Packed (exactFirst r) ((leading r).1.map range) (exactStart r) := by
  have hfirst := firstOffset_eq h
  by_cases he : r.extra.esp
  · have hm : r.extra.msr = true := h.windows.trans he
    have hMB := exactFirst_of_esp h he
    have hs := h.slack
    have hd := h.disk
    have hesp : Aligned r (exactFirst r + espSize) := by
      intro _
      rw [hMB,espSize,← Nat.add_mul]
      exact h.cluster_dvd he _
    have hmsr : Aligned r (exactAfterEsp r + msrSize) := fun hc =>
      Nat.dvd_add (aligned_exactAfterEsp h he hc) (h.cluster_dvd he _)
    have hle := le_exactNext h hmsr
    have hstart : exactStart r = exactNext r (exactAfterEsp r + msrSize) := if_pos hm
    have hlt := exactNext_lt h (exactFirst r + espSize)
    have hfits : exactAfterEsp r + msrSize + r.bytesPerTrack ≤ 2 ^ 64 := by
      unfold exactAfterEsp
      split <;> unfold espSize msrSize MB at * <;> omega
    have hfits' : exactFirst r + espSize + r.bytesPerTrack ≤ 2 ^ 64 := by
      unfold espSize MB at *
      omega
    by_cases hf : r.espFirst
    · have hafter : exactAfterEsp r = exactNext r (exactFirst r + espSize) := by
        simp [exactAfterEsp,hf,he]
      have hle' := le_exactNext h hesp
      simp only [leading,hf,he,hm,Bool.and_self,if_true,hfirst,nextOffset_eq hfits',← hafter,
        nextOffset_eq hfits,← hstart]
      rw [← hafter] at hle'
      rw [← hstart] at hle
      exact ⟨trivial,le_refl _,espSize_pos,hle',msrSize_pos,hle⟩
    · have hafter : exactAfterEsp r = exactFirst r := by simp [exactAfterEsp,hf]
      rw [hafter] at hle hfits hstart
      rw [← hstart] at hle
      simp only [leading,hf,hm,Bool.false_and,Bool.false_eq_true,if_true,if_false,hfirst,
        nextOffset_eq hfits,← hstart]
      exact ⟨trivial,le_refl _,msrSize_pos,hle⟩
  · have hm : r.extra.msr = false := by rw [h.windows]; simpa using he
    simp only [leading,exactStart,exactAfterEsp,he,hm,Bool.and_false,Bool.false_eq_true,if_false,
      hfirst]
    exact ⟨trivial,le_refl _⟩

/-- An admissible size in whole tracks. -/
theorem ceil64_tracks (h : Admissible r) {x : ℕ} (hx : x ≤ r.diskSize) :
    ceil64 x r.bytesPerTrack = ceilAlign x r.bytesPerTrack := by
  have hs := h.slack
  have hd := h.disk
  exact ceil64_eq (by omega)

theorem Admissible.persistence_le (h : Admissible r) (hp : r.extra.persistence) :
    r.persistenceSize ≤ r.diskSize := by
  have hs := h.slack
  simp only [fixedSizes,hp,if_true] at hs
  omega

theorem Admissible.esp_le (h : Admissible r) (he : r.extra.esp) : espSize ≤ r.diskSize := by
  have hs := h.slack
  simp only [fixedSizes,he,if_true] at hs
  omega

theorem Admissible.uefiNtfs_le (h : Admissible r) (hu : r.extra.uefiNtfs) :
    r.uefiNtfsSize ≤ r.diskSize := by
  have hs := h.slack
  simp only [fixedSizes,hu,if_true] at hs
  omega

theorem trailing_eq (h : Admissible r) : (trailing r).map Prod.snd = exactTrailing r := by
  unfold trailing exactTrailing
  rw [List.map_append]
  congr 1
  · split
    case isTrue hp => simp [ceil64_tracks h (h.persistence_le hp)]
    case isFalse => rfl
  · split
    case isTrue he =>
      rw [Bool.and_eq_true] at he
      simp [ceil64_tracks h (h.esp_le he.1)]
    case isFalse =>
      split
      case isTrue hu => simp [ceil64_tracks h (h.uefiNtfs_le hu)]
      case isFalse => split <;> rfl

/-- Every trailing partition is a positive number of tracks. -/
theorem exactTrailing_tracks (h : Admissible r) (hu : r.extra.uefiNtfs → 0 < r.uefiNtfsSize)
    {n : ℕ} (hn : n ∈ exactTrailing r) : r.bytesPerTrack ∣ n ∧ 0 < n := by
  have hT := h.bytesPerTrack_pos
  have hceil : ∀ x, 0 < x → r.bytesPerTrack ∣ ceilAlign x r.bytesPerTrack ∧
      0 < ceilAlign x r.bytesPerTrack := fun x hx =>
    ⟨dvd_ceilAlign x _,lt_of_lt_of_le hx (le_ceilAlign x hT)⟩
  rcases List.mem_append.mp hn with hn | hn
  · split at hn
    case isTrue hp =>
      rw [List.mem_singleton.mp hn]
      exact hceil _ (h.persistence hp)
    case isFalse => cases hn
  · split at hn
    case isTrue =>
      rw [List.mem_singleton.mp hn]
      exact hceil _ espSize_pos
    case isFalse =>
      split at hn
      case isTrue hx =>
        rw [List.mem_singleton.mp hn]
        exact hceil _ (hu hx)
      case isFalse =>
        split at hn
        case isTrue =>
          rw [List.mem_singleton.mp hn]
          exact ⟨dvd_refl _,hT⟩
        case isFalse => cases hn

theorem trailing_tracks (h : Admissible r) (hu : r.extra.uefiNtfs → 0 < r.uefiNtfsSize)
    {e : String × ℕ} (he : e ∈ trailing r) : r.bytesPerTrack ∣ e.2 ∧ 0 < e.2 := by
  apply exactTrailing_tracks h hu
  rw [← trailing_eq h]
  exact List.mem_map_of_mem he

theorem lastOffset_eq (h : Admissible r) (hfit : reserve r ≤ r.diskSize) :
    lastOffset r = r.diskSize - reserve r := by
  have hd := h.disk
  unfold lastOffset reserve at *
  split
  case isTrue hg =>
    rw [if_pos hg] at hfit
    exact qsub_of_le hfit (by omega)
  case isFalse => simp

theorem lastOffset_lt (h : Admissible r) : lastOffset r < 2 ^ 64 := by
  have hd := h.disk
  unfold lastOffset
  split
  · exact Nat.mod_lt _ (by norm_num)
  · omega

end Exact

end SecureWipeOut.CreatePartition
