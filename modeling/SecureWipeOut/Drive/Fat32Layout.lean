import SecureWipeOut.Drive.FormatFat32

/-! # What an accepted FAT32 layout satisfies

The 32-bit values of an accepted layout are exact, the tables are large enough for the
clusters counted after the alignment, and the zeroing reaches the whole system area.
-/
namespace SecureWipeOut.FormatFat32
open CInt

/-- The sector sizes of the volumes considered. -/
def SectorSize (bytesPerSect : ℕ) : Prop :=
  bytesPerSect = 512 ∨ bytesPerSect = 1024 ∨ bytesPerSect = 2048 ∨ bytesPerSect = 4096

/-- The cluster sizes offered: the default, or a power of two of at least one
sector and at most 64 KB. -/
def ClusterChoice (bytesPerSect clusterSize : ℕ) : Prop :=
  clusterSize = 0 ∨ ((∃ k, clusterSize = 2 ^ k) ∧ bytesPerSect ≤ clusterSize ∧ clusterSize ≤ 64 * KB)

theorem defaultClusterSize_ge {len bps : ℕ} (hb : SectorSize bps) (hT : 65536 ≤ len / bps) :
    bps ≤ defaultClusterSize len := by
  have hlen : 65536 * bps ≤ len := by
    rcases hb with rfl | rfl | rfl | rfl <;> omega
  unfold SectorSize at hb
  unfold defaultClusterSize MB GB TB KB
  split_ifs <;> omega

theorem defaultClusterSize_pow (len : ℕ) :
    (∃ k, defaultClusterSize len = 2 ^ k) ∧ defaultClusterSize len ≤ 64 * KB := by
  unfold defaultClusterSize KB
  split_ifs
  · exact ⟨⟨9,rfl⟩,by norm_num⟩
  · exact ⟨⟨10,rfl⟩,by norm_num⟩
  · exact ⟨⟨11,rfl⟩,by norm_num⟩
  · exact ⟨⟨12,rfl⟩,by norm_num⟩
  · exact ⟨⟨13,rfl⟩,by norm_num⟩
  · exact ⟨⟨14,rfl⟩,by norm_num⟩
  · exact ⟨⟨15,rfl⟩,by norm_num⟩
  · exact ⟨⟨16,rfl⟩,by norm_num⟩

/-- Once the small volumes are rejected, the default is a valid choice as well. -/
theorem effectiveClusterSize_spec {len bps cs : ℕ} (hb : SectorSize bps)
    (hc : ClusterChoice bps cs) (hT : 65536 ≤ len / bps) :
    (∃ k, effectiveClusterSize len cs = 2 ^ k) ∧ bps ≤ effectiveClusterSize len cs ∧
      effectiveClusterSize len cs ≤ 64 * KB := by
  unfold effectiveClusterSize
  split
  · obtain ⟨hk,hle⟩ := defaultClusterSize_pow len
    exact ⟨hk,defaultClusterSize_ge hb hT,hle⟩
  · rename_i hne
    exact hc.resolve_left hne

/-- Every 32-bit value of the computation is the exact one. -/
structure Exact (len : ℕ) (l : Layout) : Prop where
  total : l.totalSectors = len / l.bytesPerSect
  secPerClus : l.bSecPerClus = l.sectorsPerCluster
  fat : l.fatSize = (l.totalSectors + 2 * l.sectorsPerCluster) /
    (l.sectorsPerCluster * l.bytesPerSect / 4 + numFATs) + 1
  rounding : 32 + numFATs * l.fatSize + l.alignSectors - 1 < 2 ^ 32
  aligned : l.reservedSectCount + numFATs * l.fatSize =
    ceilAlign (32 + numFATs * l.fatSize) l.alignSectors
  reserved : l.wRsvdSecCnt = l.reservedSectCount
  user : l.reservedSectCount + numFATs * l.fatSize + l.userAreaSize = l.totalSectors
  system : l.systemAreaSize =
    l.reservedSectCount + numFATs * l.fatSize + l.sectorsPerCluster
  zeroing : l.systemAreaSize + burstSize - 1 < 2 ^ 32

theorem fatSize_bound {T spc bps : ℕ} (hb : SectorSize bps) (hs : 1 ≤ spc) (hs' : spc ≤ 128) :
    130 * ((T + 2 * spc) / (spc * bps / 4 + 2)) ≤ T + 256 := by
  have hD : 130 ≤ spc * bps / 4 + 2 := by
    rcases hb with rfl | rfl | rfl | rfl <;> omega
  have h1 : 130 * ((T + 2 * spc) / (spc * bps / 4 + 2)) ≤
      (spc * bps / 4 + 2) * ((T + 2 * spc) / (spc * bps / 4 + 2)) := Nat.mul_le_mul_right _ hD
  have h2 := Nat.mul_div_le (T + 2 * spc) (spc * bps / 4 + 2)
  omega

theorem alignSectors_bounds {bps : ℕ} (hb : SectorSize bps) : 256 ≤ MB / bps ∧ MB / bps ≤ 2048 := by
  unfold MB
  rcases hb with rfl | rfl | rfl | rfl <;> omega

theorem getFATSizeSectors_eq {T spc bps : ℕ} (hT : T < 2 ^ 32) (hb : SectorSize bps) (hs : 1 ≤ spc)
    (hs' : spc ≤ 128) : getFATSizeSectors T 0 spc numFATs bps =
      (T + 2 * spc) / (spc * bps / 4 + 2) + 1 := by
  have hbound := fatSize_bound (T := T) hb hs hs'
  unfold getFATSizeSectors numFATs
  dsimp only
  rw [dsub_of_le (Nat.zero_le _) hT,Nat.sub_zero]
  exact dword_of_lt (by omega)

theorem layout_exact {len bps cs : ℕ} (hb : SectorSize bps) (hT : 65536 ≤ len / bps)
    (hT' : len / bps < 0xffffffff) (hs : 1 ≤ cs / bps) (hs' : cs / bps ≤ 128) :
    Exact len (layout len bps cs) := by
  have hF := fatSize_bound (T := len / bps) hb hs hs'
  have hA := alignSectors_bounds hb
  have htot : dword (len / bps) = len / bps := dword_of_lt (by omega)
  have hal : dword (1 * MB / bps) = MB / bps := by
    rw [one_mul]
    exact dword_of_lt (by omega)
  have hspc : cs / bps % 2 ^ 8 = cs / bps := Nat.mod_eq_of_lt (by omega)
  have hfat := getFATSizeSectors_eq (T := len / bps) (by omega) hb hs hs'
  set F := (len / bps + 2 * (cs / bps)) / (cs / bps * bps / 4 + 2) + 1 with hFdef
  have hFb : 130 * F ≤ len / bps + 386 := by omega
  have hge := le_ceilAlign (32 + 2 * F) (y := MB / bps) (by omega)
  have hlt := ceilAlign_lt (32 + 2 * F) (y := MB / bps) (by omega)
  have h2F : dword (numFATs * F) = 2 * F := dword_of_lt (by unfold numFATs; omega)
  have hun : dword (32 + 2 * F) = 32 + 2 * F := dword_of_lt (by omega)
  have hround : dword (32 + 2 * F + MB / bps - 1) = 32 + 2 * F + MB / bps - 1 :=
    dword_of_lt (by omega)
  have hceil : dword ((32 + 2 * F + MB / bps - 1) / (MB / bps) * (MB / bps)) =
      ceilAlign (32 + 2 * F) (MB / bps) := dword_of_lt (by unfold ceilAlign at hlt; omega)
  have hres : dsub (ceilAlign (32 + 2 * F) (MB / bps)) (2 * F) =
      ceilAlign (32 + 2 * F) (MB / bps) - 2 * F := dsub_of_le (by omega) (by omega)
  set C := ceilAlign (32 + 2 * F) (MB / bps) with hC
  have huser : dsub (dsub (len / bps) (C - 2 * F)) (2 * F) = len / bps - C := by
    have hin : dsub (len / bps) (C - 2 * F) = len / bps - (C - 2 * F) :=
      dsub_of_le (by omega) (by omega)
    rw [hin,dsub_of_le (by omega) (by omega)]
    omega
  have hsys : dword (C - 2 * F + 2 * F) = C := by
    rw [Nat.sub_add_cancel (by omega)]
    exact dword_of_lt (by omega)
  have hsys' : dword (C + cs / bps) = C + cs / bps := dword_of_lt (by omega)
  have hl : layout len bps cs =
      { bytesPerSect := bps
        totalSectors := len / bps
        sectorsPerCluster := cs / bps
        bSecPerClus := cs / bps
        fatSize := F
        alignSectors := MB / bps
        reservedSectCount := C - 2 * F
        wRsvdSecCnt := (C - 2 * F) % 2 ^ 16
        userAreaSize := len / bps - C
        clusterCount := (len / bps - C) / (cs / bps)
        dFreeCount := dsub ((len / bps - C) / (cs / bps)) 1
        systemAreaSize := C + cs / bps
        bursts := zeroingBursts (C + cs / bps) 0 } := by
    simp only [layout,htot,hal,hspc,hfat,h2F,hun,hround,hceil,hres,huser,hsys,hsys']
  rw [hl]
  constructor <;> dsimp only [numFATs,burstSize]
  case reserved => exact Nat.mod_eq_of_lt (by omega)
  all_goals omega

/-- What an accepted call has passed. -/
theorem formatLargeFAT32_ok {len bps cs : ℕ} {l : Layout} (hb : SectorSize bps)
    (h : formatLargeFAT32 len bps cs = .ok l) :
    65536 ≤ len / bps ∧ len / bps < 0xffffffff ∧
      l = layout len bps (effectiveClusterSize len cs) ∧ 65536 ≤ l.clusterCount := by
  have hge : ¬ bps < 512 := by rcases hb with rfl | rfl | rfl | rfl <;> omega
  simp only [formatLargeFAT32,if_neg hge] at h
  split at h
  · cases h
  · split at h
    · cases h
    · split at h
      · cases h
      · split at h
        · cases h
        · split at h
          · cases h
          · cases h
            exact ⟨by omega,by omega,rfl,by omega⟩

/-- The bursts start at every multiple of the burst size below the loop bound. -/
theorem mem_zeroingBursts {s : ℕ} (hs : s + burstSize - 1 < 2 ^ 32) (i x : ℕ) :
    x ∈ zeroingBursts s i ↔ i ≤ x ∧ x < s + burstSize - 1 ∧ burstSize ∣ x - i := by
  have hbound := dword_of_lt hs
  fun_induction zeroingBursts s i with
  | case1 i hlt ih =>
    rw [hbound] at hlt
    have hrec : x ∈ zeroingBursts s (i + burstSize) ↔ i + burstSize ≤ x ∧
      x < s + burstSize - 1 ∧ burstSize ∣ x - (i + burstSize) := ih
    rw [List.mem_cons,hrec]
    unfold burstSize at *
    omega
  | case2 i hge =>
    rw [hbound] at hge
    simp only [List.not_mem_nil, false_iff]
    omega

/-- The invariants of a well-formed FAT32 layout, and what the zeroing reaches. -/
structure Sound (l : Layout) : Prop where
  spc_pos : 0 < l.sectorsPerCluster
  spc_byte : l.sectorsPerCluster < 2 ^ 8
  reserved_ge : 32 ≤ l.reservedSectCount
  reserved_word : l.reservedSectCount < 2 ^ 16
  aligned : l.alignSectors ∣ l.reservedSectCount + numFATs * l.fatSize
  fat : l.clusterCount + 2 ≤ l.fatSize * l.bytesPerSect / 4
  fits : l.reservedSectCount + numFATs * l.fatSize + l.clusterCount * l.sectorsPerCluster ≤
    l.totalSectors
  free : l.dFreeCount + 1 = l.clusterCount
  covers : ∀ x < l.systemAreaSize, ∃ i ∈ l.bursts, i ≤ x ∧ x < i + burstSize
  inside : ∀ i ∈ l.bursts, i + burstSize ≤ l.totalSectors

/-- No burst is written that holds no sector of the system area. -/
def Tight (l : Layout) : Prop := ∀ i ∈ l.bursts, i < l.systemAreaSize

theorem fat_large_enough {T R F C spc bps : ℕ} (hb : SectorSize bps)
    (hF : F = (T + 2 * spc) / (spc * bps / 4 + 2) + 1) (hfit : R + 2 * F + C * spc ≤ T) :
    C + 2 ≤ F * bps / 4 := by
  obtain ⟨q,rfl⟩ : ∃ q, bps = 4 * q := by
    rcases hb with rfl | rfl | rfl | rfl
    exacts [⟨128,rfl⟩,⟨256,rfl⟩,⟨512,rfl⟩,⟨1024,rfl⟩]
  have hD : spc * (4 * q) / 4 = spc * q := by
    rw [show spc * (4 * q) = 4 * (spc * q) by ring]
    exact Nat.mul_div_cancel_left _ (by norm_num)
  have hQ : F * (4 * q) / 4 = F * q := by
    rw [show F * (4 * q) = 4 * (F * q) by ring]
    exact Nat.mul_div_cancel_left _ (by norm_num)
  rw [hD] at hF
  rw [hQ]
  have hN : T + 2 * spc < F * (spc * q + 2) := by
    rw [hF]
    exact Nat.lt_mul_of_div_lt (Nat.lt_succ_self _) (Nat.succ_pos _)
  have hspan : (C + 2) * spc < F * q * spc := by nlinarith
  exact (Nat.lt_of_mul_lt_mul_right hspan).le

theorem sound_of_exact {len : ℕ} {l : Layout} (he : Exact len l)
    (hT : l.totalSectors < 2 ^ 32) (hb : SectorSize l.bytesPerSect) (hal : l.alignSectors = MB / l.bytesPerSect)
    (hs : 1 ≤ l.sectorsPerCluster) (hs' : l.sectorsPerCluster ≤ 128)
    (hcc : l.clusterCount = l.userAreaSize / l.sectorsPerCluster)
    (hfree : l.dFreeCount = dsub l.clusterCount 1) (hmin : 65536 ≤ l.clusterCount)
    (hbursts : l.bursts = zeroingBursts l.systemAreaSize 0) : Sound l := by
  have hA := alignSectors_bounds hb
  rw [← hal] at hA
  have hge := le_ceilAlign (32 + numFATs * l.fatSize) (y := l.alignSectors) (by omega)
  have hlt := ceilAlign_lt (32 + numFATs * l.fatSize) (y := l.alignSectors) (by omega)
  have hdvd := dvd_ceilAlign (32 + numFATs * l.fatSize) l.alignSectors
  rw [← he.aligned] at hge hlt hdvd
  have hmul : l.clusterCount * l.sectorsPerCluster ≤ l.userAreaSize := by
    rw [hcc]
    exact Nat.div_mul_le_self _ _
  have huser := he.user
  have hsys := he.system
  have hroom : 65536 * l.sectorsPerCluster ≤ l.clusterCount * l.sectorsPerCluster :=
    Nat.mul_le_mul_right _ hmin
  have hzero := he.zeroing
  have hfits : l.reservedSectCount + numFATs * l.fatSize +
      l.clusterCount * l.sectorsPerCluster ≤ l.totalSectors := by omega
  constructor
  case spc_pos => omega
  case spc_byte => omega
  case reserved_ge => omega
  case reserved_word => omega
  case aligned => exact hdvd
  case fat => exact fat_large_enough hb he.fat hfits
  case fits => exact hfits
  case free =>
    have hle : l.clusterCount ≤ l.userAreaSize := by
      rw [hcc]
      exact Nat.div_le_self _ _
    rw [hfree,dsub_of_le (by omega) (by omega)]
    omega
  case covers =>
    intro x hx
    refine ⟨x / burstSize * burstSize,?_,Nat.div_mul_le_self _ _,Nat.lt_div_mul_add (by decide)⟩
    rw [hbursts,mem_zeroingBursts hzero]
    have := Nat.div_mul_le_self x burstSize
    exact ⟨Nat.zero_le _,by unfold burstSize at *; omega,Dvd.intro_left _ rfl⟩
  case inside =>
    intro i hi
    rw [hbursts,mem_zeroingBursts hzero] at hi
    unfold burstSize at *
    omega

/-- The last burst overshoots the area unless the area ends one sector into it. -/
theorem tight_iff {l : Layout} (hz : l.systemAreaSize + burstSize - 1 < 2 ^ 32)
    (hpos : 0 < l.systemAreaSize) (hbursts : l.bursts = zeroingBursts l.systemAreaSize 0) :
    Tight l ↔ l.systemAreaSize % burstSize = 1 := by
  unfold Tight
  simp only [hbursts,mem_zeroingBursts hz]
  constructor
  · intro h
    by_contra hne
    have hlast := h ((l.systemAreaSize + burstSize - 2) / burstSize * burstSize)
      ⟨Nat.zero_le _,by unfold burstSize at *; omega,Dvd.intro_left _ rfl⟩
    unfold burstSize at *
    omega
  · rintro h i ⟨_,hi,hd⟩
    unfold burstSize at *
    omega

/-- Among powers of two, one sector per cluster means equal sizes. -/
theorem clusterSize_eq_iff {bps cs : ℕ} (hb : SectorSize bps) (hcs : ∃ k, cs = 2 ^ k)
    (hge : bps ≤ cs) : cs / bps = 1 ↔ cs = bps := by
  obtain ⟨j,rfl⟩ : ∃ j, bps = 2 ^ j := by
    rcases hb with rfl | rfl | rfl | rfl
    exacts [⟨9,rfl⟩,⟨10,rfl⟩,⟨11,rfl⟩,⟨12,rfl⟩]
  obtain ⟨k,rfl⟩ := hcs
  have hjk : j ≤ k := (Nat.pow_le_pow_iff_right (by norm_num)).mp hge
  rw [Nat.pow_div hjk (by norm_num),Nat.pow_eq_one,Nat.pow_right_inj (by norm_num)]
  omega

/-- Every accepted layout is exact and well formed, its zeroing covers the system
area and stays inside the volume; the zeroing writes no burst too many exactly
when the cluster in effect is a single sector. -/
theorem formatLargeFAT32_layout {len bps cs : ℕ} {l : Layout} (hb : SectorSize bps)
    (hc : ClusterChoice bps cs) (h : formatLargeFAT32 len bps cs = .ok l) :
    Exact len l ∧ Sound l ∧ (Tight l ↔ effectiveClusterSize len cs = bps) := by
  obtain ⟨hT,hT',rfl,hmin⟩ := formatLargeFAT32_ok hb h
  obtain ⟨hpow,hge,hle⟩ := effectiveClusterSize_spec hb hc hT
  set cs' := effectiveClusterSize len cs with hcs
  have hbpos : 0 < bps := by rcases hb with rfl | rfl | rfl | rfl <;> omega
  have hs : 1 ≤ cs' / bps := (Nat.one_le_div_iff hbpos).mpr hge
  have hs' : cs' / bps ≤ 128 := by
    unfold KB at hle
    rcases hb with rfl | rfl | rfl | rfl <;> omega
  have he : Exact len (layout len bps cs') := layout_exact hb hT hT' hs hs'
  have hal : (layout len bps cs').alignSectors = MB / bps := by
    simp only [layout,one_mul]
    refine dword_of_lt (lt_of_le_of_lt (Nat.div_le_self _ _) ?_)
    unfold MB
    norm_num
  have htot : (layout len bps cs').totalSectors < 2 ^ 32 := Nat.mod_lt _ (by norm_num)
  have hsound := sound_of_exact he htot hb hal hs hs' rfl rfl hmin rfl
  refine ⟨he,hsound,?_⟩
  have hspos := hsound.spc_pos
  have hsys := he.system
  have hdvd : burstSize ∣ (layout len bps cs').reservedSectCount +
      numFATs * (layout len bps cs').fatSize := by
    refine Dvd.dvd.trans ?_ hsound.aligned
    rw [hal]
    unfold burstSize MB
    rcases hb with rfl | rfl | rfl | rfl <;> norm_num
  have hspc : (layout len bps cs').sectorsPerCluster = cs' / bps := rfl
  rw [tight_iff he.zeroing (by omega) rfl,← clusterSize_eq_iff hb hpow hge,hsys,hspc]
  unfold burstSize at *
  omega

/-- A 1 GB volume with 4 KB clusters: the area ends at sector 6152, and a burst
starting at sector 6272 is written nevertheless. -/
theorem formatLargeFAT32_extra_burst :
    ∃ l, formatLargeFAT32 (1 * GB) 512 (4 * KB) = .ok l ∧ l.systemAreaSize = 6152 ∧
      6272 ∈ l.bursts := by
  refine ⟨layout (1 * GB) 512 (4 * KB),rfl,by decide +kernel,?_⟩
  have hsys : (layout (1 * GB) 512 (4 * KB)).systemAreaSize = 6152 := by decide +kernel
  have hb : (layout (1 * GB) 512 (4 * KB)).bursts =
    zeroingBursts (layout (1 * GB) 512 (4 * KB)).systemAreaSize 0 := rfl
  rw [hb,hsys,mem_zeroingBursts (by decide)]
  decide

theorem formatLargeFAT32_layout_one_gigabyte :
    ∃ l, formatLargeFAT32 (1 * GB) 512 0 = .ok l ∧ Exact (1 * GB) l ∧ Sound l ∧
      (Tight l ↔ effectiveClusterSize (1 * GB) 0 = 512) :=
  ⟨_,rfl,formatLargeFAT32_layout (Or.inl rfl) (Or.inl rfl) rfl⟩

end SecureWipeOut.FormatFat32
