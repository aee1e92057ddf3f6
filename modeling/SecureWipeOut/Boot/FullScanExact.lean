import SecureWipeOut.Boot.FullScan

/-! # What a full scan covers

The sectors read are the multiples of the distance below the size of the device, of
which there are at least as many as the percentage asks for. A sector is reported
exactly if a name shows in it, so that the report is complete only where every name does.
-/
namespace SecureWipeOut.FullScan
open Hexdump SectorTests

section Coverage
variable {step total k : ℕ}

/-- How many multiples of the step lie below the size. -/
def readCount (step total : ℕ) : ℕ := (total + step - 1) / step

/-- The sectors read at a distance. -/
def readSectors (step total : ℕ) : List ℕ := (List.range (readCount step total)).map fun k => k * step

theorem lt_readCount_iff (hstep : 0 < step) : k < readCount step total ↔ k * step < total := by
  rw [readCount,← Nat.succ_le_iff,Nat.le_div_iff_mul_le hstep,Nat.succ_mul]
  omega

theorem mem_readSectors (hstep : 0 < step) {s : ℕ} :
    s ∈ readSectors step total ↔ ∃ k, k * step = s ∧ s < total := by
  rw [readSectors,List.mem_map]
  constructor
  · rintro ⟨k,hk,rfl⟩
    exact ⟨k,rfl,(lt_readCount_iff hstep).mp (List.mem_range.mp hk)⟩
  · rintro ⟨k,rfl,hk⟩
    exact ⟨k,List.mem_range.mpr ((lt_readCount_iff hstep).mpr hk),rfl⟩

theorem readSectors_ascending (hstep : 0 < step) : (readSectors step total).Pairwise (· < ·) := by
  rw [readSectors,List.pairwise_map]
  exact List.pairwise_lt_range.imp fun h => Nat.mul_lt_mul_of_pos_right h hstep

/-- The loop stops at the size of the device, which `seq` may reach. -/
theorem takeWhile_seqFrom0 (hstep : 0 < step) :
    (seqFrom0 step total).takeWhile (fun s => decide (s < total)) = readSectors step total := by
  have hall : ∀ s ∈ readSectors step total, decide (s < total) = true := by
    intro s hs
    obtain ⟨k,-,h⟩ := (mem_readSectors hstep).mp hs
    exact decide_eq_true h
  have hcount : total / step + 1 = readCount step total ∨ total / step = readCount step total := by
    have hle : readCount step total ≤ total / step + 1 := by
      by_contra hgt
      have hlt := (lt_readCount_iff (k := total / step + 1) hstep).mp (show _ < readCount step total by omega)
      have := Nat.lt_div_mul_add (a := total) hstep
      rw [Nat.succ_mul] at hlt
      omega
    have hge : total / step ≤ readCount step total := Nat.div_le_div_right (by omega)
    omega
  rw [seqFrom0,if_neg hstep.ne']
  rcases hcount with h | h
  · rw [h]
    exact List.takeWhile_eq_self_iff.mpr hall
  · rw [h,List.range_succ,List.map_append,← readSectors,List.takeWhile_append_of_pos hall]
    have hstop : ¬readCount step total * step < total := fun hlt =>
      lt_irrefl _ ((lt_readCount_iff hstep).mpr hlt)
    rw [List.map_singleton,List.takeWhile_cons_of_neg (by simpa using hstop),List.append_nil]

/-- A distance of the size divided by a number leaves at least that many sectors. -/
theorem le_readCount {n : ℕ} (hn : 0 < n) (hle : n ≤ total) : n ≤ readCount (total / n) total := by
  have hstep : 0 < total / n := Nat.div_pos hle hn
  obtain ⟨m,rfl⟩ := Nat.exists_eq_add_one.mpr hn
  have hmul : (m + 1) * (total / (m + 1)) ≤ total := Nat.mul_div_le _ _
  rw [Nat.succ_mul] at hmul
  exact (lt_readCount_iff hstep).mpr (by omega)

end Coverage

section Loop
variable {total n : ℕ}

/-- The loop reads the sectors in front of the end, and records those that are suspicious. -/
theorem scanLoop_eq (data : ℕ → Readback) (total : ℕ) (hn : n / 20 ≠ 0) (l : List ℕ) (s : Scan) : scanLoop data total n l s = some
    ⟨s.scannedSectors + (l.takeWhile fun i => decide (i < total)).length,
      s.suspiciousSectors ++ (l.takeWhile fun i => decide (i < total)).filter fun i => suspicious (data i),
      s.read ++ l.takeWhile fun i => decide (i < total)⟩ := by
  induction l generalizing s with
  | nil => simp [scanLoop]
  | cons i l ih =>
    rw [scanLoop]
    by_cases hi : total ≤ i
    · rw [if_pos hi,List.takeWhile_cons_of_neg (by simpa using hi)]
      simp
    · have hlt : i < total := not_le.mp hi
      rw [if_neg hi,List.takeWhile_cons_of_pos (by simpa using hlt)]
      dsimp only
      rw [if_neg hn,ih]
      cases hs : suspicious (data i) <;> simp [hs] <;> omega

/-- The number of sectors that the percentage asks for. -/
def sectorsToScan (total percentage : ℕ) : ℕ := total * percentage / 100

theorem sectorsToScan_le (total : ℕ) {p : ℕ} (hp : p ≤ 100) : sectorsToScan total p ≤ total := by
  have hmul : total * p ≤ total * 100 := Nat.mul_le_mul_left total hp
  unfold sectorsToScan
  omega

/-- The whole scan: the sectors read, and those of them that are suspicious. -/
theorem executeFullScanVerification_eq (data : ℕ → Readback) {p : ℕ} (hp : p ≤ 100) (hscan : 20 ≤ sectorsToScan total p) :
    ∃ status, executeFullScanVerification data total p = some
      (⟨readCount (total / sectorsToScan total p) total,
        (readSectors (total / sectorsToScan total p) total).filter fun i => suspicious (data i),
        readSectors (total / sectorsToScan total p) total⟩,status) := by
  have hle := sectorsToScan_le total hp
  have hstep : 0 < total / sectorsToScan total p := Nat.div_pos hle (by omega)
  have hloop := scanLoop_eq data total (n := sectorsToScan total p) (by omega)
    (seqFrom0 (total / sectorsToScan total p) total) ⟨0,[],[]⟩
  have hlength : (readSectors (total / sectorsToScan total p) total).length =
      readCount (total / sectorsToScan total p) total := by simp [readSectors]
  rw [takeWhile_seqFrom0 hstep,hlength,List.nil_append,List.nil_append,Nat.zero_add] at hloop
  have hcount := le_readCount (n := sectorsToScan total p) (by omega) hle
  have hsome : total * p / 100 ≠ 0 := Nat.ne_of_gt ((Nat.zero_lt_of_lt hscan))
  rw [sectorsToScan] at hloop hcount ⊢
  rw [executeFullScanVerification]
  dsimp only
  rw [if_neg hsome,hloop]
  dsimp only
  split
  · exact ⟨0,rfl⟩
  · rw [if_neg (by omega)]
    exact ⟨_,rfl⟩

end Loop

section Exact

instance (d : Readback) : Decidable (Remnant d) :=
  match d with
  | none => isFalse (by rintro ⟨s,hs,-⟩; cases hs)
  | some s => decidable_of_iff (HasSignature (List.ofFn s))
    ⟨fun h => ⟨s,rfl,h⟩,fun ⟨t,ht,h⟩ => by obtain rfl := Option.some.inj ht; exact h⟩

/-- The scan ends, reads enough sectors of the device one after the other, and reports those
that hold the name of a file system. -/
def ScanExact (data : ℕ → Readback) (total percentage : ℕ) : Prop :=
  ∃ s status, executeFullScanVerification data total percentage = some (s,status) ∧
    total * percentage / 100 ≤ s.read.length ∧ s.read.Pairwise (· < ·) ∧ (∀ i ∈ s.read, i < total) ∧
    s.suspiciousSectors = s.read.filter fun i => decide (Remnant (data i))

/-- Two filters of a list agree exactly if the conditions agree on its elements. -/
theorem filter_eq_filter_iff {α : Type*} {p q : α → Bool} {l : List α} :
    l.filter p = l.filter q ↔ ∀ a ∈ l, p a = q a := by
  constructor
  · intro h a ha
    have hmem : a ∈ l.filter p ↔ a ∈ l.filter q := by rw [h]
    rw [List.mem_filter,List.mem_filter] at hmem
    exact Bool.eq_iff_iff.mpr ⟨fun hp => (hmem.mp ⟨ha,hp⟩).2,fun hq => (hmem.mpr ⟨ha,hq⟩).2⟩
  · exact List.filter_congr

variable {data : ℕ → Readback} {total p : ℕ}

/-- A sector of the scan is reported exactly if it shows a name, so that an exact report leaves
no name that does not show. -/
theorem report_exact_iff (hstep : 0 < total / sectorsToScan total p) :
    ((readSectors (total / sectorsToScan total p) total).filter fun i => suspicious (data i)) =
        (readSectors (total / sectorsToScan total p) total).filter (fun i => decide (Remnant (data i))) ↔
      ∀ k, k * (total / sectorsToScan total p) < total →
        Remnant (data (k * (total / sectorsToScan total p))) →
          Shows (data (k * (total / sectorsToScan total p))) := by
  rw [filter_eq_filter_iff]
  constructor
  · intro h k hk hr
    have hmem := (mem_readSectors hstep).mpr ⟨k,rfl,hk⟩
    rw [← suspicious_iff,h _ hmem]
    exact decide_eq_true hr
  · intro h i hi
    obtain ⟨k,rfl,hk⟩ := (mem_readSectors hstep).mp hi
    rw [Bool.eq_iff_iff,suspicious_iff,decide_eq_true_iff]
    exact ⟨remnant_of_shows,h k hk⟩

theorem reported_of_scanExact (hp : p ≤ 100) (hscan : 20 ≤ sectorsToScan total p)
    (h : ScanExact data total p) :
    ((readSectors (total / sectorsToScan total p) total).filter fun i => suspicious (data i)) =
      (readSectors (total / sectorsToScan total p) total).filter fun i => decide (Remnant (data i)) := by
  obtain ⟨status,heq⟩ := executeFullScanVerification_eq data hp hscan
  obtain ⟨s,status',hs,-,-,-,hfilter⟩ := h
  rw [heq] at hs
  obtain ⟨rfl,-⟩ := Prod.mk.inj (Option.some.inj hs)
  exact hfilter

/-- The scan is exact if and only if every name in a sector that is read shows in the rows
that the first five lines of its listing show. -/
theorem executeFullScanVerification_iff (data : ℕ → Readback) (total p : ℕ) (hp : p ≤ 100)
    (hscan : 20 ≤ sectorsToScan total p) : ScanExact data total p ↔
      ∀ k, k * (total / sectorsToScan total p) < total →
        Remnant (data (k * (total / sectorsToScan total p))) →
          Shows (data (k * (total / sectorsToScan total p))) := by
  have hle := sectorsToScan_le total hp
  have hstep : 0 < total / sectorsToScan total p := Nat.div_pos hle (by omega)
  rw [← report_exact_iff hstep]
  constructor
  · exact reported_of_scanExact hp hscan
  · intro hfilter
    obtain ⟨status,heq⟩ := executeFullScanVerification_eq data hp hscan
    refine ⟨_,_,heq,?_,readSectors_ascending hstep,?_,hfilter⟩
    · have hlength : (readSectors (total / sectorsToScan total p) total).length =
          readCount (total / sectorsToScan total p) total := by simp [readSectors]
      dsimp only
      rw [hlength]
      exact le_readCount (n := sectorsToScan total p) (by omega) hle
    · intro i hi
      obtain ⟨k,-,hk⟩ := (mem_readSectors hstep).mp hi
      exact hk

theorem executeFullScanVerification_iff_unreadable : ScanExact (fun _ => none) 1000 10 := by
  refine (executeFullScanVerification_iff (fun _ => none) 1000 10 (by decide) (by decide)).mpr ?_
  rintro k - ⟨s,hs,-⟩
  cases hs

/-- A boot sector with the name of its file system where FAT32 has it. -/
def fat32Sector : Sector := fun i =>
  if i.val = 82 then 0x46 else if i.val = 83 then 0x41 else if i.val = 84 then 0x54
  else UInt8.ofNat (i.val / 16)

/-- The name stands in the sixth row, and the sector is not reported. -/
theorem executeFullScanVerification_fat32 : ¬ScanExact (fun _ => some fat32Sector) 20 100 := by
  have hremnant : Remnant (some fat32Sector) := by
    refine ⟨fat32Sector,rfl,"FAT".toList,by decide,?_⟩
    have hrow : asBytes "FAT".toList <:+: List.ofFn (row fat32Sector 5) := by decide
    exact hrow.trans (row_within fat32Sector 5)
  have hshows : ¬Shows (some fat32Sector) := by
    rintro ⟨s,hs,r,hr,h⟩
    obtain rfl := Option.some.inj hs
    have hnone : ((shownRows none false 5 (rows fat32Sector)).all fun r =>
        decide (¬HasSignature (List.ofFn r))) = true := by decide
    exact of_decide_eq_true (List.all_eq_true.mp hnone r hr) h
  intro h
  have hreport := reported_of_scanExact (by decide) (by decide) h
  exact hshows ((report_exact_iff (by decide)).mp hreport 0 (by decide) hremnant)

end Exact

end SecureWipeOut.FullScan
