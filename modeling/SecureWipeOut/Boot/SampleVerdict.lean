import SecureWipeOut.Boot.Sampling

/-! # The verdict on a pattern

The loop of `execute_pattern_verification` counts every sample once, and its verdict
compares a truncated percentage. A sector that cannot be read leaves an empty listing,
which the test for random data accepts.
-/
namespace SecureWipeOut.Sampling
open Text Hexdump SectorTests

section Samples
variable (expected : ExpectedPattern) (total : ℕ) (io : Probe)

/-- What the read of a sample returned, on a device with other than 2000 sectors. -/
def sampleRead (j : ℕ) : Readback :=
  io.read j (((io.random j).val : ℤ).tmod ((total : ℤ) - 2000) + 1000)

/-- The sector could not be read, or does not show the pattern. -/
def failedOrUnreadable (d : Readback) : Bool :=
  match d with
  | none => true
  | some s => !patternTest expected (some s)

/-- The failures that are counted: with random data an unreadable sector is not. -/
def countedFailure (d : Readback) : Bool :=
  match d with
  | none => decide (expected ≠ .random)
  | some s => !patternTest expected (some s)

/-- The samples of a kind among the first ones. -/
def samplesWith (p : Readback → Bool) (n : ℕ) : ℕ :=
  (List.range' 0 n).countP fun j => p (sampleRead total io j)

/-- The verdict that the comment in the code describes, and a complete count. -/
def VerdictExact (n : ℕ) : Prop :=
  (∃ t, (patternLoop (pickSector 2000 1000 total) expected io n 0 ⟨0,0⟩).2 = some t ∧
    t.verifiedSectors + t.failedSectors = n) ∧
  ((executePatternVerification expected total n io).passed = some true ↔
    100 * samplesWith total io (failedOrUnreadable expected) n ≤ n)

end Samples

variable (expected : ExpectedPattern) {total : ℕ} (io : Probe)

theorem patternTest_eq (d : Readback) : patternTest expected d = !countedFailure expected d := by
  cases d with
  | none => cases expected <;> decide
  | some s => rw [countedFailure,Bool.not_not]

theorem failed_of_counted {expected : ExpectedPattern} {d : Readback} (h : countedFailure expected d = true) :
    failedOrUnreadable expected d = true := by
  cases d with
  | none => rfl
  | some s => exact h

theorem samplesWith_mono {io : Probe} {p q : Readback → Bool} (h : ∀ d, p d = true → q d = true) (n : ℕ) :
    samplesWith total io p n ≤ samplesWith total io q n :=
  List.countP_mono_left fun j _ => h (sampleRead total io j)

/-- Every sample adds one to either count. -/
theorem Tally.count_eq (t : Tally) (b : Bool) : t.count b =
    ⟨t.verifiedSectors + (if b then 1 else 0),t.failedSectors + (if b then 0 else 1)⟩ := by
  cases b <;> rfl

theorem pickSector_eq (h : total ≠ 2000) (r : Fin 32768) : pickSector 2000 1000 total r =
    some ((r.val : ℤ).tmod ((total : ℤ) - 2000) + 1000) := by
  rw [pickSector,if_neg (by omega)]
  rfl

/-- The loop adds the samples it takes to the counts it starts from. -/
theorem patternLoop_tally (h : total ≠ 2000) (n i : ℕ) (t : Tally) :
    (patternLoop (pickSector 2000 1000 total) expected io n i t).2 = some
      ⟨t.verifiedSectors + (List.range' i n).countP
          (fun j => patternTest expected (sampleRead total io j)),
        t.failedSectors + (List.range' i n).countP
          (fun j => countedFailure expected (sampleRead total io j))⟩ := by
  induction n generalizing i t with
  | zero => rfl
  | succ n ih =>
    have htest := patternTest_eq expected (sampleRead total io i)
    rw [patternLoop,pickSector_eq h]
    dsimp only
    rw [ih,List.range'_succ,List.countP_cons,List.countP_cons,Tally.count_eq,htest]
    change some (Tally.mk _ _) = _
    rw [← sampleRead,htest]
    cases countedFailure expected (sampleRead total io i) <;> simp <;> omega

/-- The counts after the loop, from which the verdict is taken. -/
theorem patternLoop_counts (h : total ≠ 2000) (n : ℕ) :
    ∃ t, (patternLoop (pickSector 2000 1000 total) expected io n 0 ⟨0,0⟩).2 = some t ∧
      t.verifiedSectors + t.failedSectors = n ∧
      t.failedSectors = samplesWith total io (countedFailure expected) n := by
  refine ⟨_,patternLoop_tally expected io h n 0 ⟨0,0⟩,?_,?_⟩
  · have hsplit := List.length_eq_countP_add_countP
      (fun j => patternTest expected (sampleRead total io j)) (l := List.range' 0 n)
    simp only [patternTest_eq,List.length_range'] at hsplit ⊢
    simp at hsplit ⊢
    omega
  · simp [samplesWith]

/-- A truncated percentage of at most one is less than two percent. -/
theorem rate_le_one_iff {n failed : ℕ} (hn : 0 < n) : failed * 100 / n ≤ 1 ↔ 100 * failed < 2 * n := by
  rw [← Nat.lt_succ_iff,Nat.div_lt_iff_lt_mul hn]
  omega

theorem passed_iff (h : total ≠ 2000) {n : ℕ} (hn : 0 < n) :
    (executePatternVerification expected total n io).passed = some true ↔
      100 * samplesWith total io (countedFailure expected) n < 2 * n := by
  obtain ⟨t,ht,-,hfailed⟩ := patternLoop_counts expected io h n
  rw [executePatternVerification]
  dsimp only
  rw [ht,Option.bind_some,if_neg hn.ne',Option.some.injEq,decide_eq_true_iff,rate_le_one_iff hn,hfailed]

/-- On a device of 2000 sectors the first sample divides by zero. -/
theorem patternLoop_abandoned {n : ℕ} (hn : 0 < n) (t : Tally) :
    (patternLoop (pickSector 2000 1000 (2000 : ℕ)) expected io n 0 t).2 = none := by
  obtain ⟨n,rfl⟩ := Nat.exists_eq_add_one.mpr hn
  rw [patternLoop]
  rfl

/-- The verdict is the one described exactly if samples can be drawn and either at most one
percent failed or two percent are counted. -/
theorem executePatternVerification_iff (expected : ExpectedPattern) (total n : ℕ) (hn : 0 < n)
    (io : Probe) : VerdictExact expected total io n ↔
      total ≠ 2000 ∧ (100 * samplesWith total io (failedOrUnreadable expected) n ≤ n ∨
        2 * n ≤ 100 * samplesWith total io (countedFailure expected) n) := by
  have hmono : samplesWith total io (countedFailure expected) n ≤
      samplesWith total io (failedOrUnreadable expected) n := samplesWith_mono (fun _ => failed_of_counted) n
  by_cases h : total = 2000
  · subst h
    constructor
    · rintro ⟨⟨t,ht,-⟩,-⟩
      rw [patternLoop_abandoned _ _ hn] at ht
      cases ht
    · rintro ⟨h,-⟩
      exact absurd rfl h
  · obtain ⟨t,ht,hsum,-⟩ := patternLoop_counts expected io h n
    have hpassed := passed_iff expected io h hn
    constructor
    · rintro ⟨-,hexact⟩
      refine ⟨h,?_⟩
      rw [hpassed] at hexact
      omega
    · rintro ⟨-,hcount⟩
      refine ⟨⟨t,ht,hsum⟩,?_⟩
      rw [hpassed]
      omega

/-- For every pattern but random data the failures counted are all there are. -/
theorem countedFailure_eq {expected : ExpectedPattern} (h : expected ≠ .random) : countedFailure expected = failedOrUnreadable expected := by
  funext d
  cases d with
  | none => exact decide_eq_true h
  | some s => rfl

/-- A probe that always draws the same sector and reads the same data but for the first samples. -/
def probeWith (first rest : Readback) (k : ℕ) : Probe where
  random _ := 0
  read j _ := if j < k then first else rest

theorem samplesWith_probeWith (total : ℕ) {p : Readback → Bool} {first rest : Readback} (hfirst : p first = true)
    (hrest : p rest = false) {k n : ℕ} (hk : k ≤ n) : samplesWith total (probeWith first rest k) p n = k := by
  have hsplit : List.range' 0 n = List.range' 0 k ++ List.range' k (n - k) := by
    have := List.range'_append_1 (s := 0) (m := k) (n := n - k)
    rw [Nat.zero_add,Nat.add_sub_cancel' hk] at this
    exact this.symm
  have hfront : (List.range' 0 k).countP (fun j => p (sampleRead total (probeWith first rest k) j)) = k := by
    rw [List.countP_eq_length.mpr,List.length_range']
    intro j hj
    have hlt : j < k := by simpa using hj
    simpa [sampleRead,probeWith,hlt] using hfirst
  have hback : (List.range' k (n - k)).countP
      (fun j => p (sampleRead total (probeWith first rest k) j)) = 0 := by
    apply List.countP_eq_zero.mpr
    intro j hj
    have hle : ¬ j < k := by
      rw [List.mem_range'_1] at hj
      omega
    simpa [sampleRead,probeWith,hle] using hrest
  rw [samplesWith,hsplit,List.countP_append,hfront,hback,Nat.add_zero]

/-- A sector written with the pattern is not a failure. -/
theorem failedOrUnreadable_x55 : failedOrUnreadable .x55 (some fun _ => 0x55) = false := by
  have haccepted : patternTest .x55 (some fun _ => 0x55) = true := by
    show grepQ bytes55 (echo (capture _)) = true
    rw [echo_capture,bytes55_eq,grepQ_sectorDump]
    exact ⟨0,hasGroup_row (fun _ => rfl) 0⟩
  rw [failedOrUnreadable,haccepted]
  rfl

theorem executePatternVerification_iff_clean :
    VerdictExact .x55 4096 (probeWith none (some fun _ => 0x55) 10) 1000 := by
  have hten := samplesWith_probeWith 4096 (show failedOrUnreadable .x55 none = true from rfl)
    failedOrUnreadable_x55 (show 10 ≤ 1000 by decide)
  exact (executePatternVerification_iff .x55 4096 1000 (by decide) _).mpr ⟨by decide,Or.inl (by omega)⟩

/-- Fifteen unreadable sectors of a thousand are one and a half percent, and pass. -/
theorem executePatternVerification_tolerates :
    ¬ VerdictExact .x55 4096 (probeWith none (some fun _ => 0x55) 15) 1000 := by
  have hfifteen := samplesWith_probeWith 4096 (show failedOrUnreadable .x55 none = true from rfl)
    failedOrUnreadable_x55 (show 15 ≤ 1000 by decide)
  rintro ⟨-,hexact⟩
  rw [passed_iff _ _ (by decide) (by decide),countedFailure_eq (by decide),hfifteen] at hexact
  omega

end SecureWipeOut.Sampling
