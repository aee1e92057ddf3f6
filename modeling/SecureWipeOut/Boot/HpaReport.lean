import SecureWipeOut.Boot.DeviceNames
import SecureWipeOut.Boot.HpaSession

/-! # The report of the protected area

What `detect_and_handle_hpa` leaves in its variables after it has parsed a report, and
what becomes of the report that `hdparm -N` prints. The guard asks for a word that does
not occur in it.
-/
namespace SecureWipeOut.HpaSession
open Text DeviceNames

/-- The variables of the parsing, which start as false and three zeros. -/
structure HpaFindings where
  hpaDetected : Bool
  accessibleMaxSectors : Line
  nativeMaxSectors : Line
  hpaSize : ℤ
  deriving DecidableEq

def HpaFindings.initial : HpaFindings := ⟨false,"0".toList,"0".toList,0⟩

/-- The value of a constant in shell arithmetic, octal behind a leading zero. -/
def shellConstant (digits : Line) : Option ℤ :=
  if octalError digits then none
  else if digits.head? = some '0' then some (digits.foldl (fun n c => 8 * n + (c.toNat - 48)) 0 : ℕ)
  else some (decimal digits)

/-- The difference of the sector counts in megabytes, in signed arithmetic of 64 bits. -/
def hpaMegabytes (native accessible : Line) : Option ℤ := do
  let n ← shellConstant native
  let a ← shellConstant accessible
  return (((n - a) * 512).bmod (2 ^ 64)).tdiv 1024 |>.tdiv 1024

/-- The parsing, or none when an arithmetic error abandons the function. -/
def parseHpaInfo (report : Option (List Line)) : Option HpaFindings :=
  match report with
  | none => some .initial
  | some output =>
    let hpaInfo := echo (capture output)
    if hpaInfo.any fun line => (maxSectorsVia line).isSome then
      let accessible := ((hpaInfo.filterMap maxSectorsVia).flatMap digitRuns).head?.getD []
      let native := ((hpaInfo.filterMap viaNumber).flatMap digitRuns).getLast?.getD []
      match shellInteger accessible, shellInteger native with
      | some a, some n =>
        if a < n then (hpaMegabytes native accessible).map fun size => ⟨true,accessible,native,size⟩
        else some ⟨false,accessible,native,0⟩
      | _, _ => some ⟨false,accessible,native,0⟩
    else some .initial

/-- What the handling makes of the variables. -/
def detectionOf : Option HpaFindings → Detection
  | none => .abandoned
  | some f => if f.hpaDetected then .detected f.accessibleMaxSectors f.nativeMaxSectors else .notDetected

theorem hpaMegabytes_isSome (native accessible : Line) : (hpaMegabytes native accessible).isSome =
    !(octalError native || octalError accessible) := by
  have hconst : ∀ digits, (shellConstant digits).isSome = !octalError digits := by
    intro digits
    unfold shellConstant
    cases octalError digits
    · rw [if_neg (by decide)]
      split <;> rfl
    · rfl
  rw [Bool.not_or,← hconst,← hconst,hpaMegabytes]
  cases shellConstant native with
  | none => rfl
  | some n =>
    cases shellConstant accessible with
    | none => rfl
    | some a => rfl

/-- The session's detection is what follows from the variables. -/
theorem detectHpa_eq (report : Option (List Line)) : detectHpa report = detectionOf (parseHpaInfo report) := by
  cases report with
  | none => rfl
  | some output =>
    simp only [detectHpa,parseHpaInfo]
    by_cases hguard : ((echo (capture output)).any fun line => (maxSectorsVia line).isSome) = true
    · rw [if_pos hguard,if_pos hguard]
      generalize (((echo (capture output)).filterMap maxSectorsVia).flatMap digitRuns).head?.getD [] =
        accessible
      generalize (((echo (capture output)).filterMap viaNumber).flatMap digitRuns).getLast?.getD [] = native
      cases shellInteger accessible with
      | none => rfl
      | some a =>
        cases shellInteger native with
        | none => rfl
        | some n =>
          dsimp only
          by_cases hlt : a < n
          · rw [if_pos hlt,if_pos hlt]
            have hsome := hpaMegabytes_isSome native accessible
            cases hsize : hpaMegabytes native accessible with
            | none =>
              rw [hsize,Option.isSome_none,eq_comm,Bool.not_eq_false'] at hsome
              rw [if_pos hsome]
              rfl
            | some size =>
              rw [hsize,Option.isSome_some,eq_comm,Bool.not_eq_true'] at hsome
              rw [if_neg (by rw [hsome]; decide)]
              rfl
          · rw [if_neg hlt,if_neg hlt]
            rfl
    · rw [if_neg hguard,if_neg hguard]
      rfl

section Report

/-- The line with the counts, as `hdparm -N` prints it. -/
def reportLine (accessible native : ℕ) (enabled : Bool) : Line :=
  " max sectors   = ".toList ++ (Nat.toDigits 10 accessible ++ '/' :: (Nat.toDigits 10 native ++
    (if enabled then ", HPA is enabled".toList else ", HPA is disabled".toList)))

theorem reportLine_eq (accessible native : ℕ) (enabled : Bool) : reportLine accessible native enabled =
    " max sectors   = ".toList ++ (Nat.toDigits 10 accessible ++ '/' :: (Nat.toDigits 10 native ++
      (if enabled then ", HPA is enabled".toList else ", HPA is disabled".toList))) := rfl

/-- The whole report: an empty line, the device, and the line with the counts. -/
def hdparmReport (d : DeviceName) (accessible native : ℕ) (enabled : Bool) : List Line :=
  [[],d.path ++ [':'],reportLine accessible native enabled]

/-- The counts are found, and with them the protected area and its size. -/
def ParsedExactly (accessible native : ℕ) (f : HpaFindings) : Prop :=
  (f.hpaDetected = true ↔ accessible < native) ∧ f.accessibleMaxSectors = Nat.toDigits 10 accessible ∧
    f.nativeMaxSectors = Nat.toDigits 10 native ∧
    f.hpaSize = (((native - accessible) * 512 / 2 ^ 20 : ℕ) : ℤ)

/-- A text with a character that a line lacks does not occur in the line. -/
theorem not_isPrefixOf_drop {pat line : Line} {c : Char} (hc : c ∈ pat) (hno : c ∉ line) (i : ℕ) :
    pat.isPrefixOf (line.drop i) = false := by
  rw [Bool.eq_false_iff]
  intro h
  exact hno (List.mem_of_mem_drop ((List.isPrefixOf_iff_prefix.mp h).subset hc))

theorem firstAt_eq_none {pat line : Line} {c : Char} (hc : c ∈ pat) (hno : c ∉ line) :
    firstAt pat line = none := by
  rw [firstAt,List.find?_eq_none]
  intro i _
  rw [not_isPrefixOf_drop hc hno]
  decide

theorem lastAt_eq_none {pat line : Line} {c : Char} (hc : c ∈ pat) (hno : c ∉ line) :
    lastAt pat line = none := by
  rw [lastAt,List.find?_eq_none]
  intro i _
  rw [not_isPrefixOf_drop hc hno]
  decide

theorem maxSectorsVia_of_no_space {line : Line} (h : ' ' ∉ line) : maxSectorsVia line = none := by
  have hfirst : firstAt "max sectors".toList line = none := firstAt_eq_none (by decide) h
  rw [maxSectorsVia,hfirst]
  rfl

theorem maxSectorsVia_of_no_v {line : Line} (h : 'v' ∉ line) : maxSectorsVia line = none := by
  have hlast : lastAt "via".toList line = none := lastAt_eq_none (by decide) h
  rw [maxSectorsVia,hlast]
  cases firstAt "max sectors".toList line <;> rfl

theorem no_space_path (d : DeviceName) : ' ' ∉ d.path ++ [':'] := by
  simp only [DeviceName.path,List.mem_append,not_or]
  refine ⟨⟨by decide,fun h => ?_⟩,by decide⟩
  exact absurd (d.base_alphanum _ h) (by decide)

theorem no_v_reportLine (accessible native : ℕ) (enabled : Bool) : 'v' ∉ reportLine accessible native enabled := by
  have hdigits : ∀ n, 'v' ∉ Nat.toDigits 10 n := fun n h =>
    absurd (Nat.isDigit_of_mem_toDigits (by norm_num) (by norm_num) h) (by decide)
  simp only [reportLine_eq,List.mem_append,List.mem_cons,not_or]
  refine ⟨by decide,hdigits _,by decide,hdigits _,?_⟩
  cases enabled <;> decide

/-- The guard never lets a report of `hdparm -N` through. -/
theorem parseHpaInfo_hdparmReport (d : DeviceName) (accessible native : ℕ) (enabled : Bool) :
    parseHpaInfo (some (hdparmReport d accessible native enabled)) = some .initial := by
  have hkeep : echo (capture (hdparmReport d accessible native enabled)) =
      hdparmReport d accessible native enabled := by
    have hsplit : hdparmReport d accessible native enabled =
        [[],d.path ++ [':']] ++ [reportLine accessible native enabled] := rfl
    have hline : ¬(reportLine accessible native enabled).isEmpty = true := by
      rw [List.isEmpty_iff,reportLine_eq]
      exact List.append_ne_nil_of_left_ne_nil (by decide) _
    rw [hsplit,capture,List.rdropWhile_concat_neg _ _ _ hline]
    rfl
  have hguard : (hdparmReport d accessible native enabled).any
      (fun line => (maxSectorsVia line).isSome) = false := by
    have hempty : maxSectorsVia [] = none := maxSectorsVia_of_no_v (by decide)
    have hpath := maxSectorsVia_of_no_space (no_space_path d)
    have hline := maxSectorsVia_of_no_v (no_v_reportLine accessible native enabled)
    rw [hdparmReport,List.any_cons,List.any_cons,List.any_cons,hempty,hpath,hline]
    rfl
  rw [parseHpaInfo]
  dsimp only
  rw [hkeep,hguard]
  rfl

/-- A report is parsed as it is meant exactly if both of its counts are zero. -/
theorem parseHpaInfo_exact_iff (d : DeviceName) (accessible native : ℕ) (enabled : Bool) :
    (∃ f, parseHpaInfo (some (hdparmReport d accessible native enabled)) = some f ∧
      ParsedExactly accessible native f) ↔ accessible = 0 ∧ native = 0 := by
  have hparse := parseHpaInfo_hdparmReport d accessible native enabled
  constructor
  · rintro ⟨f,hf,hdetected,haccessible,-⟩
    rw [hparse] at hf
    obtain rfl := Option.some.inj hf
    have hle : native ≤ accessible := not_lt.mp fun hlt => absurd (hdetected.mpr hlt) (by decide)
    have hzero : accessible = 0 := by
      have hdigits : Nat.toDigits 10 0 = Nat.toDigits 10 accessible := haccessible
      rw [← decimal_toDigits accessible,← hdigits]
      rfl
    omega
  · rintro ⟨rfl,rfl⟩
    exact ⟨_,hparse,by decide,rfl,rfl,rfl⟩

/-- On a drive that hides half of its sectors nothing is detected. -/
theorem parseHpaInfo_hidden_half :
    parseHpaInfo (some (hdparmReport (.disk 'a' rfl) 500000000 1000000000 true)) = some .initial ∧
      ¬ParsedExactly 500000000 1000000000 .initial := by
  refine ⟨parseHpaInfo_hdparmReport _ _ _ _,fun h => ?_⟩
  have hdetected : HpaFindings.initial.hpaDetected = true := h.1.mpr (by decide)
  cases hdetected

/-- No session disables a protected area on the strength of such a report. -/
theorem detectHpa_hdparmReport (d : DeviceName) (accessible native : ℕ) (enabled : Bool) :
    detectHpa (some (hdparmReport d accessible native enabled)) = .notDetected := by
  rw [detectHpa_eq,parseHpaInfo_hdparmReport]
  rfl

end Report

end SecureWipeOut.HpaSession
