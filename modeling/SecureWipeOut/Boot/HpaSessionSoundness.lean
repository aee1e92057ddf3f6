import SecureWipeOut.Boot.HpaSession

/-! # What a session does to protected areas

Whatever an earlier run left in the variables, the handling of a run overwrites before
anything reads it. The size of the drive is the exception: it is taken before the
protected area is disabled and not taken again.
-/
namespace SecureWipeOut.HpaSession
open Text SectorTests Sampling Wipes

/-- The protected area is found, the user asks to disable it, and the drive complies. -/
def RunInput.Disables (x : RunInput) (accessible native : Line) : Prop :=
  detectHpa x.hdparmReport = .detected accessible native ∧ x.hpaChoice = "1" ∧ x.disableSucceeds = true

/-- Every sample of `verify_overwrite` is drawn, from a device taken to have `bytes` bytes, and accepted. -/
def RunInput.SamplesAccepted (x : RunInput) (bytes : ℕ) : Prop :=
  ∀ i < 10, ∃ s, pickSector 1000 500 ((bytes / 512 : ℕ) : ℤ) (x.env.probe.random i) = some s ∧
    verifyOverwriteTest (x.env.probe.read i s) = true

/-- A successful setting of the native size is followed, on every return, by one of the
accessible size found in the same run, and the latter is only made after the former. -/
structure HpaRestored (x : RunInput) (r : RunResult) : Prop where
  restored : ∀ device native, .disableHpa device native true ∈ r.events → r.status ≠ none →
    ∃ accessible, detectHpa x.hdparmReport = .detected accessible native ∧
      .restoreHpa device accessible x.restoreSucceeds ∈ r.events
  disabled : ∀ device accessible ok, .restoreHpa device accessible ok ∈ r.events →
    ∃ native, detectHpa x.hdparmReport = .detected accessible native ∧
      .disableHpa device native true ∈ r.events

/-- A success that reports the full drive drew its samples from the size the device then has. -/
def FullCoverageVerified (x : RunInput) (r : RunResult) : Prop :=
  r.status = some 0 → r.coverage = some .fullDrive → r.verifiedBytes = some x.size

/-- The run disables the protected area, is confirmed, and has its samples accepted, all of them
drawn from a size that the device no longer has. -/
structure RunInput.Outdated (x : RunInput) : Prop where
  disables : ∃ accessible native, x.Disables accessible native
  confirmed : x.overwriteConfirm = "OVERWRITE NOW"
  sectorSize : x.getss ≠ some 0
  samples : ∃ bytes, x.getsize64 = some bytes ∧ bytes ≠ x.size ∧ x.SamplesAccepted bytes

theorem detected_ne_nil {report : Option (List Line)} {accessible native : Line}
    (h : detectHpa report = .detected accessible native) : accessible ≠ [] := by
  rintro rfl
  unfold detectHpa at h
  cases report with
  | none => cases h
  | some output =>
    dsimp only at h
    split at h
    case isFalse => cases h
    case isTrue =>
      split at h
      case h_2 => cases h
      case h_1 a n ha hn =>
        split at h
        case isFalse => cases h
        case isTrue =>
          split at h
          · cases h
          · obtain ⟨hacc,_⟩ := Detection.detected.inj h
            rw [hacc] at ha
            cases ha

/-- Where the handling of the protected area leaves the variables: either it disabled the area
and holds its own accessible size, or it did not and says so, or the run ends there. -/
inductive Handled (g : Globals) (x : RunInput) : Globals × List Event × Option ℕ → Prop
  | disabled {accessible native : Line} (h : x.Disables accessible native) :
      Handled g x ({ g with hpaWasDisabled := true, originalHpaSize := accessible },
        [.disableHpa x.device native true],some 0)
  | kept (h : ∀ accessible native, ¬x.Disables accessible native) :
      Handled g x ({ g with hpaWasDisabled := false },[],some 0)
  | ended {events : List Event} {status : Option ℕ} (h : ∀ accessible native, ¬x.Disables accessible native)
      (hstatus : status ≠ some 0) (hdisable : ∀ device native, .disableHpa device native true ∉ events)
      (hrestore : ∀ device accessible ok, .restoreHpa device accessible ok ∉ events) :
      Handled g x (g,events,status)

theorem detectAndHandleHpa_handled (g : Globals) (x : RunInput) : Handled g x (detectAndHandleHpa g x) := by
  unfold detectAndHandleHpa
  cases hd : detectHpa x.hdparmReport with
  | abandoned =>
    refine .ended ?_ nofun nofun nofun
    rintro accessible native ⟨h,_⟩
    rw [hd] at h
    cases h
  | notDetected =>
    refine .kept ?_
    rintro accessible native ⟨h,_⟩
    rw [hd] at h
    cases h
  | detected accessible native =>
    dsimp only
    by_cases h1 : x.hpaChoice = "1"
    · rw [if_pos h1]
      cases hok : x.disableSucceeds with
      | true => exact .disabled ⟨hd,h1,hok⟩
      | false =>
        refine .ended ?_ nofun ?_ ?_
        · rintro a n ⟨_,_,h⟩
          rw [hok] at h
          cases h
        · simp
        · simp
    · rw [if_neg h1]
      have hno : ∀ a n, ¬x.Disables a n := fun a n h => h1 h.2.1
      by_cases h2 : x.hpaChoice = "2"
      · rw [if_pos h2]
        exact .kept hno
      · rw [if_neg h2]
        exact .ended hno nofun nofun nofun

/-- The steps after the area was handled end in a return that restores it, or are abandoned. -/
theorem confirmAndOverwrite_cases (g : Globals) (x : RunInput) (events : List Event) :
    (confirmAndOverwrite g x events).events = events ++ restoreHpaSettings g x ∨
      (confirmAndOverwrite g x events).status = none ∧ (confirmAndOverwrite g x events).events = events := by
  unfold confirmAndOverwrite
  split
  · exact .inl rfl
  · split
    · split
      · exact .inr ⟨rfl,rfl⟩
      · exact .inl rfl
      · exact .inl rfl
    · exact .inl rfl

theorem verifyOverwrite_passed (x : RunInput) (bytes : ℕ) :
    (verifyOverwrite bytes x.env.probe).passed = some true ↔ x.SamplesAccepted bytes := by
  rw [verifyOverwrite,sampleUntil_passed]
  simp only [Nat.zero_add]
  rfl

/-- The run succeeds with full coverage exactly if it was confirmed, the samples drawn from the
recorded size were accepted and the variable says that the area was disabled. -/
theorem confirmAndOverwrite_full (g : Globals) (x : RunInput) (events : List Event) :
    FullCoverageVerified x (confirmAndOverwrite g x events) ↔
      ¬(x.overwriteConfirm = "OVERWRITE NOW" ∧ g.hpaWasDisabled = true ∧ g.deviceSizeBytes ≠ x.size ∧
        x.SamplesAccepted g.deviceSizeBytes) := by
  rw [← verifyOverwrite_passed]
  unfold FullCoverageVerified confirmAndOverwrite
  by_cases hc : x.overwriteConfirm = "OVERWRITE NOW"
  · have hwipe : (executeSecureOverwrite "zeros" "16M" x.env).status = some 0 := rfl
    rw [if_neg (not_not.mpr hc),if_pos hwipe]
    rcases (verifyOverwrite g.deviceSizeBytes x.env.probe).passed with _ | (_ | _)
    · simp
    · simp
    · cases g.hpaWasDisabled with
      | true => simp [hc]
      | false => simp
  · rw [if_pos hc]
    simp [hc]

theorem restored_of_unset {x : RunInput} {r : RunResult}
    (hdisable : ∀ device native, .disableHpa device native true ∉ r.events)
    (hrestore : ∀ device accessible ok, .restoreHpa device accessible ok ∉ r.events) : HpaRestored x r :=
  ⟨fun device native h => absurd h (hdisable device native),
    fun device accessible ok h => absurd h (hrestore device accessible ok)⟩

/-- A handling that ends the run: its events are all there are and nothing is reported. -/
theorem afterHandling_ended (x : RunInput) (g : Globals) (events : List Event) {status : Option ℕ}
    (h : status ≠ some 0) : (afterHandling x (g,events,status)).events = events ∧
      (afterHandling x (g,events,status)).status ≠ some 0 := by
  rcases status with _ | (_ | _)
  · exact ⟨rfl,nofun⟩
  · exact absurd rfl h
  · exact ⟨rfl,nofun⟩

/-- Restoring after the area was handled: nothing is set unless the run itself disabled it. -/
theorem handled_restored {g : Globals} {x : RunInput} {t : Globals × List Event × Option ℕ}
    (h : Handled g x t) : HpaRestored x (afterHandling x t) := by
  cases h with
  | @disabled accessible native hdis =>
    have hne := detected_ne_nil hdis.1
    have hrest : restoreHpaSettings { g with hpaWasDisabled := true, originalHpaSize := accessible } x =
        [.restoreHpa x.device accessible x.restoreSucceeds] := if_pos ⟨rfl,hne⟩
    rw [afterHandling]
    constructor
    · intro device native' hmem hret
      rcases confirmAndOverwrite_cases _ x [.disableHpa x.device native true] with hev | ⟨hnone,_⟩
      · rw [hev,hrest] at hmem ⊢
        simp only [List.cons_append,List.nil_append,List.mem_cons,Event.disableHpa.injEq,and_true,reduceCtorEq,
          List.not_mem_nil,or_false] at hmem
        obtain ⟨rfl,rfl⟩ := hmem
        exact ⟨accessible,hdis.1,by simp⟩
      · exact absurd hnone hret
    · intro device accessible' ok hmem
      rcases confirmAndOverwrite_cases _ x [.disableHpa x.device native true] with hev | ⟨_,hev⟩
      · rw [hev,hrest] at hmem ⊢
        simp only [List.cons_append,List.nil_append,List.mem_cons,Event.restoreHpa.injEq,reduceCtorEq,
          List.not_mem_nil,or_false,false_or] at hmem
        obtain ⟨rfl,rfl,_⟩ := hmem
        exact ⟨native,hdis.1,by simp⟩
      · rw [hev] at hmem
        simp at hmem
  | kept hno =>
    have hrest : restoreHpaSettings { g with hpaWasDisabled := false } x = [] := if_neg nofun
    have hev : (confirmAndOverwrite { g with hpaWasDisabled := false } x []).events = [] := by
      rcases confirmAndOverwrite_cases { g with hpaWasDisabled := false } x [] with hev | ⟨_,hev⟩
      · rw [hev,hrest]
        rfl
      · exact hev
    rw [afterHandling]
    exact restored_of_unset (by rw [hev]; exact nofun) (by rw [hev]; exact nofun)
  | @ended events _ _ hne hdisable hrestore =>
    have hev := (afterHandling_ended x g events hne).1
    exact restored_of_unset (by rw [hev]; exact hdisable) (by rw [hev]; exact hrestore)

/-- The report after the area was handled is right unless the run goes on with an outdated size. -/
theorem handled_fullCoverage {g : Globals} {x : RunInput} {t : Globals × List Event × Option ℕ}
    (h : Handled g x t) : FullCoverageVerified x (afterHandling x t) ↔
      ¬((∃ accessible native, x.Disables accessible native) ∧ x.overwriteConfirm = "OVERWRITE NOW" ∧
        g.deviceSizeBytes ≠ x.size ∧ x.SamplesAccepted g.deviceSizeBytes) := by
  cases h with
  | @disabled accessible native hdis =>
    have hex : ∃ accessible native, x.Disables accessible native := ⟨accessible,native,hdis⟩
    refine (confirmAndOverwrite_full _ x _).trans (not_congr ?_)
    dsimp only
    tauto
  | kept hno =>
    refine (confirmAndOverwrite_full _ x _).trans (not_congr ?_)
    refine iff_of_false (fun h => nomatch h.2.1) ?_
    rintro ⟨⟨accessible,native,hdis⟩,_⟩
    exact hno accessible native hdis
  | ended hno hne =>
    refine iff_of_true (fun h => absurd h (afterHandling_ended x g _ hne).2) ?_
    rintro ⟨⟨accessible,native,hdis⟩,_⟩
    exact hno accessible native hdis

theorem executeHddSecureOverwrite_of_geometry {g : Globals} {x : RunInput} {bytes : ℕ}
    (hsize : x.getsize64 = some bytes) (hss : x.getss ≠ some 0) :
    executeHddSecureOverwrite g x =
      afterHandling x (detectAndHandleHpa { g with deviceSizeBytes := bytes } x) := by
  have hgeom : getDeviceGeometry g x = ({ g with deviceSizeBytes := bytes },some 0) := by
    rw [getDeviceGeometry,hsize]
    exact if_neg hss
  rw [executeHddSecureOverwrite,hgeom]
  rfl

/-- A run without the geometry of the device sets nothing and does not succeed. -/
theorem executeHddSecureOverwrite_no_geometry (g : Globals) {x : RunInput}
    (h : x.getsize64 = none ∨ x.getss = some 0) :
    (executeHddSecureOverwrite g x).events = [] ∧ (executeHddSecureOverwrite g x).status ≠ some 0 := by
  cases hsize : x.getsize64 with
  | none =>
    have hgeom : getDeviceGeometry g x = (g,some 1) := by rw [getDeviceGeometry,hsize]
    rw [executeHddSecureOverwrite,hgeom]
    exact ⟨rfl,nofun⟩
  | some bytes =>
    have hss : x.getss = some 0 := h.resolve_left (by rw [hsize]; exact nofun)
    have hgeom : getDeviceGeometry g x = (g,none) := by
      rw [getDeviceGeometry,hsize]
      exact if_pos hss
    rw [executeHddSecureOverwrite,hgeom]
    exact ⟨rfl,nofun⟩

theorem run_restored (g : Globals) (x : RunInput) : HpaRestored x (executeHddSecureOverwrite g x) := by
  by_cases hgeom : x.getsize64 = none ∨ x.getss = some 0
  · have hev := (executeHddSecureOverwrite_no_geometry g hgeom).1
    exact restored_of_unset (by rw [hev]; exact nofun) (by rw [hev]; exact nofun)
  · obtain ⟨hsize,hss⟩ := not_or.mp hgeom
    obtain ⟨bytes,hbytes⟩ := Option.ne_none_iff_exists'.mp hsize
    rw [executeHddSecureOverwrite_of_geometry hbytes hss]
    exact handled_restored (detectAndHandleHpa_handled _ x)

theorem run_fullCoverage (g : Globals) (x : RunInput) :
    FullCoverageVerified x (executeHddSecureOverwrite g x) ↔ ¬x.Outdated := by
  by_cases hgeom : x.getsize64 = none ∨ x.getss = some 0
  · have hst := (executeHddSecureOverwrite_no_geometry g hgeom).2
    refine iff_of_true (fun h => absurd h hst) ?_
    rintro ⟨_,_,hss,bytes,hbytes,_⟩
    rcases hgeom with h | h
    · rw [h] at hbytes
      cases hbytes
    · exact hss h
  · obtain ⟨hsize,hss⟩ := not_or.mp hgeom
    obtain ⟨bytes,hbytes⟩ := Option.ne_none_iff_exists'.mp hsize
    have hout : x.Outdated ↔ (∃ accessible native, x.Disables accessible native) ∧
        x.overwriteConfirm = "OVERWRITE NOW" ∧ bytes ≠ x.size ∧ x.SamplesAccepted bytes := by
      constructor
      · rintro ⟨hdis,hconf,_,b,hb,hne,hacc⟩
        obtain rfl : bytes = b := Option.some.inj (hbytes.symm.trans hb)
        exact ⟨hdis,hconf,hne,hacc⟩
      · rintro ⟨hdis,hconf,hne,hacc⟩
        exact ⟨hdis,hconf,hss,bytes,hbytes,hne,hacc⟩
    rw [executeHddSecureOverwrite_of_geometry hbytes hss,hout]
    exact handled_fullCoverage (detectAndHandleHpa_handled _ x)

/-- In every session, over any drives and from whatever variables: each run restores the
protected area it disabled and no other, and its report of full coverage is right unless the
size it had recorded was outdated. -/
theorem hpaSession_sound (g : Globals) (runs : List RunInput) :
    ∀ p ∈ session g runs, HpaRestored p.1 p.2 ∧ (FullCoverageVerified p.1 p.2 ↔ ¬p.1.Outdated) := by
  induction runs generalizing g with
  | nil => exact fun p hp => nomatch hp
  | cons x xs ih =>
    intro p hp
    rcases List.mem_cons.mp hp with rfl | hp
    · exact ⟨run_restored g x,run_fullCoverage g x⟩
    · exact ih _ p hp

/-- A sector whose rows each begin with eight zeros and are otherwise numbered. -/
def numberedRows : Hexdump.Sector := fun i => if i.val % 16 < 8 then 0 else (i.val / 16 + 1).toUInt8

local instance sampleIndex : NeZero 32768 := ⟨by decide⟩

/-- A drive that reports 4000 of its 8000 sectors. The run records the size of the former, disables
the protected area and fails to write, and its samples are drawn from the recorded size. -/
def hiddenHalf : RunInput where
  device := "/dev/sda"
  getsize64 := some 2048000
  getss := some 512
  hdparmReport := some [[],"/dev/sda:".toList," max sectors   = 4000 via 8000".toList]
  hpaChoice := "1"
  disableSucceeds := true
  overwriteConfirm := "OVERWRITE NOW"
  size := 4096000
  env := ⟨fun _ _ => ⟨0,.ioError,by norm_num,nofun⟩,some 8000,⟨fun _ => 0,fun _ _ => some numberedRows⟩⟩
  restoreSucceeds := true

theorem hiddenHalf_detected : detectHpa hiddenHalf.hdparmReport = .detected "4000".toList "8000".toList := by
  decide +kernel

theorem hasGroup_numberedRows (k : Fin 32) : Hexdump.HasGroup 0 (Hexdump.row numberedRows k) := by
  left
  intro i
  apply if_pos
  show (16 * k.val + i.val) % 16 < 8
  omega

theorem numberedRows_accepted : verifyOverwriteTest (some numberedRows) = true := by
  rw [verifyOverwriteTest_iff]
  have hfirst : (Hexdump.rows numberedRows).take 5 =
      [Hexdump.row numberedRows 0,Hexdump.row numberedRows 1,Hexdump.row numberedRows 2,
        Hexdump.row numberedRows 3,Hexdump.row numberedRows 4] := rfl
  rw [FiveZeroLines,hfirst]
  constructor
  · simp only [List.isChain_cons_cons,List.isChain_singleton,and_true]
    exact ⟨fun h => absurd (congrFun h 8) (by decide),fun h => absurd (congrFun h 8) (by decide),
      fun h => absurd (congrFun h 8) (by decide),fun h => absurd (congrFun h 8) (by decide)⟩
  · simp [hasGroup_numberedRows]

/-- A drive of which no protected area is known. -/
def plainDrive : RunInput :=
  { hiddenHalf with device := "/dev/sdb", hdparmReport := none }

/-- A run on another drive inherits that the first one disabled its protected area: it restores
nothing and its report is right. -/
theorem hpaSession_sound_second_drive :
    let first := executeHddSecureOverwrite ⟨false,[],0⟩ hiddenHalf
    let second := executeHddSecureOverwrite first.globals plainDrive
    HpaRestored plainDrive second ∧ FullCoverageVerified plainDrive second := by
  intro first second
  have hmem : (plainDrive,second) ∈ session ⟨false,[],0⟩ [hiddenHalf,plainDrive] :=
    List.mem_cons_of_mem _ (List.mem_cons_self ..)
  have hsound := hpaSession_sound ⟨false,[],0⟩ [hiddenHalf,plainDrive] (plainDrive,second) hmem
  refine ⟨hsound.1,hsound.2.mpr ?_⟩
  rintro ⟨⟨accessible,native,hdetected,_⟩,_⟩
  cases hdetected

/-- The run returns 0 and reports the full drive, having verified samples of its first half. -/
theorem hpaSession_hidden_half :
    ∃ r, session ⟨false,[],0⟩ [hiddenHalf] = [(hiddenHalf,r)] ∧ r.status = some 0 ∧
      r.coverage = some .fullDrive ∧ r.verifiedBytes ≠ some hiddenHalf.size := by
  refine ⟨executeHddSecureOverwrite ⟨false,[],0⟩ hiddenHalf,rfl,?_⟩
  have houtdated : hiddenHalf.Outdated := by
    refine ⟨⟨_,_,hiddenHalf_detected,rfl,rfl⟩,rfl,by decide,2048000,rfl,by decide,?_⟩
    intro i _
    exact ⟨500,rfl,numberedRows_accepted⟩
  have hfalse : ¬FullCoverageVerified hiddenHalf (executeHddSecureOverwrite ⟨false,[],0⟩ hiddenHalf) :=
    fun h => (run_fullCoverage _ _).mp h houtdated
  simpa only [FullCoverageVerified,Classical.not_imp] using hfalse

end SecureWipeOut.HpaSession
