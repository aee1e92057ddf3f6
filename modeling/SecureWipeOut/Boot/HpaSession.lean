import SecureWipeOut.Boot.Wipes

/-! # Overwriting a drive with a host protected area

A run of `execute_hdd_secure_overwrite` takes the size of the drive, may disable the
protected area, overwrites, verifies samples and restores the area. Its steps speak
to each other through exported variables, which also survive into later runs. It runs
in a condition, as the functions of the scripts call each other, so that a failing
command does not end the shell; only an arithmetic error abandons the run.
-/
namespace SecureWipeOut.HpaSession
open Text SectorTests Sampling Wipes

structure Globals where
  hpaWasDisabled : Bool
  originalHpaSize : Line
  deviceSizeBytes : ℕ

/-- What the drive, the user and the commands answer in one run. The device has `size`
bytes while it is overwritten. -/
structure RunInput where
  device : String
  getsize64 : Option ℕ
  getss : Option ℕ
  hdparmReport : Option (List Line)
  hpaChoice : String
  disableSucceeds : Bool
  overwriteConfirm : String
  size : ℕ
  env : Env size
  restoreSucceeds : Bool

/-- The settings of the maximal sector through `hdparm -N`, each with its success. -/
inductive Event
  | disableHpa (device : String) (sectors : Line) (succeeded : Bool)
  | restoreHpa (device : String) (sectors : Line) (succeeded : Bool)

inductive Coverage
  | fullDrive | accessibleArea
  deriving DecidableEq

/-- The match of `max sectors.*via` in a line. -/
def maxSectorsVia (line : Line) : Option Line := do
  let i ← firstAt "max sectors".toList line
  let j ← lastAt "via".toList line
  if i + 11 ≤ j then some (slice line i (j + 3)) else none

/-- The match of `via.*[0-9]\+` in a line. -/
def viaNumber (line : Line) : Option Line := do
  let i ← firstAt "via".toList line
  let j ← lastDigitAt line
  if i + 3 ≤ j then some (slice line i (j + 1)) else none

/-- The operand of an integer comparison: not empty and within the range of the shell. -/
def shellInteger (digits : Line) : Option ℕ :=
  if digits = [] then none else if decimal digits < 2 ^ 63 then some (decimal digits) else none

/-- A leading zero makes an arithmetic constant octal. -/
def octalError (digits : Line) : Bool := digits.head? == some '0' && digits.any fun c => '8' ≤ c

inductive Detection
  | notDetected
  | detected (accessibleMaxSectors nativeMaxSectors : Line)
  | abandoned
  deriving DecidableEq

/-- The first half of `detect_and_handle_hpa`: what is read from the report of the drive. -/
def detectHpa (report : Option (List Line)) : Detection :=
  match report with
  | none => .notDetected
  | some output =>
    let hpaInfo := echo (capture output)
    if hpaInfo.any fun line => (maxSectorsVia line).isSome then
      let accessible := ((hpaInfo.filterMap maxSectorsVia).flatMap digitRuns).head?.getD []
      let native := ((hpaInfo.filterMap viaNumber).flatMap digitRuns).getLast?.getD []
      match shellInteger accessible, shellInteger native with
      | some a, some n =>
        if a < n then if octalError native || octalError accessible then .abandoned else .detected accessible native
        else .notDetected
      | _, _ => .notDetected
    else .notDetected

def getDeviceGeometry (g : Globals) (x : RunInput) : Globals × Option ℕ :=
  match x.getsize64 with
  | none => (g,some 1)
  | some bytes => if x.getss = some 0 then (g,none) else ({ g with deviceSizeBytes := bytes },some 0)

def detectAndHandleHpa (g : Globals) (x : RunInput) : Globals × List Event × Option ℕ :=
  match detectHpa x.hdparmReport with
  | .abandoned => (g,[],none)
  | .notDetected => ({ g with hpaWasDisabled := false },[],some 0)
  | .detected accessible native =>
    if x.hpaChoice = "1" then
      if x.disableSucceeds then
        ({ g with hpaWasDisabled := true, originalHpaSize := accessible },
          [.disableHpa x.device native true],some 0)
      else (g,[.disableHpa x.device native false],some 1)
    else if x.hpaChoice = "2" then ({ g with hpaWasDisabled := false },[],some 0)
    else (g,[],some 1)

def restoreHpaSettings (g : Globals) (x : RunInput) : List Event :=
  if g.hpaWasDisabled = true ∧ g.originalHpaSize ≠ [] then
    [.restoreHpa x.device g.originalHpaSize x.restoreSucceeds]
  else []

/-- The coverage reported on success and the size from which `verify_overwrite` drew its
samples. A status none stands for an abandoned run. -/
structure RunResult where
  globals : Globals
  events : List Event
  status : Option ℕ
  coverage : Option Coverage
  verifiedBytes : Option ℕ

/-- The steps after the protected area has been handled. -/
def confirmAndOverwrite (g : Globals) (x : RunInput) (events : List Event) : RunResult :=
  if x.overwriteConfirm ≠ "OVERWRITE NOW" then ⟨g,events ++ restoreHpaSettings g x,some 1,none,none⟩
  else if (executeSecureOverwrite "zeros" "16M" x.env).status = some 0 then
    match (verifyOverwrite g.deviceSizeBytes x.env.probe).passed with
    | none => ⟨g,events,none,none,some g.deviceSizeBytes⟩
    | some false => ⟨g,events ++ restoreHpaSettings g x,some 1,none,some g.deviceSizeBytes⟩
    | some true => ⟨g,events ++ restoreHpaSettings g x,some 0,
        some (if g.hpaWasDisabled then .fullDrive else .accessibleArea),some g.deviceSizeBytes⟩
  else ⟨g,events ++ restoreHpaSettings g x,some 1,none,none⟩

/-- The status of the handling decides whether the run goes on. -/
def afterHandling (x : RunInput) : Globals × List Event × Option ℕ → RunResult
  | (g,events,some 0) => confirmAndOverwrite g x events
  | (g,events,some _) => ⟨g,events,some 1,none,none⟩
  | (g,events,none) => ⟨g,events,none,none,none⟩

def executeHddSecureOverwrite (g : Globals) (x : RunInput) : RunResult :=
  match getDeviceGeometry g x with
  | (g,some 0) => afterHandling x (detectAndHandleHpa g x)
  | (g,some _) => ⟨g,[],some 1,none,none⟩
  | (g,none) => ⟨g,[],none,none,none⟩

/-- Consecutive runs, each starting from the variables that the one before left. -/
def session (g : Globals) : List RunInput → List (RunInput × RunResult)
  | [] => []
  | x :: xs =>
    let r := executeHddSecureOverwrite g x
    (x,r) :: session r.globals xs

end SecureWipeOut.HpaSession
