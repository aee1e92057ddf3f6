import SecureWipeOut.Boot.Sampling

/-! # The wipe functions of the boot scripts

Each pass pipes `dd` into `tee`, and the functions decide on the status of that
pipeline. The device, the order of the stops and the samples read back afterwards
are arbitrary.
-/
namespace SecureWipeOut.Wipes
open SectorTests Sampling

inductive StopCause
  | ioError | noSpace | deviceGone

/-- A run of `dd` onto a device of `size` bytes, from an input that never ends. It stops
at some offset, at the end of the device because no space is left. -/
structure DdPass (size : ℕ) where
  stop : ℕ
  cause : StopCause
  stop_le : stop ≤ size
  stop_noSpace : cause = .noSpace → stop = size

def DdPass.WroteWhole {size : ℕ} (p : DdPass size) : Prop := p.stop = size

/-- Every way to stop is an error to `dd`. -/
def DdPass.status {size : ℕ} (p : DdPass size) : ℕ :=
  match p.cause with
  | .ioError | .noSpace | .deviceGone => 1

def teeStatus : ℕ := 0

/-- Without `pipefail` a pipeline has the status of its last command. -/
def pipelineStatus (statuses : List ℕ) : ℕ := statuses.getLast?.getD 0

inductive Input
  | zero | urandom | pattern55

structure DdCommand where
  input : Input
  blockSize : String

structure Env (size : ℕ) where
  dd : ℕ → DdCommand → DdPass size
  getsz : Option ℕ
  probe : Probe

/-- The passes that were run and the status returned, none when the function was abandoned. -/
structure Outcome (size : ℕ) where
  passes : List (DdCommand × DdPass size)
  status : Option ℕ

/-- The command for a pattern; unknown patterns fall back to zeros. -/
def overwriteCommand (pattern blockSize : String) : DdCommand :=
  if pattern = "zeros" then ⟨.zero,blockSize⟩
  else if pattern = "random" then ⟨.urandom,blockSize⟩
  else if pattern = "dod" then ⟨.zero,blockSize⟩
  else ⟨.zero,blockSize⟩

variable {size : ℕ}

def executeSecureOverwrite (pattern blockSize : String) (env : Env size) : Outcome size :=
  let ddCommand := overwriteCommand pattern blockSize
  let pass := env.dd 0 ddCommand
  let overwriteResult := if pipelineStatus [pass.status,teeStatus] = 0 then 0 else 1
  ⟨[(ddCommand,pass)],some overwriteResult⟩

/-- Passes one after the other, up to the first that is seen to fail. -/
def runPasses (env : Env size) : ℕ → List DdCommand → List (DdCommand × DdPass size) × Bool
  | _, [] => ([],true)
  | i, c :: cs =>
    let pass := env.dd i c
    if pipelineStatus [pass.status,teeStatus] = 0 then
      let rest := runPasses env (i + 1) cs
      ((c,pass) :: rest.1,rest.2)
    else ([(c,pass)],false)

def externalWipe (commands : List DdCommand) (verification : Sampled) (env : Env size) : Outcome size :=
  let passes := runPasses env 0 commands
  if passes.2 then ⟨passes.1,verification.passed.map fun passed => if passed then 0 else 1⟩
  else ⟨passes.1,some 1⟩

def executeBasicExternalWipe (env : Env size) : Outcome size :=
  externalWipe [⟨.zero,"16M"⟩] ⟨[],some true⟩ env

def executeStandardExternalWipe (env : Env size) : Outcome size :=
  externalWipe [⟨.zero,"16M"⟩] (standardVerification env.getsz env.probe) env

def executeEnhancedExternalWipe (env : Env size) : Outcome size :=
  externalWipe [⟨.urandom,"8M"⟩,⟨.zero,"16M"⟩,⟨.pattern55,"16M"⟩]
    (enhancedVerification env.getsz env.probe) env

inductive Wipe
  | secureOverwrite (pattern blockSize : String)
  | basicExternal
  | standardExternal
  | enhancedExternal

namespace Wipe

def run : Wipe → Env size → Outcome size
  | secureOverwrite pattern blockSize => executeSecureOverwrite pattern blockSize
  | basicExternal => executeBasicExternalWipe
  | standardExternal => executeStandardExternalWipe
  | enhancedExternal => executeEnhancedExternalWipe

def commands : Wipe → List DdCommand
  | secureOverwrite pattern blockSize => [overwriteCommand pattern blockSize]
  | basicExternal | standardExternal => [⟨.zero,"16M"⟩]
  | enhancedExternal => [⟨.urandom,"8M"⟩,⟨.zero,"16M"⟩,⟨.pattern55,"16M"⟩]

end Wipe

/-- What the passes do on the device, whatever their status. -/
def passOutcomes (env : Env size) (i : ℕ) (commands : List DdCommand) : List (DdCommand × DdPass size) :=
  commands.mapIdx fun j c => (c,env.dd (i + j) c)

/-- A sample of an external wipe is not accepted: the size is known, and drawing a sector
divides by zero or one of the samples fails its test. -/
def SampleRejected (test : Readback → Bool) (samples : ℕ) (env : Env size) : Prop :=
  ∃ sectors, env.getsz = some sectors ∧ 0 < sectors ∧ (sectors = 100 ∨ ∃ i < samples,
    test (env.probe.read i (((env.probe.random i).val : ℤ).tmod (sectors - 100) + 50)) = false)

def Wipe.Rejected : Wipe → Env size → Prop
  | .secureOverwrite _ _, _ | .basicExternal, _ => False
  | .standardExternal, env => SampleRejected standardExternalTest 20 env
  | .enhancedExternal, env => SampleRejected enhancedExternalTest 30 env

/-- The status of `tee` hides that of `dd`, so every pass is run and none is seen to fail. -/
theorem runPasses_eq (env : Env size) (commands : List DdCommand) (i : ℕ) :
    runPasses env i commands = (passOutcomes env i commands,true) := by
  induction commands generalizing i with
  | nil => rfl
  | cons c cs ih =>
    have htee : pipelineStatus [(env.dd i c).status,teeStatus] = 0 := rfl
    have hshift : ∀ j, i + 1 + j = i + (j + 1) := fun j => by omega
    rw [runPasses,if_pos htee,ih,passOutcomes,passOutcomes,List.mapIdx_cons]
    simp only [hshift,Nat.add_zero]

theorem externalWipe_eq (commands : List DdCommand) (verification : Sampled) (env : Env size) :
    externalWipe commands verification env = ⟨passOutcomes env 0 commands,
      verification.passed.map fun passed => if passed then 0 else 1⟩ := by
  rw [externalWipe,runPasses_eq]
  rfl

theorem run_passes (w : Wipe) (env : Env size) : (w.run env).passes = passOutcomes env 0 w.commands := by
  cases w with
  | secureOverwrite pattern blockSize => rfl
  | basicExternal => exact congrArg Outcome.passes (externalWipe_eq _ _ env)
  | standardExternal => exact congrArg Outcome.passes (externalWipe_eq _ _ env)
  | enhancedExternal => exact congrArg Outcome.passes (externalWipe_eq _ _ env)

theorem externalWipe_status (commands : List DdCommand) (verification : Sampled) (env : Env size) :
    (externalWipe commands verification env).status = some 0 ↔ verification.passed = some true := by
  rw [externalWipe_eq]
  rcases verification.passed with _ | (_ | _) <;> simp

theorem externalVerification_passed (test : Readback → Bool) (n : ℕ) (hn : 0 < n) (env : Env size) :
    (externalVerification test n env.getsz env.probe).passed = some true ↔ ¬SampleRejected test n env := by
  unfold externalVerification SampleRejected
  cases hsz : env.getsz with
  | none => simp
  | some sectors =>
    rcases Nat.eq_zero_or_pos sectors with rfl | hpos
    · simp
    · rw [Option.getD_some]
      dsimp only
      rw [if_pos hpos,sampleUntil_passed]
      by_cases h100 : sectors = 100
      · subst h100
        have hnone : ∀ r, pickSector 100 50 ((100 : ℕ) : ℤ) r = none := fun r => rfl
        simp only [hnone]
        simpa using ⟨0,hn⟩
      · have hsome : ∀ r : Fin 32768, pickSector 100 50 (sectors : ℤ) r =
            some ((r.val : ℤ).tmod (sectors - 100) + 50) := fun r => if_neg (by omega)
        simp [hsome,hpos,h100]

/-- A wipe function returns 0 exactly if no sample of its own is rejected. -/
theorem run_status (w : Wipe) (env : Env size) : (w.run env).status = some 0 ↔ ¬w.Rejected env := by
  cases w with
  | secureOverwrite pattern blockSize => exact ⟨fun _ h => h,fun _ => rfl⟩
  | basicExternal => exact (externalWipe_status _ _ env).trans ⟨fun _ h => h,fun _ => rfl⟩
  | standardExternal =>
    exact (externalWipe_status _ _ env).trans (externalVerification_passed _ 20 (by norm_num) env)
  | enhancedExternal =>
    exact (externalWipe_status _ _ env).trans (externalVerification_passed _ 30 (by norm_num) env)

/-- A wipe reports success only if all the passes it ran wrote the whole device. -/
def Wipe.SuccessSound (w : Wipe) (env : Env size) : Prop :=
  (w.run env).status = some 0 → ∀ p ∈ (w.run env).passes, p.2.WroteWhole

/-- Success of a wipe means that the whole device was written exactly if the passes did write it
all, whatever their status, or a sample read back is rejected. -/
theorem wipe_success_sound (w : Wipe) (env : Env size) : w.SuccessSound env ↔
    (∀ i (h : i < w.commands.length), (env.dd i w.commands[i]).WroteWhole) ∨ w.Rejected env := by
  have hwhole : (∀ p ∈ passOutcomes env 0 w.commands, p.2.WroteWhole) ↔
      ∀ i (h : i < w.commands.length), (env.dd i w.commands[i]).WroteWhole := by
    constructor
    · intro h i hi
      exact h (w.commands[i],env.dd i w.commands[i]) (List.mem_mapIdx.mpr ⟨i,hi,by rw [Nat.zero_add]⟩)
    · intro h p hp
      obtain ⟨i,hi,rfl⟩ := List.mem_mapIdx.mp hp
      simpa using h i hi
  rw [Wipe.SuccessSound,run_passes,run_status,hwhole]
  tauto

local instance drawIndex : NeZero 32768 := ⟨by decide⟩

/-- A device of one mebibyte whose last sector cannot be written: every pass stops there with an
I/O error, the sectors before it hold the byte `v` and the last one its old data. -/
def tornDisk (v : UInt8) : Env 1048576 where
  dd _ _ := ⟨1048064,.ioError,by norm_num,nofun⟩
  getsz := some 2048
  probe := ⟨fun _ => 0,fun _ s => some fun _ => if s < 2047 then v else 0xff⟩

/-- A success on the torn disk is not sound, since no pass reached the end of the device. -/
theorem tornDisk_unsound {w : Wipe} {v : UInt8} (h : (w.run (tornDisk v)).status = some 0) :
    ¬w.SuccessSound (tornDisk v) := by
  intro hsound
  have hpasses := hsound h
  rw [run_passes] at hpasses
  have hcut : ∀ p ∈ passOutcomes (tornDisk v) 0 w.commands, ¬p.2.WroteWhole := by
    intro p hp hwhole
    obtain ⟨i,hi,rfl⟩ := List.mem_mapIdx.mp hp
    cases hwhole
  cases w with
  | secureOverwrite pattern blockSize => exact hcut _ (List.mem_cons_self ..) (hpasses _ (List.mem_cons_self ..))
  | basicExternal => exact hcut _ (List.mem_cons_self ..) (hpasses _ (List.mem_cons_self ..))
  | standardExternal => exact hcut _ (List.mem_cons_self ..) (hpasses _ (List.mem_cons_self ..))
  | enhancedExternal => exact hcut _ (List.mem_cons_self ..) (hpasses _ (List.mem_cons_self ..))

theorem tornDisk_accepted {v : UInt8} {test : Readback → Bool} (htest : test (some fun _ => v) = true) (n : ℕ) :
    ¬SampleRejected test n (tornDisk v) := by
  rintro ⟨sectors,hsz,_,h⟩
  obtain rfl : 2048 = sectors := Option.some.inj hsz
  have hsector : (fun _ => if (50 : ℤ) < 2047 then v else 0xff : Hexdump.Sector) = fun _ => v :=
    funext fun _ => if_pos (by norm_num)
  have hpick : ((0 : Fin 32768).val : ℤ).tmod (((2048 : ℕ) : ℤ) - 100) + 50 = 50 := rfl
  rcases h with h | ⟨i,_,h⟩
  · cases h
  · dsimp only [tornDisk] at h
    rw [hpick,hsector,htest] at h
    cases h

/-- All four functions report success on the torn disk. -/
theorem wipe_success_torn_disk :
    (∀ pattern blockSize, ¬(Wipe.secureOverwrite pattern blockSize).SuccessSound (tornDisk 0)) ∧
      ¬Wipe.basicExternal.SuccessSound (tornDisk 0) ∧ ¬Wipe.standardExternal.SuccessSound (tornDisk 0) ∧
      ¬Wipe.enhancedExternal.SuccessSound (tornDisk 0x55) := by
  refine ⟨fun pattern blockSize => tornDisk_unsound ((run_status _ _).mpr id),
    tornDisk_unsound ((run_status _ _).mpr id),tornDisk_unsound ((run_status _ _).mpr ?_),
    tornDisk_unsound ((run_status _ _).mpr ?_)⟩
  · refine tornDisk_accepted ?_ 20
    rw [standardExternalTest,zeroBytes_eq,grepQ_sectorDump]
    exact ⟨0,Hexdump.hasGroup_row (fun _ => rfl) 0⟩
  · exact tornDisk_accepted ((enhancedExternalTest_iff _).mpr (Hexdump.hasGroup_row (fun _ => rfl) 0)) 30

end SecureWipeOut.Wipes
