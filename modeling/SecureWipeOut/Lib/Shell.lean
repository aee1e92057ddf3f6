import Mathlib.Tactic

/-! # Commands of a script that stops at the first failure

A command changes the state of the script and leaves a status, or it ends the script.
Under `set -e` a status other than 0 ends the script as well, wherever the command is
not a condition. A status is a value of eight bits.
-/
namespace SecureWipeOut.Shell
variable {σ : Type*}

inductive Outcome (σ : Type*) where
  | status (code : ℕ) (s : σ)
  | exited (code : ℕ) (s : σ)

def Outcome.state : Outcome σ → σ
  | .status _ s => s
  | .exited _ s => s

abbrev Command (σ : Type*) := σ → Outcome σ

/-- A command that succeeds, with its effect. -/
def effect (f : σ → σ) : Command σ := fun s => .status 0 (f s)

/-- The builtin `return` of a function. -/
def returning (n : ℕ) : Command σ := fun s => .status (n % 256) s

/-- Two commands, one after the other, under `set -e`. -/
def andThen (c d : Command σ) : Command σ := fun s =>
  match c s with
  | .status 0 s => d s
  | .status (n + 1) s => .exited (n + 1) s
  | .exited n s => .exited n s

/-- A function's command whose result depends on the state before it. -/
def withState (f : σ → Command σ) : Command σ := fun s => f s s

section Rules
variable {c d : Command σ} {s s' : σ} {n : ℕ}

theorem andThen_of_success (h : c s = .status 0 s') : andThen c d s = d s' := by
  rw [andThen,h]

/-- A failing command ends the script with its status. -/
theorem andThen_of_failure (h : c s = .status n s') (hn : n ≠ 0) : andThen c d s = .exited n s' := by
  obtain ⟨m,rfl⟩ := Nat.exists_eq_succ_of_ne_zero hn
  rw [andThen,h]

theorem andThen_of_exited (h : c s = .exited n s') : andThen c d s = .exited n s' := by
  rw [andThen,h]

@[simp] theorem effect_andThen (f : σ → σ) (d : Command σ) (s : σ) : andThen (effect f) d s = d (f s) := rfl

end Rules

end SecureWipeOut.Shell
