import SecureWipeOut.Loc.DialogStoreInvariant
import SecureWipeOut.Loc.LocTermination

/-! # Loading languages one after the other

A load hands the commands of a section to the store, which it clears without the hash table.
-/
namespace SecureWipeOut.Loc
open CText Htab

/-- What a load depends on, with the names in `control_id` as they are there. -/
structure LoadEnv extends Env where
  names : ∀ name id, controlId name = some id → Nameable name

/-- `loaded` means that there is a message table. -/
structure Session where
  loaded : Bool
  loc : LocState
  store : DialogStore

inductive Event
  | load (env : LoadEnv) (selected : ℕ)
  | reinit

/-- Whether a call of `get_loc_data_file` clears the dialog lists: there is a locale, and it is not
the default locale that has been loaded before. -/
def Session.clears (s : Session) (env : LoadEnv) (selected : ℕ) : Bool :=
  env.locales[selected]?.isSome && (!s.loaded || selected != 0)

def Session.load (fuel : ℕ) (env : LoadEnv) (selected : ℕ) (s : Session) : Option Session :=
  (getLocDataFile env.toEnv fuel (!s.loaded) selected s.loc).bind fun r =>
    if s.clears env selected then
      (r.2.dialog.foldlM (fun store e => DialogStore.addDialogCommand e.1 e.2 store) s.store.freeDialogList).map
        fun store => ⟨true,r.2,store⟩
    else some {s with loc := r.2}

def Session.reinit (s : Session) : Option Session :=
  s.store.reinitLocalization.map fun store => {s with loc := {s.loc with dialog := []}, store := store}

def Session.step (fuel : ℕ) (s : Session) : Event → Option Session
  | .load env selected => s.load fuel env selected
  | .reinit => s.reinit

/-- After `init_localization`. -/
def Session.start : Option Session :=
  DialogStore.unused.reinitLocalization.map fun store => ⟨false,⟨[],[],0⟩,store⟩

section Specification

/-- The dialog lists hold one command for each control of a dialog, the last one dispatched; a data
pointer refers to a linked command; and no command has been freed twice. -/
structure Session.Sound (s : Session) : Prop where
  last : ∀ d command control, ((s.store.lists d).filter fun x => x.cmd.isFor command control).map Linked.cmd =
    (lastFor s.loc.dialog d command control).toList
  linked : ∀ i address, s.store.data i = some address → s.store.linked address = true
  safe : s.store.misused = false

end Specification

section Loads
variable {env : LoadEnv} {fuel : ℕ}

theorem foldlM_keeps {α σ : Type} {f : σ → α → Option σ} {P : σ → Prop}
    (h : ∀ s a s', P s → f s a = some s' → P s') (as : List α) {s s' : σ} (hs : P s)
    (hrun : as.foldlM f s = some s') : P s' := by
  induction as generalizing s with
  | nil =>
    obtain rfl := Option.some.inj hrun
    exact hs
  | cons a as ih =>
    obtain ⟨s₁,hs₁,hrest⟩ := Option.bind_eq_some_iff.mp hrun
    exact ih (h s a s₁ hs hs₁) hrest

def AllAddable (st : LocState) : Prop := ∀ e ∈ st.dialog, Addable e

theorem dispatchControl_addable (isDefault : Bool) (lcmd : LocCmd) {st : LocState} (h : AllAddable st) :
    AllAddable (dispatchControl env.toEnv isDefault lcmd st) := by
  unfold dispatchControl
  dsimp only
  split
  · split
    · exact h
    · unfold addMessageCommand
      split
      · exact h
      · exact h
  · split
    next => exact h
    next id hid =>
      split
      · exact h
      · split
        · unfold addDialogCommand
          split
          · exact h
          next hguard =>
            rw [not_or,not_lt,not_le] at hguard
            intro e he
            rcases List.mem_append.mp he with he | he
            · exact h e he
            · rw [List.mem_singleton.mp he]
              exact ⟨hguard.1,hguard.2,env.names _ id hid⟩
        · split
          · exact h
          · exact h

theorem processLine_addable {isDefault : Bool} {load : Locale → LocState → Option LocState}
    (hload : ∀ l st st', AllAddable st → load l st = some st' → AllAddable st') {line : Buf} {st st' : LocState}
    (h : AllAddable st) (hline : processLine env.toEnv isDefault load line st = some st') : AllAddable st' := by
  unfold processLine at hline
  split at hline
  next =>
    obtain rfl := Option.some.inj hline
    exact h
  next lcmd hlcmd =>
    unfold dispatchLocCmd at hline
    split at hline
    · obtain rfl := Option.some.inj hline
      exact dispatchControl_addable isDefault lcmd h
    · obtain rfl := Option.some.inj hline
      exact dispatchControl_addable isDefault lcmd h
    · split at hline
      · obtain rfl := Option.some.inj hline
        exact h
      · split at hline
        · obtain rfl := Option.some.inj hline
          exact h
        · exact hload _ _ _ h hline
    · obtain rfl := Option.some.inj hline
      exact h

theorem loadSection_addable (isDefault : Bool) (fuel : ℕ) {l : Locale} {st : LocState} {r : Bool × LocState}
    (h : AllAddable st) (hrun : loadSection env.toEnv isDefault fuel l st = some r) : AllAddable r.2 := by
  induction fuel generalizing l st r with
  | zero => cases hrun
  | succ fuel ih =>
    rw [loadSection,readLoop_eq] at hrun
    obtain ⟨st',hst',rfl⟩ := Option.map_eq_some_iff.mp hrun
    refine foldlM_keeps (P := AllAddable) (fun s line s' hs hline => processLine_addable ?_ hs hline) _ h hst'
    intro l st st' hst hload
    obtain ⟨r,hr,rfl⟩ := Option.map_eq_some_iff.mp hload
    exact ih hst hr

theorem getLocDataFile_addable {first : Bool} {selected : ℕ} {st : LocState} {r : Bool × LocState}
    (h : AllAddable st) (hrun : getLocDataFile env.toEnv fuel first selected st = some r) : AllAddable r.2 := by
  have hcleared : ∀ st : LocState, AllAddable {st with dialog := []} := fun st e he => by cases he
  unfold getLocDataFile at hrun
  split at hrun
  next default locale hdefault hlocale =>
    obtain ⟨st₁,hst₁,hrest⟩ := Option.bind_eq_some_iff.mp hrun
    have h₁ : AllAddable st₁ := by
      split at hst₁
      · obtain ⟨r₁,hr₁,rfl⟩ := Option.map_eq_some_iff.mp hst₁
        exact loadSection_addable true fuel (hcleared st) hr₁
      · obtain rfl := Option.some.inj hst₁
        exact h
    split at hrest
    · obtain rfl := Option.some.inj hrest
      exact h₁
    · exact loadSection_addable false fuel (hcleared st₁) hrest
  next =>
    obtain rfl := Option.some.inj hrun
    exact h

theorem foldlM_mono {α σ : Type} {f g : σ → α → Option σ} (h : ∀ s a s', f s a = some s' → g s a = some s')
    (as : List α) {s s' : σ} (hrun : as.foldlM f s = some s') : as.foldlM g s = some s' := by
  induction as generalizing s with
  | nil => exact hrun
  | cons a as ih =>
    obtain ⟨s₁,hs₁,hrest⟩ := Option.bind_eq_some_iff.mp hrun
    exact Option.bind_eq_some_iff.mpr ⟨s₁,h s a s₁ hs₁,ih hrest⟩

theorem processLine_mono {env : Env} {isDefault : Bool} {load load' : Locale → LocState → Option LocState}
    (hload : ∀ l st st', load l st = some st' → load' l st = some st') {line : Buf} {st st' : LocState}
    (h : processLine env isDefault load line st = some st') : processLine env isDefault load' line st = some st' := by
  unfold processLine at h ⊢
  cases hcmd : getLocDataLine line with
  | none => rwa [hcmd] at h
  | some lcmd =>
    rw [hcmd] at h
    simp only at h ⊢
    unfold dispatchLocCmd at h ⊢
    cases hc : lcmd.command with
    | base =>
      rw [hc] at h
      dsimp only at h ⊢
      cases isDefault with
      | true => exact h
      | false =>
        cases hl : getLocaleFromName env (lcmd.txt.headD []) with
        | none => rwa [hl] at h
        | some locale =>
          rw [hl] at h
          exact hload locale st st' h
    | _ => rwa [hc] at h

/-- What a load gives does not depend on the fuel that covers it. -/
theorem loadSection_mono {env : Env} {isDefault : Bool} {fuel fuel' : ℕ} (hle : fuel ≤ fuel') {l : Locale}
    {st : LocState} {r : Bool × LocState} (h : loadSection env isDefault fuel l st = some r) :
    loadSection env isDefault fuel' l st = some r := by
  induction fuel generalizing fuel' l st r with
  | zero => cases h
  | succ fuel ih =>
    obtain ⟨more,rfl⟩ := Nat.exists_eq_add_of_le' (Nat.le_of_succ_le hle)
    obtain ⟨more,rfl⟩ : ∃ k, more = k + 1 := Nat.exists_eq_succ_of_ne_zero (by omega)
    rw [show more + 1 + fuel = more + fuel + 1 by omega,loadSection,readLoop_eq]
    rw [loadSection,readLoop_eq] at h
    obtain ⟨st',hst',rfl⟩ := Option.map_eq_some_iff.mp h
    refine Option.map_eq_some_iff.mpr ⟨st',foldlM_mono (fun s line s' => processLine_mono ?_) _ hst',rfl⟩
    intro l st st' hload
    obtain ⟨r,hr,rfl⟩ := Option.map_eq_some_iff.mp hload
    exact Option.map_eq_some_iff.mpr ⟨r,ih (Nat.le_add_left _ _) hr,rfl⟩

theorem getLocDataFile_mono {env : Env} {fuel fuel' : ℕ} (hle : fuel ≤ fuel') {first : Bool} {selected : ℕ}
    {st : LocState} {r : Bool × LocState} (h : getLocDataFile env fuel first selected st = some r) :
    getLocDataFile env fuel' first selected st = some r := by
  unfold getLocDataFile at h ⊢
  split at h
  · obtain ⟨st₁,hst₁,hrest⟩ := Option.bind_eq_some_iff.mp h
    refine Option.bind_eq_some_iff.mpr ⟨st₁,?_,?_⟩
    · split at hst₁
      next hfirst =>
        obtain ⟨r₁,hr₁,rfl⟩ := Option.map_eq_some_iff.mp hst₁
        rw [if_pos hfirst]
        exact Option.map_eq_some_iff.mpr ⟨r₁,loadSection_mono hle hr₁,rfl⟩
      next hfirst => rwa [if_neg hfirst]
    · split at hrest
      next hsel => rwa [if_pos hsel]
      next hsel =>
        rw [if_neg hsel]
        exact loadSection_mono hle hrest
  · exact h

theorem getLocDataFile_unique {env : Env} {fuel fuel' : ℕ} {first : Bool} {selected : ℕ} {st : LocState}
    {r r' : Bool × LocState} (h : getLocDataFile env fuel first selected st = some r)
    (h' : getLocDataFile env fuel' first selected st = some r') : r = r' := by
  have hmax := getLocDataFile_mono (le_max_left fuel fuel') h
  rw [getLocDataFile_mono (le_max_right fuel fuel') h'] at hmax
  exact (Option.some.inj hmax).symm

end Loads

end SecureWipeOut.Loc
