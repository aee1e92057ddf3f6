import SecureWipeOut.Drive.ToggleEspRoundTrip

/-! # Toggling an ESP when calls fail

The settings are written before the layout, and several of them when none is free. A call
that fails in between leaves what was written until then.
-/
namespace SecureWipeOut.ToggleEsp

/-- A write that fails leaves the settings as they are. -/
def writeSettingStrWith (done : Bool) (s : Settings) (i : ℕ) (text : List Char) : Bool × Settings :=
  if done then writeSettingStr s i text else (false,s)

/-- What the writes of moving down return is not looked at. -/
def moveDownWith (ok : ℕ → Bool) (s : Settings) : Settings :=
  (List.range' 1 (maxEspToggle - 1)).foldl
    (fun s j => (writeSettingStrWith (ok (j - 1)) s j (s.slot (j + 1))).2) s

/-- The writes of one call are numbered from 0. -/
def storeEspInfoWith (ok : ℕ → Bool) (s : Settings) (g : Guid) : Bool × Settings :=
  match slots.find? (fun j => s.slot j = []) with
  | some j => writeSettingStrWith (ok 0) s j (guidToString g)
  | none => writeSettingStrWith (ok (maxEspToggle - 1)) (moveDownWith ok s) maxEspToggle
      (guidToString g)

def writeLayoutWith (c : Calls) (ok : ℕ → Bool) (s : State) (d : DriveLayout)
    (cleared : Option ℕ) : Bool × State :=
  if c.setLayout then
    (true,⟨d,match cleared with
      | some j => (writeSettingStrWith (ok 0) s.settings (j % 256) []).2
      | none => s.settings⟩)
  else (false,s)

/-- `toggleEsp` with an outcome for each single write of a setting. -/
def toggleEspWith (c : Calls) (ok : ℕ → Bool) (s : State) (partitionOffset : UInt64) :
    Bool × State :=
  let d := s.layout
  if partitionOffset = 0 ∧ c.windows10 = false then (false,s)
  else if c.open_ = false then (false,s)
  else if c.getLayout = false then (false,s)
  else if partitionOffset = 0 then
    match d.entries.findIdx? (isEsp d.style) with
    | some e =>
      match d.entries[e]?.bind (guidOf d) with
      | none => (false,s)
      | some g =>
        let stored := storeEspInfoWith ok s.settings g
        if stored.1 then
          writeLayoutWith c ok ⟨d,stored.2⟩ (setEntry d e (setBasicData d.style c.boot)) none
        else (false,⟨d,stored.2⟩)
    | none =>
      match searchSlots d s.settings slots with
      | some (e,j) => writeLayoutWith c ok s (setEntry d e (setEsp d.style)) (some j)
      | none => (false,s)
  else
    match d.entries.findIdx? (fun p => p.startingOffset = partitionOffset) with
    | some e => writeLayoutWith c ok s (setEntry d e (setEsp d.style)) none
    | none => (false,s)

section connection

theorem moveDownWith_none (s : Settings) : moveDownWith (fun _ => false) s = s := by
  simp [moveDownWith,writeSettingStrWith]

theorem moveDownWith_all (s : Settings) : moveDownWith (fun _ => true) s = moveDown s := by
  simp [moveDownWith,moveDown,writeSettingStrWith]

theorem storeEspInfoWith_none (s : Settings) (g : Guid) :
    storeEspInfoWith (fun _ => false) s g = (false,s) := by
  rw [storeEspInfoWith,moveDownWith_none]
  cases slots.find? (fun j => s.slot j = []) with
  | none => simp only [writeSettingStrWith,Bool.false_eq_true,if_false]
  | some j => simp only [writeSettingStrWith,Bool.false_eq_true,if_false]

theorem storeEspInfoWith_all (s : Settings) (g : Guid) :
    storeEspInfoWith (fun _ => true) s g = storeEspInfo s g := by
  rw [storeEspInfoWith,moveDownWith_all,storeEspInfo]
  cases slots.find? (fun j => s.slot j = []) with
  | none => simp only [writeSettingStrWith,if_true]
  | some j => simp only [writeSettingStrWith,if_true]

theorem storeEspInfo_fst (s : Settings) (g : Guid) : (storeEspInfo s g).1 = true := by
  rw [storeEspInfo]
  cases slots.find? (fun j => s.slot j = []) with
  | none => simp [writeSettingStr,guidToString_ne_nil]
  | some j => simp [writeSettingStr,guidToString_ne_nil]

/-- Where the writes all have one outcome, this is `toggleEsp`. -/
theorem toggleEspWith_const (c : Calls) (s : State) (partitionOffset : UInt64) :
    toggleEspWith c (fun _ => c.settings) s partitionOffset = toggleEsp c s partitionOffset := by
  have hlayout : ∀ s d cleared,
      writeLayoutWith c (fun _ => c.settings) s d cleared = writeLayout c s d cleared := by
    intro s d cleared
    cases cleared with
    | none => rfl
    | some j =>
      rw [writeLayoutWith,writeLayout]
      cases c.settings <;> rfl
  have hstored : ∀ d' g, (if (storeEspInfoWith (fun _ => c.settings) s.settings g).1 then
      writeLayoutWith c (fun _ => c.settings)
        ⟨s.layout,(storeEspInfoWith (fun _ => c.settings) s.settings g).2⟩ d' none
      else (false,⟨s.layout,(storeEspInfoWith (fun _ => c.settings) s.settings g).2⟩)) =
      if c.settings && (storeEspInfo s.settings g).1 then
        writeLayout c ⟨s.layout,(storeEspInfo s.settings g).2⟩ d' none
      else (false,s) := by
    intro d' g
    rw [hlayout]
    cases c.settings with
    | false => rw [storeEspInfoWith_none,Bool.false_and,if_neg Bool.false_ne_true,if_neg Bool.false_ne_true]
    | true => rw [storeEspInfoWith_all,Bool.true_and,storeEspInfo_fst,if_pos rfl,if_pos rfl]
  unfold toggleEspWith toggleEsp
  refine if_congr Iff.rfl rfl (if_congr Iff.rfl rfl (if_congr Iff.rfl rfl (if_congr Iff.rfl ?_ ?_)))
  · cases s.layout.entries.findIdx? (isEsp s.layout.style) with
    | some e =>
      cases hguid : s.layout.entries[e]?.bind (guidOf s.layout) with
      | none => simp only [hguid]
      | some g =>
        simp only [hguid]
        exact hstored _ g
    | none =>
      cases searchSlots s.layout s.settings slots with
      | none => rfl
      | some p => exact hlayout s _ _
  · cases s.layout.entries.findIdx? (fun p => p.startingOffset = partitionOffset) with
    | none => rfl
    | some e => exact hlayout s _ _

end connection

section atomic
variable {c : Calls} {ok : ℕ → Bool} {s : State}

/-- A call that returns false has changed neither the layout nor a setting. -/
def FailureAtomic (r : Bool × State) (s : State) : Prop :=
  r.1 = false → r.2.layout = s.layout ∧ ∀ i ∈ slots, r.2.settings.slot i = s.settings.slot i

/-- What a call puts in the settings, when it gets as far as that: the guid of the ESP. -/
def storing (c : Calls) (s : State) (partitionOffset : UInt64) : Option Guid :=
  if partitionOffset = 0 ∧ c.windows10 = true ∧ c.open_ = true ∧ c.getLayout = true then
    (s.layout.entries.find? (isEsp s.layout.style)).bind (guidOf s.layout)
  else none

/-- The write to a free setting fails or is followed by that of the layout. Without a free
setting the last write and the layout succeed, or no write that succeeds changes a text. -/
def SafeStore (c : Calls) (ok : ℕ → Bool) (s : Settings) (g : Guid) : Prop :=
  if ∃ j ∈ slots, s.slot j = [] then ok 0 = true → c.setLayout = true
  else (ok (maxEspToggle - 1) = true ∧ c.setLayout = true) ∨
    (∀ j ∈ List.range' 1 (maxEspToggle - 1), ok (j - 1) = true → s.slot (j + 1) = s.slot j) ∧
      (ok (maxEspToggle - 1) = true → guidToString g = s.slot maxEspToggle)

theorem writeSettingStrWith_slot (done : Bool) {s : Settings} {text : List Char} (h : text ≠ [])
    (i j : ℕ) : (writeSettingStrWith done s i text).2.slot j =
      if j = i ∧ done = true then text else s.slot j := by
  cases done with
  | false => simp [writeSettingStrWith]
  | true => simp [writeSettingStrWith,writeSettingStr,h,Function.update_apply]

theorem writeSettingStrWith_fst (done : Bool) {s : Settings} {text : List Char} (h : text ≠ [])
    (i : ℕ) : (writeSettingStrWith done s i text).1 = done := by
  cases done with
  | false => rfl
  | true => simp [writeSettingStrWith,writeSettingStr,h]

/-- The step of moving down: a setting gets the text of the next one as it was at first,
since the writes go up and each reads above what is written. -/
theorem moveDownWith_run (ok : ℕ → Bool) (s : Settings) (n : ℕ)
    (h : ∀ j ∈ List.range' 1 n, s.slot (j + 1) ≠ []) (i : ℕ) :
    ((List.range' 1 n).foldl (fun s j =>
      (writeSettingStrWith (ok (j - 1)) s j (s.slot (j + 1))).2) s).slot i =
      if i ∈ List.range' 1 n ∧ ok (i - 1) = true then s.slot (i + 1) else s.slot i := by
  induction n generalizing i with
  | zero => simp
  | succ n ih =>
    have hprev := ih fun j hj => h j (by rw [List.mem_range'_1] at hj ⊢; omega)
    have hread := hprev (1 + n + 1)
    rw [if_neg (by rw [List.mem_range'_1]; omega)] at hread
    have hne : s.slot (1 + n + 1) ≠ [] := h (1 + n) (by rw [List.mem_range'_1]; omega)
    rw [List.range'_1_concat,List.foldl_append,List.foldl_cons,List.foldl_nil,
      writeSettingStrWith_slot _ (by rw [hread]; exact hne),hread,hprev i]
    by_cases hi : i = 1 + n
    · subst hi
      simp [List.mem_range'_1]
    · simp [hi]

theorem moveDownWith_slot (ok : ℕ → Bool) {s : Settings} (h : ∀ j ∈ slots, s.slot j ≠ []) (i : ℕ) :
    (moveDownWith ok s).slot i =
      if i ∈ List.range' 1 (maxEspToggle - 1) ∧ ok (i - 1) = true then s.slot (i + 1)
      else s.slot i := by
  refine moveDownWith_run ok s _ (fun j hj => h (j + 1) ?_) i
  rw [slots,List.mem_range'_1]
  rw [List.mem_range'_1] at hj
  omega

/-- What the settings hold after a store without a free setting. -/
theorem storeEspInfoWith_full (ok : ℕ → Bool) {s : Settings} (h : ∀ j ∈ slots, s.slot j ≠ []) (g : Guid) :
    (storeEspInfoWith ok s g).1 = ok (maxEspToggle - 1) ∧
      ((∀ i ∈ slots, (storeEspInfoWith ok s g).2.slot i = s.slot i) ↔
        (∀ j ∈ List.range' 1 (maxEspToggle - 1), ok (j - 1) = true → s.slot (j + 1) = s.slot j) ∧
          (ok (maxEspToggle - 1) = true → guidToString g = s.slot maxEspToggle)) := by
  have hnone : slots.find? (fun j => s.slot j = []) = none := by
    simpa [List.find?_eq_none] using h
  have hne := guidToString_ne_nil g
  rw [storeEspInfoWith,hnone]
  refine ⟨writeSettingStrWith_fst _ hne _,?_⟩
  simp only [writeSettingStrWith_slot _ hne,moveDownWith_slot ok h]
  constructor
  · intro hall
    refine ⟨fun j hj hok => ?_,fun hok => ?_⟩
    · have hj' := List.mem_range'_1.mp hj
      have hslot := hall j (by rw [slots,List.mem_range'_1]; omega)
      rwa [if_neg (by omega),if_pos ⟨hj,hok⟩] at hslot
    · have hslot := hall maxEspToggle (by decide)
      rwa [if_pos ⟨rfl,hok⟩] at hslot
  · rintro ⟨hmoved,hlast⟩ i hi
    by_cases hi8 : i = maxEspToggle ∧ ok (maxEspToggle - 1) = true
    · rw [if_pos hi8,hi8.1]
      exact hlast hi8.2
    · rw [if_neg hi8]
      by_cases hi7 : i ∈ List.range' 1 (maxEspToggle - 1) ∧ ok (i - 1) = true
      · rw [if_pos hi7]
        exact hmoved i hi7.1 hi7.2
      · rw [if_neg hi7]

theorem storeEspInfoWith_free (ok : ℕ → Bool) {s : Settings} {j : ℕ}
    (hj : slots.find? (fun j => s.slot j = []) = some j) (g : Guid) :
    (storeEspInfoWith ok s g).1 = ok 0 ∧
      ((∀ i ∈ slots, (storeEspInfoWith ok s g).2.slot i = s.slot i) ↔ ok 0 = false) := by
  have hne := guidToString_ne_nil g
  have hfree := (mem_slots_of_free hj).2
  rw [storeEspInfoWith,hj]
  refine ⟨writeSettingStrWith_fst _ hne _,?_⟩
  simp only [writeSettingStrWith_slot _ hne]
  constructor
  · intro hall
    by_contra hok
    have hslot := hall j (List.mem_of_find?_eq_some hj)
    rw [if_pos ⟨rfl,by simpa using hok⟩,hfree] at hslot
    exact hne hslot
  · intro hok i _
    rw [if_neg (by simp [hok])]

/-- A store followed by the layout, in terms of the single writes. -/
theorem safeStore_iff (s : Settings) (g : Guid) :
    SafeStore c ok s g ↔
      (((storeEspInfoWith ok s g).1 = true ∧ c.setLayout = true) ∨
        ∀ i ∈ slots, (storeEspInfoWith ok s g).2.slot i = s.slot i) := by
  rw [SafeStore]
  cases hfind : slots.find? (fun j => s.slot j = []) with
  | some j =>
    obtain ⟨hfst,hslot⟩ := storeEspInfoWith_free ok hfind g
    have hfree := mem_slots_of_free hfind
    rw [if_pos ⟨j,List.mem_of_find?_eq_some hfind,hfree.2⟩,hfst,hslot]
    cases ok 0 <;> simp
  | none =>
    have hused : ∀ j ∈ slots, s.slot j ≠ [] := by
      simpa [List.find?_eq_none] using hfind
    obtain ⟨hfst,hslot⟩ := storeEspInfoWith_full ok hused g
    rw [if_neg (by simpa using hused),hfst,hslot]

theorem failureAtomic_writeLayoutWith (d : DriveLayout) (cleared : Option ℕ) :
    FailureAtomic (writeLayoutWith c ok s d cleared) s := by
  cases hset : c.setLayout with
  | false => simp [FailureAtomic,writeLayoutWith,hset]
  | true => simp [FailureAtomic,writeLayoutWith,hset]

theorem failureAtomic_unchanged : FailureAtomic (false,s) s :=
  fun _ => ⟨rfl,fun _ _ => rfl⟩

theorem failureAtomic_store_iff (g : Guid) (d : DriveLayout) :
    FailureAtomic (if (storeEspInfoWith ok s.settings g).1 then
        writeLayoutWith c ok ⟨s.layout,(storeEspInfoWith ok s.settings g).2⟩ d none
      else (false,⟨s.layout,(storeEspInfoWith ok s.settings g).2⟩)) s ↔
      SafeStore c ok s.settings g := by
  rw [safeStore_iff]
  cases hstored : (storeEspInfoWith ok s.settings g).1 with
  | false => simp [FailureAtomic]
  | true =>
    cases hset : c.setLayout with
    | false => simp [FailureAtomic,writeLayoutWith,hset]
    | true => simp [FailureAtomic,writeLayoutWith,hset]

end atomic

/-- Every call succeeds, apart from the one that writes the layout. -/
def layoutFails : Calls := ⟨true,true,true,false,true,fun _ => none⟩

end SecureWipeOut.ToggleEsp
