import SecureWipeOut.Drive.ToggleEsp

/-! # Toggling an ESP there and back

The way back clears the setting whose number is the place of the partition in the
layout, not the one the partition was found in. The layout is restored when the search
ends at the partition that was turned, the settings when the two numbers agree.
-/
namespace SecureWipeOut.ToggleEsp
open HexFormat

theorem stringToGuid_guidToString (g : Guid) : stringToGuid (guidToString g) = some g := by
  have h1 : g.data1.toNat < 16 ^ 8 := by simpa using g.data1.toNat_lt
  have h2 : g.data2.toNat < 16 ^ 4 := by simpa using g.data2.toNat_lt
  have h3 : g.data3.toNat < 16 ^ 4 := by simpa using g.data3.toNat_lt
  have h4 : ∀ i, (g.data4 i).toNat < 16 ^ 2 := fun i => by simpa using (g.data4 i).toNat_lt
  have hdata4 : ∀ i : Fin 8, UInt8.ofNat ([(g.data4 0).toNat,(g.data4 1).toNat,(g.data4 2).toNat,
      (g.data4 3).toNat,(g.data4 4).toNat,(g.data4 5).toNat,(g.data4 6).toNat,
      (g.data4 7).toNat].getD i 0) = g.data4 i := by
    intro i
    fin_cases i <;> simp
  have hbyte := fun i => bind_scanHex (β := Guid) (le_refl 2) (by decide) (h4 i)
  rw [guidToString,stringToGuid]
  simp only [List.cons_append,List.append_assoc]
  refine (bind_scanChar '{' _ _).trans ((bind_scanHex (by decide) (by decide) h1 _ _).trans ?_)
  refine (bind_scanChar '-' _ _).trans ((bind_scanHex (by decide) (by decide) h2 _ _).trans ?_)
  refine (bind_scanChar '-' _ _).trans ((bind_scanHex (by decide) (by decide) h3 _ _).trans ?_)
  refine (bind_scanChar '-' _ _).trans ((hbyte 0 _ _).trans ((hbyte 1 _ _).trans ?_))
  refine (bind_scanChar '-' _ _).trans ((hbyte 2 _ _).trans ((hbyte 3 _ _).trans ?_))
  refine (hbyte 4 _ _).trans ((hbyte 5 _ _).trans ((hbyte 6 _ _).trans ((hbyte 7 _ _).trans ?_)))
  simp only [hdata4,UInt32.ofNat_toNat,UInt16.ofNat_toNat,Option.pure_def]

theorem guidToString_ne_nil (g : Guid) : guidToString g ≠ [] := by
  simp [guidToString]

/-- The partition a setting leads to. -/
def locate (d : DriveLayout) (s : Settings) (i : ℕ) : Option ℕ :=
  (getEspGuid s i).bind fun g => d.entries.findIdx? fun p => guidOf d p = some g

theorem searchEntries_eq (d : DriveLayout) (g : Guid) (ps : List PartitionEntry) (j : ℕ) :
    searchEntries d g ps j =
      match ps.findIdx? (fun p => guidOf d p = some g) with
      | some n => (some (j + n),j + n + 1)
      | none => (none,j + ps.length) := by
  induction ps generalizing j with
  | nil => rfl
  | cons p ps ih =>
    rw [searchEntries]
    by_cases hp : guidOf d p = some g
    · simp [hp,List.findIdx?_cons]
    · rw [if_neg hp,ih (j + 1),List.findIdx?_cons]
      cases h : ps.findIdx? (fun p => guidOf d p = some g) with
      | none => simp [hp]; omega
      | some n => simp [hp]; omega

theorem searchSlots_eq (d : DriveLayout) (s : Settings) (is : List ℕ) :
    searchSlots d s is = (is.findSome? (locate d s)).map fun e => (e,e + 1) := by
  induction is with
  | nil => rfl
  | cons i is ih =>
    rw [searchSlots,List.findSome?_cons,locate]
    cases getEspGuid s i with
    | none => simpa using ih
    | some g =>
      simp only [Option.bind_some,searchEntries_eq]
      cases d.entries.findIdx? (fun p => guidOf d p = some g) with
      | none => simpa using ih
      | some n => simp

/-- Exactly one partition of the layout is an ESP. -/
structure OneEsp (d : DriveLayout) (e : ℕ) : Prop where
  lt : e < d.entries.length
  iff : ∀ i p, d.entries[i]? = some p → (isEsp d.style p = true ↔ i = e)

section entries

theorem findIdx?_modify {α : Type} {q : α → Bool} {f : α → α} (h : ∀ x, q (f x) = q x)
    (l : List α) (e : ℕ) : (l.modify e f).findIdx? q = l.findIdx? q := by
  induction l generalizing e with
  | nil => simp
  | cons x l ih =>
    cases e with
    | zero => simp [List.findIdx?_cons,h]
    | succ e => simp [List.findIdx?_cons,ih]

@[simp] theorem guidOf_setBasicData (d : DriveLayout) (boot : UInt64 → Option (List Char))
    (p : PartitionEntry) : guidOf d (setBasicData d.style boot p) = guidOf d p := by
  cases h : d.style <;> simp [guidOf,setBasicData,h]

theorem locate_setBasicData (d : DriveLayout) (boot : UInt64 → Option (List Char)) (s : Settings)
    (e i : ℕ) : locate (setEntry d e (setBasicData d.style boot)) s i = locate d s i := by
  cases hg : getEspGuid s i with
  | none => simp [locate,hg]
  | some g =>
    simp only [locate,hg,Option.bind_some]
    have hpred : ∀ p, decide (guidOf d (setBasicData d.style boot p) = some g) =
        decide (guidOf d p = some g) := by
      intro p
      rw [guidOf_setBasicData]
    exact findIdx?_modify hpred d.entries e

theorem fatType_ne_esp (buf : Option (List Char)) : fatType buf ≠ 0xef := by
  have htypes : ∀ f ∈ fatMbrTypes, f.mbrType ≠ 0xef := by decide
  cases buf with
  | none => decide
  | some buf =>
    rw [fatType]
    simp only [List.foldl_cons,List.foldl_nil]
    split
    · next f hf => exact htypes f (List.mem_of_find?_eq_some hf)
    · split
      · next f hf => exact htypes f (List.mem_of_find?_eq_some hf)
      · decide

theorem isEsp_setBasicData (style : PartitionStyle) (boot : UInt64 → Option (List Char))
    (p : PartitionEntry) : isEsp style (setBasicData style boot p) = false := by
  cases style with
  | mbr => simp [isEsp,setBasicData,fatType_ne_esp]
  | gpt => simp [isEsp,setBasicData]; decide
  | raw => simp [isEsp]

theorem setEsp_setBasicData {style : PartitionStyle} {p : PartitionEntry}
    (h : isEsp style p = true) (boot : UInt64 → Option (List Char)) :
    setEsp style (setBasicData style boot p) = p := by
  cases style with
  | mbr =>
    obtain ⟨_,_,_,_⟩ := p
    simp_all [isEsp,setBasicData,setEsp]
  | gpt =>
    obtain ⟨_,_,_,_⟩ := p
    simp_all [isEsp,setBasicData,setEsp]
  | raw => simp [isEsp] at h

end entries

section toggles
variable {s : State} {e k : ℕ} (boot : UInt64 → Option (List Char))

/-- Every call on the system succeeds. -/
def allOk : Calls := ⟨true,true,true,true,true,boot⟩

/-- The settings a first toggle leaves. -/
def storedAt (s : Settings) (k : ℕ) (g : Guid) : Settings :=
  { s with slot := Function.update s.slot k (guidToString g) }

theorem findIdx?_esp {d : DriveLayout} (he : OneEsp d e) :
    d.entries.findIdx? (isEsp d.style) = some e := by
  rw [List.findIdx?_eq_some_iff_getElem]
  refine ⟨he.lt,(he.iff e _ (List.getElem?_eq_getElem he.lt)).mpr rfl,fun j hj => ?_⟩
  have hlt : j < d.entries.length := hj.trans he.lt
  intro h
  exact hj.ne ((he.iff j _ (List.getElem?_eq_getElem hlt)).mp h)

theorem OneEsp.guid {d : DriveLayout} (he : OneEsp d e) :
    ∃ p g, d.entries[e]? = some p ∧ isEsp d.style p = true ∧ guidOf d p = some g := by
  have hp := List.getElem?_eq_getElem he.lt
  have hesp := (he.iff e _ hp).mpr rfl
  cases hstyle : d.style with
  | mbr => exact ⟨_,_,hp,hstyle ▸ hesp,by simp only [guidOf,hstyle]; rfl⟩
  | gpt => exact ⟨_,_,hp,hstyle ▸ hesp,by simp only [guidOf,hstyle]; rfl⟩
  | raw => simp [isEsp,hstyle] at hesp

theorem storeEspInfo_free {s : Settings} (hk : slots.find? (fun j => s.slot j = []) = some k)
    (g : Guid) : storeEspInfo s g = (true,storedAt s k g) := by
  simp [storeEspInfo,hk,writeSettingStr,guidToString_ne_nil,storedAt]

/-- The first toggle turns the ESP into basic data and fills the free setting. -/
theorem toggleEsp_there (he : OneEsp s.layout e) {p : PartitionEntry} {g : Guid}
    (hp : s.layout.entries[e]? = some p) (hg : guidOf s.layout p = some g)
    (hk : slots.find? (fun j => s.settings.slot j = []) = some k) :
    toggleEsp (allOk boot) s 0 =
      (true,⟨setEntry s.layout e (setBasicData s.layout.style boot),storedAt s.settings k g⟩) := by
  simp [toggleEsp,allOk,findIdx?_esp he,hp,hg,storeEspInfo_free hk,writeLayout]

theorem findIdx?_esp_there {d : DriveLayout} (he : OneEsp d e) :
    (setEntry d e (setBasicData d.style boot)).entries.findIdx? (isEsp d.style) = none := by
  rw [List.findIdx?_eq_none_iff]
  intro p hp
  obtain ⟨i,hi⟩ := List.getElem?_of_mem hp
  rw [setEntry,List.getElem?_modify] at hi
  by_cases hei : e = i
  · obtain ⟨q,-,rfl⟩ := Option.map_eq_some_iff.mp hi
    rw [if_pos hei]
    exact isEsp_setBasicData d.style boot q
  · obtain ⟨q,hq,rfl⟩ := Option.map_eq_some_iff.mp hi
    rw [if_neg hei]
    by_contra h
    rw [Bool.not_eq_false] at h
    exact hei ((he.iff i q hq).mp h).symm

/-- The second toggle turns the partition found into an ESP and clears a setting. -/
theorem toggleEsp_back (he : OneEsp s.layout e) (t : Settings) {f : ℕ}
    (hf : slots.findSome? (locate s.layout t) = some f) :
    toggleEsp (allOk boot) ⟨setEntry s.layout e (setBasicData s.layout.style boot),t⟩ 0 =
      (true,⟨setEntry (setEntry s.layout e (setBasicData s.layout.style boot)) f
        (setEsp s.layout.style),(clearEspInfo t (f + 1)).2⟩) := by
  have hnone := findIdx?_esp_there boot he
  have hlocate : locate (setEntry s.layout e (setBasicData s.layout.style boot)) t =
      locate s.layout t := funext (locate_setBasicData s.layout boot t e)
  have hsearch : searchSlots (setEntry s.layout e (setBasicData s.layout.style boot)) t slots =
      some (f,f + 1) := by
    rw [searchSlots_eq,hlocate,hf,Option.map_some]
  have hstyle : (setEntry s.layout e (setBasicData s.layout.style boot)).style = s.layout.style := rfl
  simp only [toggleEsp,allOk,hstyle,hnone,hsearch,writeLayout]
  simp

theorem setEntry_setEntry_iff {d : DriveLayout} (he : OneEsp d e) {f : ℕ} :
    setEntry (setEntry d e (setBasicData d.style boot)) f (setEsp d.style) = d ↔ f = e := by
  obtain ⟨p,g,hp,hesp,-⟩ := he.guid
  constructor
  · intro h
    by_contra hfe
    have hentry : (setEntry (setEntry d e (setBasicData d.style boot)) f
        (setEsp d.style)).entries[e]? = some (setBasicData d.style boot p) := by
      simp [setEntry,hfe,hp]
    rw [h,hp,Option.some_inj] at hentry
    have := isEsp_setBasicData d.style boot p
    rw [← hentry,hesp] at this
    cases this
  · rintro rfl
    have hentries : ((d.entries.modify f (setBasicData d.style boot)).modify f (setEsp d.style)) =
        d.entries := by
      refine List.ext_getElem? fun i => ?_
      rw [List.getElem?_modify,List.getElem?_modify]
      by_cases hi : f = i
      · subst hi
        simp [hp,setEsp_setBasicData hesp]
      · simp [hi]
    simp only [setEntry,hentries]

/-- Two toggles succeed and leave the layout and the settings as they were. -/
def RoundTrip (c : Calls) (s : State) : Prop :=
  let there := toggleEsp c s 0
  let back := toggleEsp c there.2 0
  there.1 = true ∧ back.1 = true ∧ back.2.layout = s.layout ∧
    ∀ i ∈ slots, back.2.settings.slot i = s.settings.slot i

/-- The search of the way back ends at partition e, whose data is kept in setting k: none
before it has its guid, and no setting before the first with that guid leads anywhere. -/
structure FoundFirst (d : DriveLayout) (s : Settings) (e k : ℕ) : Prop where
  entry : ∀ j < e, d.entries[j]?.bind (guidOf d) ≠ d.entries[e]?.bind (guidOf d)
  slot : ∃ i ≤ k, 1 ≤ i ∧ (i = k ∨ getEspGuid s i = d.entries[e]?.bind (guidOf d)) ∧
    ∀ i', 1 ≤ i' → i' < i → ∀ p ∈ d.entries, getEspGuid s i' ≠ guidOf d p

theorem findSome?_range' {α : Type} (f : ℕ → Option α) (b : α) (a n : ℕ) :
    (List.range' a n).findSome? f = some b ↔
      ∃ i, a ≤ i ∧ i < a + n ∧ f i = some b ∧ ∀ i', a ≤ i' → i' < i → f i' = none := by
  induction n generalizing a with
  | zero =>
    simp only [List.range'_zero,List.findSome?_nil,reduceCtorEq,false_iff]
    rintro ⟨i,_,_,_⟩
    omega
  | succ n ih =>
    rw [List.range'_succ,List.findSome?_cons]
    cases hf : f a with
    | none =>
      simp only
      rw [ih (a + 1)]
      constructor
      · rintro ⟨i,hai,hin,hfi,hbefore⟩
        refine ⟨i,by omega,by omega,hfi,fun i' hai' hi' => ?_⟩
        rcases hai'.eq_or_lt with rfl | hlt
        · exact hf
        · exact hbefore i' hlt hi'
      · rintro ⟨i,hai,hin,hfi,hbefore⟩
        have hne : a ≠ i := by
          rintro rfl
          simp [hf] at hfi
        exact ⟨i,by omega,by omega,hfi,fun i' hai' hi' => hbefore i' (by omega) hi'⟩
    | some c =>
      constructor
      · intro h
        exact ⟨a,le_rfl,by omega,by rw [hf]; exact h,fun i' h₁ h₂ => absurd h₁ (by omega)⟩
      · rintro ⟨i,hai,hin,hfi,hbefore⟩
        rcases hai.eq_or_lt with rfl | hlt
        · rw [hf] at hfi
          exact hfi
        · simp [hbefore a le_rfl hlt] at hf

theorem mem_slots_of_free {s : Settings} (hk : slots.find? (fun j => s.slot j = []) = some k) :
    (1 ≤ k ∧ k ≤ 8) ∧ s.slot k = [] := by
  have hmem := List.mem_of_find?_eq_some hk
  have hfree := List.find?_some hk
  rw [slots,maxEspToggle,List.mem_range'_1] at hmem
  exact ⟨⟨hmem.1,by omega⟩,by simpa using hfree⟩

theorem getEspGuid_storedAt (s : Settings) (g : Guid) {k : ℕ} (hk : k ≤ 8) :
    getEspGuid (storedAt s k g) k = some g := by
  have hmod : k % 256 = k := Nat.mod_eq_of_lt (by omega)
  simp [getEspGuid,storedAt,hmod,stringToGuid_guidToString]

theorem getEspGuid_storedAt_of_lt (s : Settings) (g : Guid) {i k : ℕ} (hk : k ≤ 8) (hi : i < k) :
    getEspGuid (storedAt s k g) i = getEspGuid s i := by
  have hmod : i % 256 = i := Nat.mod_eq_of_lt (by omega)
  simp [getEspGuid,storedAt,hmod,Function.update_of_ne hi.ne]

theorem guidOf_isSome {d : DriveLayout} {p : PartitionEntry} {g : Guid}
    (h : guidOf d p = some g) (q : PartitionEntry) : ∃ g', guidOf d q = some g' := by
  cases hstyle : d.style with
  | mbr => exact ⟨_,by simp only [guidOf,hstyle]; rfl⟩
  | gpt => exact ⟨_,by simp only [guidOf,hstyle]; rfl⟩
  | raw => simp [guidOf,hstyle] at h

theorem locate_eq_none_iff {d : DriveLayout} {p : PartitionEntry} {g : Guid}
    (hg : guidOf d p = some g) (s : Settings) (i : ℕ) :
    locate d s i = none ↔ ∀ q ∈ d.entries, getEspGuid s i ≠ guidOf d q := by
  cases hi : getEspGuid s i with
  | none =>
    simp only [locate,hi,Option.bind_none,true_iff]
    intro q _ h
    obtain ⟨g',hg'⟩ := guidOf_isSome hg q
    rw [hg'] at h
    cases h
  | some stored =>
    simp only [locate,hi,Option.bind_some,List.findIdx?_eq_none_iff,decide_eq_false_iff_not]
    exact forall₂_congr fun q _ => ne_comm

theorem locate_eq_some_iff {d : DriveLayout} {p : PartitionEntry} {g : Guid}
    (hp : d.entries[e]? = some p) (hg : guidOf d p = some g) (s : Settings) (i : ℕ) :
    locate d s i = some e ↔ getEspGuid s i = some g ∧
      ∀ j < e, d.entries[j]?.bind (guidOf d) ≠ some g := by
  have hlt : e < d.entries.length := (List.getElem?_eq_some_iff.mp hp).1
  have hget : d.entries[e] = p := (List.getElem?_eq_some_iff.mp hp).2
  have hentry : ∀ j (hj : j < e), d.entries[j]?.bind (guidOf d) = some g ↔
      decide (guidOf d (d.entries.get ⟨j,hj.trans hlt⟩) = some g) = true := by
    intro j hj
    rw [List.getElem?_eq_getElem (hj.trans hlt),Option.bind_some,decide_eq_true_iff,List.get_eq_getElem]
  rw [locate,Option.bind_eq_some_iff]
  constructor
  · rintro ⟨stored,hstored,hfind⟩
    rw [List.findIdx?_eq_some_iff_getElem] at hfind
    obtain ⟨_,he,hbefore⟩ := hfind
    rw [hget,decide_eq_true_iff,hg,Option.some_inj] at he
    subst he
    exact ⟨hstored,fun j hj h => hbefore j hj ((hentry j hj).mp h)⟩
  · rintro ⟨hstored,hbefore⟩
    refine ⟨g,hstored,List.findIdx?_eq_some_iff_getElem.mpr ⟨hlt,?_,fun j hj h => ?_⟩⟩
    · rw [hget,hg,decide_eq_true_iff]
    · exact hbefore j hj ((hentry j hj).mpr h)

/-- Which partition the way back finds, in terms of the settings before the first toggle. -/
theorem findSome?_locate_iff {d : DriveLayout} {s : Settings} {p : PartitionEntry} {g : Guid}
    (hp : d.entries[e]? = some p) (hg : guidOf d p = some g) (hk : 1 ≤ k ∧ k ≤ 8) :
    slots.findSome? (locate d (storedAt s k g)) = some e ↔ FoundFirst d s e k := by
  have hguid : d.entries[e]?.bind (guidOf d) = some g := by rw [hp,Option.bind_some,hg]
  have hstored := getEspGuid_storedAt s g hk.2
  have hlater : locate d (storedAt s k g) k ≠ none := by
    rw [Ne,locate_eq_none_iff hg,hstored]
    intro h
    exact h p (List.mem_of_getElem? hp) hg.symm
  have hearlier : ∀ i < k, getEspGuid (storedAt s k g) i = getEspGuid s i :=
    fun i hi => getEspGuid_storedAt_of_lt s g hk.2 hi
  rw [slots,maxEspToggle,findSome?_range']
  constructor
  · rintro ⟨i,hi1,_,hloc,hbefore⟩
    obtain ⟨hgi,hentry⟩ := (locate_eq_some_iff hp hg _ i).mp hloc
    have hik : i ≤ k := by
      by_contra h
      exact hlater (hbefore k hk.1 (by omega))
    refine ⟨fun j hj => hguid ▸ hentry j hj,i,hik,hi1,?_,fun i' h1 hi' => ?_⟩
    · rcases hik.eq_or_lt with rfl | hlt
      · exact Or.inl rfl
      · exact Or.inr (by rw [hguid,← hearlier i hlt,hgi])
    · rw [← hearlier i' (by omega)]
      exact (locate_eq_none_iff hg _ i').mp (hbefore i' h1 hi')
  · rintro ⟨hentry,i,hik,hi1,hslot,hbefore⟩
    have hgi : getEspGuid (storedAt s k g) i = some g := by
      rcases hik.eq_or_lt with rfl | hlt
      · exact hstored
      · rw [hearlier i hlt,← hguid]
        exact hslot.resolve_left hlt.ne
    refine ⟨i,hi1,by omega,(locate_eq_some_iff hp hg _ i).mpr ⟨hgi,fun j hj => hguid ▸ hentry j hj⟩,
      fun i' h1 hi' => ?_⟩
    rw [locate_eq_none_iff hg,hearlier i' (by omega)]
    exact hbefore i' h1 hi'

theorem findSome?_locate_isSome {d : DriveLayout} {s : Settings} {p : PartitionEntry} {g : Guid}
    (hp : d.entries[e]? = some p) (hg : guidOf d p = some g) (hk : 1 ≤ k ∧ k ≤ 8) :
    ∃ f, slots.findSome? (locate d (storedAt s k g)) = some f := by
  rw [← Option.isSome_iff_exists,List.findSome?_isSome_iff]
  refine ⟨k,by rw [slots,maxEspToggle,List.mem_range'_1]; omega,?_⟩
  rw [Option.isSome_iff_ne_none,Ne,locate_eq_none_iff hg,getEspGuid_storedAt s g hk.2]
  intro h
  exact h p (List.mem_of_getElem? hp) hg.symm

/-- The setting freed is the one used exactly when the numbers agree, in the registry. -/
theorem clearEspInfo_storedAt_iff {s : Settings} (g : Guid) (hk : k ∈ slots) (hfree : s.slot k = [])
    (j : ℕ) : (∀ i ∈ slots, (clearEspInfo (storedAt s k g) j).2.slot i = s.slot i) ↔
      s.store = .registry ∧ j % 256 = k := by
  constructor
  · intro h
    have hslot := h k hk
    rw [hfree,clearEspInfo,writeSettingStr] at hslot
    by_cases hini : s.store = .ini
    · simp [storedAt,hini,guidToString_ne_nil] at hslot
    · refine ⟨by cases hs : s.store <;> simp_all,?_⟩
      by_contra hne
      have hne' : k ≠ j % 256 := fun h => hne h.symm
      simp [storedAt,hini,hne',guidToString_ne_nil] at hslot
  · rintro ⟨hreg,rfl⟩ i _
    rw [clearEspInfo,writeSettingStr]
    by_cases hi : i = j % 256
    · subst hi
      simp [storedAt,hreg,hfree]
    · simp [storedAt,hreg,hi]

/-- Toggling twice restores layout and settings exactly when settings are in the registry,
the free setting has the number of the ESP in the layout, and the search finds the ESP. -/
theorem toggleEsp_roundTrip_iff (he : OneEsp s.layout e)
    (hk : slots.find? (fun j => s.settings.slot j = []) = some k) :
    RoundTrip (allOk boot) s ↔
      s.settings.store = .registry ∧ (e + 1) % 256 = k ∧ FoundFirst s.layout s.settings e k := by
  obtain ⟨p,g,hp,-,hg⟩ := he.guid
  obtain ⟨hk8,hfree⟩ := mem_slots_of_free hk
  obtain ⟨f,hf⟩ := findSome?_locate_isSome (s := s.settings) hp hg hk8
  have hfound := findSome?_locate_iff (s := s.settings) hp hg hk8
  rw [hf,Option.some_inj] at hfound
  have hclear := clearEspInfo_storedAt_iff g (List.mem_of_find?_eq_some hk) hfree (f + 1)
  simp only [RoundTrip,toggleEsp_there boot he hp hg hk,toggleEsp_back boot he _ hf,
    setEntry_setEntry_iff boot he,hclear,true_and]
  constructor
  · rintro ⟨rfl,hreg,hj⟩
    exact ⟨hreg,hj,hfound.mp rfl⟩
  · rintro ⟨hreg,hj,hfirst⟩
    obtain rfl := hfound.mpr hfirst
    exact ⟨rfl,hreg,hj⟩

end toggles

def noSettings : Settings := ⟨.registry,fun _ => []⟩

/-- A partition with the given type and the number n in its guid. -/
def gptEntry (type : Guid) (n : UInt32) : PartitionEntry := ⟨0,0,type,⟨n,0,0,fun _ => 0⟩⟩

def espFirst : State := ⟨⟨.gpt,0,[gptEntry partitionGenericEsp 1]⟩,noSettings⟩

def espSecond : State :=
  ⟨⟨.gpt,0,[gptEntry partitionMicrosoftData 1,gptEntry partitionGenericEsp 2]⟩,noSettings⟩

theorem oneEsp_espFirst : OneEsp espFirst.layout 0 where
  lt := by decide
  iff := by
    intro i p hp
    match i with
    | 0 =>
      obtain rfl := Option.some_inj.mp hp
      decide
    | i + 1 => simp [espFirst] at hp

theorem oneEsp_espSecond : OneEsp espSecond.layout 1 where
  lt := by decide
  iff := by
    intro i p hp
    match i with
    | 0 =>
      obtain rfl := Option.some_inj.mp hp
      decide
    | 1 =>
      obtain rfl := Option.some_inj.mp hp
      decide
    | i + 2 => simp [espSecond] at hp

theorem toggleEsp_roundTrip_first : OneEsp espFirst.layout 0 ∧
    slots.find? (fun j => espFirst.settings.slot j = []) = some 1 ∧
    RoundTrip (allOk fun _ => none) espFirst := by
  refine ⟨oneEsp_espFirst,by decide,(toggleEsp_roundTrip_iff _ oneEsp_espFirst (by decide)).mpr
    ⟨rfl,rfl,fun j hj => absurd hj (by omega),1,le_rfl,le_rfl,Or.inl rfl,fun i' h1 h2 => ?_⟩⟩
  omega

/-- The second partition is the ESP: setting 1 is filled, setting 2 is cleared. -/
theorem toggleEsp_clears_other : OneEsp espSecond.layout 1 ∧
    slots.find? (fun j => espSecond.settings.slot j = []) = some 1 ∧
    ¬ RoundTrip (allOk fun _ => none) espSecond := by
  refine ⟨oneEsp_espSecond,by decide,fun h => ?_⟩
  have hslot := h.2.2.2 1 (by decide)
  revert hslot
  decide +kernel

end SecureWipeOut.ToggleEsp
