import SecureWipeOut.Loc.DialogRuns

/-! # When the store of dialog commands is sound

A load clears the lists without the hash table, so the invariant is kept by the loads that find
the lists empty.
-/
namespace SecureWipeOut.Loc
open CText Htab

section Runs

/-- The controls that calls are for, with their dialogs and commands. -/
def controlsOf (calls : List (ℤ × LocCmd)) : Finset (ℤ × LocCommand × List Char) :=
  (calls.map fun e => (e.1,e.2.command,e.2.txt.headD [])).toFinset

/-- A load that clears the dialog lists finds them empty. -/
def Session.Fresh (s : Session) : Event → Prop
  | .load env selected => s.clears env selected = true → ∀ d, s.store.lists d = []
  | .reinit => True

/-- The section is for no more controls than the hash table was made for. -/
def Session.Room (s : Session) : Event → Prop
  | .load env selected => ∀ fuel r, getLocDataFile env.toEnv fuel (!s.loaded) selected s.loc = some r →
      (controlsOf r.2.dialog).card ≤ locHtabSize
  | .reinit => True

/-- The states of the runs in which every load finds the lists empty and the table large enough. -/
inductive Session.Reached : Session → Prop
  | start {s : Session} (h : Session.start = some s) : Reached s
  | step {s s' : Session} {e : Event} {fuel : ℕ} (hs : Reached s) (hfresh : s.Fresh e) (hroom : s.Room e)
      (h : s.step fuel e = some s') : Reached s'

theorem card_keysOf_le (calls : List (ℤ × LocCmd)) : (keysOf calls).card ≤ (controlsOf calls).card := by
  have himage : keysOf calls = (controlsOf calls).image fun t => keyText t.1.toNat ⟨t.2.1,[t.2.2],[],[]⟩ := by
    ext x
    simp only [keysOf,controlsOf,List.mem_toFinset,List.mem_map,Finset.mem_image]
    constructor
    · rintro ⟨e,he,rfl⟩
      exact ⟨_,⟨e,he,rfl⟩,keyText_congr (decide_eq_true ⟨rfl,rfl⟩)⟩
    · rintro ⟨_,⟨e,he,rfl⟩,rfl⟩
      exact ⟨e,he,keyText_congr (decide_eq_true ⟨rfl,rfl⟩)⟩
  rw [himage]
  exact Finset.card_image_le

theorem Kept.empty {store : DialogStore} {htab : HtabTable} (hlists : ∀ d, store.lists d = [])
    (hdata : ∀ i, store.data i = none) (hhtab : store.htab = htab) (hI : Inv htab ∅)
    (hsafe : store.misused = false) : Kept store [] := by
  have hnone : ∀ i, contents htab i = none := by
    intro i
    cases h : contents htab i with
    | none => rfl
    | some str => exact absurd ((hI.keys str).mpr ⟨i,h⟩) (Finset.notMem_empty str)
  refine ⟨by rw [hhtab]; exact hI,?_,?_,?_,?_,?_,hsafe⟩
  · intro d x hx
    rw [hlists] at hx
    cases hx
  · intro i a hi
    rw [hdata] at hi
    cases hi
  · intro i str hi
    rw [hhtab,hnone] at hi
    cases hi
  · intro d d' x y hx
    rw [hlists] at hx
    cases hx
  · intro d command control
    rw [hlists]
    rfl

/-- Clearing lists that are empty already leaves no data pointer behind. -/
theorem Kept.cleared {store : DialogStore} {calls : List (ℤ × LocCmd)} (h : Kept store calls)
    (hlists : ∀ d, store.lists d = []) : Kept store.freeDialogList [] := by
  have hdata : ∀ i, store.data i = none := by
    intro i
    cases hi : store.data i with
    | none => rfl
    | some a =>
      obtain ⟨d,x,hx,-⟩ := h.owner i a hi
      rw [hlists] at hx
      cases hx
  have hkeys : keysOf calls = ∅ := by
    refine Finset.eq_empty_of_forall_notMem fun str hstr => ?_
    obtain ⟨i,hi⟩ := (h.table.keys str).mp hstr
    obtain ⟨a,ha⟩ := h.filled i str hi
    rw [hdata] at ha
    cases ha
  exact Kept.empty (fun _ => rfl) hdata rfl (hkeys ▸ h.table) h.safe

theorem Kept.reinit {store : DialogStore} (hsafe : store.misused = false) :
    ∃ store', store.reinitLocalization = some store' ∧ Kept store' [] ∧ locHtabSize ≤ store'.htab.size := by
  obtain ⟨p,hcreate,hp,h5,hle,hlt⟩ :=
    htabCreate_spec (show 2 ^ 31 ≤ hashFuel from le_rfl) (show 3 ≤ locHtabSize by decide) (by decide)
  refine ⟨_,by rw [DialogStore.reinitLocalization,hcreate]; rfl,?_,hle⟩
  exact Kept.empty (fun _ => rfl) (fun _ => rfl) rfl (created_inv hp h5 hlt) hsafe

/-- What holds of every reached state. -/
structure Session.Good (s : Session) : Prop where
  kept : Kept s.store s.loc.dialog
  addable : AllAddable s.loc
  size : locHtabSize ≤ s.store.htab.size

theorem Session.Good.sound {s : Session} (h : s.Good) : s.Sound where
  last := h.kept.last
  linked i address hi := by
    obtain ⟨d,x,hx,haddress,-⟩ := h.kept.owner i address hi
    exact DialogStore.linked_eq_true_iff.mpr ⟨d,(h.kept.entry d x hx).1,x,hx,haddress⟩
  safe := h.kept.safe

variable {s s' : Session} {env : LoadEnv} {selected fuel : ℕ} {r : Bool × LocState}

/-- A load that does not clear the lists changes nothing. -/
theorem getLocDataFile_of_not_clears (hclears : s.clears env selected = false)
    (hrun : getLocDataFile env.toEnv fuel (!s.loaded) selected s.loc = some r) : r.2 = s.loc := by
  unfold getLocDataFile at hrun
  split at hrun
  next default locale hdefault hlocale =>
    simp only [Session.clears,hlocale,Option.isSome_some,Bool.true_and,Bool.or_eq_false_iff,
      Bool.not_eq_false',bne_eq_false_iff_eq] at hclears
    obtain ⟨hloaded,rfl⟩ := hclears
    rw [hloaded] at hrun
    simp only [Bool.not_true,Bool.false_eq_true,if_false,Option.bind_some,if_true] at hrun
    rw [← Option.some.inj hrun]
  next =>
    rw [← Option.some.inj hrun]

theorem Session.Good.load (h : s.Good) (hfresh : s.Fresh (.load env selected)) (hroom : s.Room (.load env selected))
    (hrun : getLocDataFile env.toEnv fuel (!s.loaded) selected s.loc = some r) :
    ∃ s', s.load fuel env selected = some s' ∧ s'.Good := by
  have haddable := getLocDataFile_addable h.addable hrun
  rw [Session.load,hrun,Option.bind_some]
  cases hclears : s.clears env selected with
  | false =>
    have hr := getLocDataFile_of_not_clears hclears hrun
    rw [if_neg Bool.false_ne_true,hr]
    exact ⟨s,rfl,h⟩
  | true =>
    have hkept := h.kept.cleared (hfresh hclears)
    have hcard : (keysOf ([] ++ r.2.dialog)).card ≤ s.store.freeDialogList.htab.size :=
      (card_keysOf_le _).trans ((hroom fuel r hrun).trans h.size)
    obtain ⟨store,hstore,hkept',hsize⟩ := hkept.addAll r.2.dialog haddable hcard
    rw [if_pos rfl,hstore]
    exact ⟨_,rfl,⟨hkept',haddable,h.size.trans hsize.ge⟩⟩

theorem Session.Good.reinit (h : s.Good) (hrun : s.reinit = some s') : s'.Good := by
  obtain ⟨store,hstore,hkept,hsize⟩ := Kept.reinit h.kept.safe
  rw [Session.reinit,hstore] at hrun
  obtain rfl := Option.some.inj hrun
  exact ⟨hkept,fun e he => absurd he List.not_mem_nil,hsize⟩

theorem Session.Reached.good (h : Reached s) : s.Good := by
  induction h with
  | start hstart =>
    obtain ⟨store,hstore,hkept,hsize⟩ := Kept.reinit (show DialogStore.unused.misused = false from rfl)
    rw [Session.start,hstore] at hstart
    obtain rfl := Option.some.inj hstart
    exact ⟨hkept,fun e he => absurd he List.not_mem_nil,hsize⟩
  | @step s s' e fuel hs hfresh hroom hstep ih =>
    cases e with
    | reinit => exact ih.reinit hstep
    | load env selected =>
      obtain ⟨r,hr,-⟩ := Option.bind_eq_some_iff.mp hstep
      obtain ⟨s₁,hs₁,hgood⟩ := ih.load hfresh hroom hr
      rw [Session.step,hs₁] at hstep
      obtain rfl := Option.some.inj hstep
      exact hgood

/-- A data pointer refers to a command that has been freed, or one was used that did. -/
def Dangling (store : DialogStore) : Prop :=
  store.misused = true ∨ ∃ i a, store.data i = some a ∧ a < store.fresh ∧ ∀ d, ∀ x ∈ store.lists d, x.address ≠ a

theorem Dangling.add {store store' : DialogStore} {index : ℤ} {lcmd : LocCmd} (h : Dangling store)
    (hadd : DialogStore.addDialogCommand index lcmd store = some store') : Dangling store' := by
  unfold DialogStore.addDialogCommand at hadd
  split at hadd
  · obtain rfl := Option.some.inj hadd
    exact h
  · obtain ⟨⟨i,htab⟩,-,rfl⟩ := Option.map_eq_some_iff.mp hadd
    have hnew : ∀ {lists : ℕ → List Linked} {a : ℕ}, a < store.fresh → (∀ d, ∀ x ∈ lists d, x.address ≠ a) →
        ∀ d, ∀ x ∈ Function.update lists index.toNat (⟨store.fresh,lcmd⟩ :: lists index.toNat) d, x.address ≠ a := by
      intro lists a ha hlists d x hx
      rw [Function.update_apply] at hx
      split at hx
      · rcases List.mem_cons.mp hx with rfl | hx
        · exact ha.ne'
        · exact hlists _ x hx
      · exact hlists d x hx
    by_cases hi : i = 0
    · simp only [hi,ne_eq,not_true_eq_false,if_false]
      rcases h with h | ⟨j,a,hj,ha,hlists⟩
      · exact Or.inl h
      · exact Or.inr ⟨j,a,hj,ha.trans (Nat.lt_succ_self _),hnew ha hlists⟩
    · simp only [ne_eq,hi,not_false_eq_true,if_true]
      rcases h with h | ⟨j,a,hj,ha,hlists⟩
      · exact Or.inl ((DialogStore.replace_misused _ i).trans (by rw [h,Bool.true_or]))
      · by_cases hji : j = i
        · -- The entry is the one that dangles: its command is freed once more.
          have hunlinked : store.linked a = false := by
            rw [Bool.eq_false_iff,ne_eq,DialogStore.linked_eq_true_iff]
            rintro ⟨d,-,x,hx,haddress⟩
            exact hlists d x hx haddress
          refine Or.inl ((DialogStore.replace_misused _ i).trans ?_)
          change (store.misused || (store.data i).any fun a => !store.linked a) = true
          rw [← hji,hj,Option.any_some,hunlinked,Bool.not_false,Bool.or_true]
        · have hdata := DialogStore.replace_data (DialogStore.mk store.lists htab store.data store.fresh
            store.misused) i
          have hfresh := DialogStore.replace_fresh (DialogStore.mk store.lists htab store.data store.fresh
            store.misused) i
          have hsub := DialogStore.replace_lists (DialogStore.mk store.lists htab store.data store.fresh
            store.misused) i
          generalize (DialogStore.mk store.lists htab store.data store.fresh store.misused).replace i = replaced
            at hdata hfresh hsub ⊢
          refine Or.inr ⟨j,a,?_,?_,?_⟩
          · change replaced.data j = some a
            rw [hdata,Function.update_of_ne hji]
            exact hj
          · exact ha.trans_le (hfresh.ge.trans (Nat.le_succ _))
          · have hlists' : ∀ d, ∀ x ∈ replaced.lists d, x.address ≠ a := by
              intro d x hx
              rw [hsub] at hx
              exact hlists d x (List.mem_filter.mp hx).1
            intro d x hx
            change x ∈ Function.update replaced.lists index.toNat
              (⟨replaced.fresh,lcmd⟩ :: replaced.lists index.toNat) d at hx
            rw [hfresh] at hx
            exact hnew ha hlists' d x hx

theorem not_sound_of_dangling {s : Session} (h : Dangling s.store) : ¬ s.Sound := by
  intro hs
  rcases h with h | ⟨i,a,hi,-,hlists⟩
  · rw [hs.safe] at h
    cases h
  · obtain ⟨d,-,x,hx,haddress⟩ := DialogStore.linked_eq_true_iff.mp (hs.linked i a hi)
    exact hlists d x hx haddress

theorem dangling_of_lists {store : DialogStore} {calls : List (ℤ × LocCmd)} (h : Kept store calls) {d : ℕ}
    (hd : store.lists d ≠ []) : Dangling store.freeDialogList := by
  obtain ⟨x,hx⟩ := List.exists_mem_of_ne_nil _ hd
  obtain ⟨-,-,hfresh,i,-,hdata⟩ := h.entry d x hx
  exact Or.inr ⟨i,x.address,hdata,hfresh,fun _ y hy => absurd hy List.not_mem_nil⟩

/-- After a load that found commands in the lists it cleared, the store is not sound. -/
theorem Session.Good.fresh_of_sound (h : s.Good) (hload : s.load fuel env selected = some s') (hs : s'.Sound) :
    s.Fresh (.load env selected) := by
  intro hclears d
  by_contra hd
  obtain ⟨r,-,hrest⟩ := Option.bind_eq_some_iff.mp hload
  rw [if_pos hclears] at hrest
  obtain ⟨store,hstore,rfl⟩ := Option.map_eq_some_iff.mp hrest
  exact not_sound_of_dangling (foldlM_keeps (fun _ _ _ h' => h'.add) _ (dangling_of_lists h.kept hd) hstore) hs

/-- A file in which the second locale has a text for one control. -/
def twoLocales : LoadEnv where
  file := "l \"en-US\" \"English\" 0x0409\nv 1.0\nl \"fr-FR\" \"F\" 0x040c\nt IDC_START \"Go\"\n".toList
  locales := [⟨"en-US".toList,27,33⟩,⟨"fr-FR".toList,54,71⟩]
  controlId name := if name = "IDC_START".toList then some 1003 else none
  garbage _ := nul
  names name id h := by
    split at h
    next hname =>
      subst hname
      have hbytes : "IDC_START".toList.all (fun c => decide (0 < c.toNat ∧ c.toNat < 256)) = true := by decide
      exact ⟨by decide,by decide,fun c hc => of_decide_eq_true (List.all_eq_true.mp hbytes c hc)⟩
    next => cases h

def startText : LocCmd := ⟨.text,["IDC_START".toList,"Go".toList],[],[]⟩

theorem twoLocales_first : getLocDataFile twoLocales.toEnv 2 true 1 ⟨[],[],0⟩ =
    some (true,⟨[],[(0,startText)],0⟩) := by
  decide +kernel

theorem twoLocales_again : getLocDataFile twoLocales.toEnv 2 false 1 ⟨[],[(0,startText)],0⟩ =
    some (true,⟨[],[(0,startText)],0⟩) := by
  decide +kernel

/-- A first load of the second locale, and what it puts into the store. -/
theorem exists_loaded : ∃ s₀ s : Session, Session.start = some s₀ ∧ s₀.load 2 twoLocales 1 = some s ∧ s.Reached ∧
    s.loaded = true ∧ s.loc = ⟨[],[(0,startText)],0⟩ := by
  obtain ⟨store,hstore,hkept,hsize⟩ := Kept.reinit (show DialogStore.unused.misused = false from rfl)
  have hstart : Session.start = some ⟨false,⟨[],[],0⟩,store⟩ := by
    rw [Session.start,hstore]
    rfl
  have hreached := Session.Reached.start hstart
  have hfresh : Session.Fresh ⟨false,⟨[],[],0⟩,store⟩ (.load twoLocales 1) := by
    rintro - d
    refine List.eq_nil_iff_forall_not_mem.mpr fun x hx => ?_
    obtain ⟨i,hi,-⟩ := (hkept.entry d x hx).2.2.2
    exact Finset.notMem_empty _ ((hkept.table.keys _).mpr ⟨i,hi⟩)
  have hroom : Session.Room ⟨false,⟨[],[],0⟩,store⟩ (.load twoLocales 1) := by
    intro fuel r hr
    rw [← getLocDataFile_unique twoLocales_first hr]
    decide
  obtain ⟨s,hs,-⟩ := hreached.good.load hfresh hroom twoLocales_first
  refine ⟨_,s,hstart,hs,.step (e := .load twoLocales 1) hreached hfresh hroom hs,?_⟩
  rw [Session.load,show getLocDataFile twoLocales.toEnv 2 (!false) 1 ⟨[],[],0⟩ = _ from twoLocales_first,
    Option.bind_some,if_pos (show Session.clears _ twoLocales 1 = true from rfl)] at hs
  obtain ⟨store',-,rfl⟩ := Option.map_eq_some_iff.mp hs
  exact ⟨rfl,rfl⟩

end Runs

end SecureWipeOut.Loc
