import SecureWipeOut.Table.HtabSize
import SecureWipeOut.Table.HtabSearch

/-! # Runs of the string hash table

Every insertion keeps the probe sequences unbroken, so that an index, once returned,
holds its string for the rest of the run.
-/
namespace SecureWipeOut.Htab
open CInt Loop OpenAddressing

section Store
variable {htab : HtabTable} {K : Finset CString}

/-- The table after the new entry has been written. -/
def stored (htab : HtabTable) (idx : ℕ) (str : CString) : HtabTable :=
  ⟨htab.table.set idx ⟨hval htab.size str,some str⟩,htab.size,dword (htab.filled + 1)⟩

theorem entry_stored {idx : ℕ} (hidx : idx < htab.table.length) (str : CString) (i : ℕ) :
    entry (stored htab idx str) i =
      if i = idx then ⟨hval htab.size str,some str⟩ else entry htab i := by
  unfold entry stored
  simp only [List.getD_eq_getElem?_getD,List.getElem?_set]
  by_cases h : i = idx
  · subst h
    simp [hidx]
  · rw [if_neg (Ne.symm h),if_neg h]

theorem contents_stored (hI : Inv htab K) {idx : ℕ} (hidx : idx ≤ htab.size) (str : CString) :
    contents (stored htab idx str) = Function.update (contents htab) idx (some str) := by
  have hlen : idx < htab.table.length := by
    have := hI.length
    omega
  have hpos := (hval_mem str hI.five).1
  funext i
  unfold contents
  rw [entry_stored hlen,Function.update_apply]
  by_cases h : i = idx
  · simp only [h,if_true]
    rw [if_neg (by omega)]
  · simp [h]

theorem stored_inv (hI : Inv htab K) {str : CString} {n : ℕ}
    (hn : Passed (probes htab.size) (contents htab) str n)
    (hfree : contents htab (probes htab.size str n) = none) :
    Inv (stored htab (probes htab.size str n) str) (insert str K) := by
  have hm := probes_mem str hI.five n
  have hlen : probes htab.size str n < htab.table.length := by
    have := hI.length
    omega
  have hpos := (hval_mem str hI.five).1
  have hnew : str ∉ K := by
    intro hmem
    obtain ⟨i,hi⟩ := (hI.keys str).mp hmem
    exact hI.unbroken.absent hn hfree i hi
  have hroom := room_of_free hI hm hfree
  have hused := (contents_eq_none hI).mp hfree
  refine ⟨hI.prime,hI.five,hI.small,?_,?_,?_,?_,?_,?_,?_⟩
  · simpa [stored] using hI.length
  · intro i hi
    rw [entry_stored hlen] at hi
    split at hi
    next h => exact h ▸ hm
    next => exact hI.range i hi
  · intro i hi
    rw [entry_stored hlen] at hi ⊢
    split at hi
    next h =>
      rw [if_pos h]
      exact ⟨str,rfl,rfl⟩
    next h =>
      rw [if_neg h]
      exact hI.wf i hi
  · rw [contents_stored hI hm.2]
    exact hI.unbroken.store hn hfree
  · intro str'
    rw [contents_stored hI hm.2,Finset.mem_insert,hI.keys]
    constructor
    · rintro (rfl | ⟨i,hi⟩)
      · exact ⟨_,Function.update_self ..⟩
      · refine ⟨i,?_⟩
        have hne : i ≠ probes htab.size str n := by
          rintro rfl
          rw [hfree] at hi
          cases hi
        rwa [Function.update_of_ne hne]
    · rintro ⟨i,hi⟩
      rw [Function.update_apply] at hi
      split at hi
      next => exact Or.inl (Option.some.inj hi).symm
      next => exact Or.inr ⟨i,hi⟩
  · have hsmall := hI.small
    have hf := hI.filled
    rw [Finset.card_insert_of_notMem hnew,stored,dword_of_lt (by omega),hf]
  · rw [Finset.card_insert_of_notMem hnew,← hI.occupied]
    have hset : ((Finset.Icc 1 htab.size).filter fun i =>
        (entry (stored htab (probes htab.size str n) str) i).used ≠ 0) =
        insert (probes htab.size str n)
          ((Finset.Icc 1 htab.size).filter fun i => (entry htab i).used ≠ 0) := by
      ext i
      rw [Finset.mem_filter,entry_stored hlen,Finset.mem_insert,Finset.mem_filter]
      by_cases h : i = probes htab.size str n
      · subst h
        simp only [if_true,true_or,iff_true]
        exact ⟨Finset.mem_Icc.mpr hm,by omega⟩
      · simp [h]
    have hnot : probes htab.size str n ∉
        (Finset.Icc 1 htab.size).filter fun i => (entry htab i).used ≠ 0 := by
      simp [hused]
    exact (congrArg Finset.card hset).trans (Finset.card_insert_of_notMem hnot)

end Store

/-- What one call does to a table that holds the strings of `K`. -/
inductive Call (htab : HtabTable) (K : Finset CString) (str : CString) : ℕ → HtabTable → Prop
  | indexed (idx : ℕ) (htab' : HtabTable) (hidx : 1 ≤ idx ∧ idx ≤ htab.size)
      (hinv : Inv htab' (insert str K)) (hsize : htab'.size = htab.size)
      (hstr : contents htab' idx = some str)
      (hkeep : ∀ i s, contents htab i = some s → contents htab' i = some s) :
      Call htab K str idx htab'
  | full (hfull : htab.filled = htab.size) (hnew : str ∉ K) : Call htab K str 0 htab

theorem htabHash_spec {htab : HtabTable} {K : Finset CString} (hI : Inv htab K) (str : CString)
    {fuel : ℕ} (hfuel : htab.size ≤ fuel) :
    ∃ idx htab', htabHash fuel true (some str) htab = some (idx,htab') ∧ Call htab K str idx htab' := by
  have hne : htab.table ≠ [] := by
    intro h
    have := hI.length
    simp [h] at this
  obtain ⟨r,hr,hfound⟩ := search_spec hI str hfuel
  rw [htabHash,if_neg hne,hr]
  rcases hfound with ⟨i,rfl,hi⟩ | ⟨n,rfl,hn,hfree⟩ | ⟨i,rfl,hpass⟩
  · have hmem : str ∈ K := (hI.keys str).mpr ⟨i,hi⟩
    refine ⟨i,htab,rfl,.indexed i htab (range_of_contents hI hi) ?_ rfl hi (fun _ _ h => h)⟩
    rwa [Finset.insert_eq_of_mem hmem]
  · have hm := probes_mem str hI.five n
    have hroom : htab.filled < htab.size := hI.filled ▸ room_of_free hI hm hfree
    refine ⟨_,stored htab (probes htab.size str n) str,?_,.indexed _ _ hm (stored_inv hI hn hfree) rfl ?_ ?_⟩
    · simp [hroom,stored]
    · rw [contents_stored hI hm.2,Function.update_self]
    · intro i s hi
      have hni : i ≠ probes htab.size str n := by
        rintro rfl
        rw [hfree] at hi
        cases hi
      rwa [contents_stored hI hm.2,Function.update_of_ne hni]
  · obtain ⟨hcard,hnew⟩ := full_of_passed hI hpass
    have hfull : htab.filled = htab.size := hI.filled.trans hcard
    exact ⟨0,htab,by simp [hfull],.full hfull hnew⟩

section Runs

theorem created_inv {p : ℕ} (hp : p.Prime) (h5 : 5 ≤ p) (hlt : p < 2 ^ 31) :
    Inv ⟨List.replicate (p + 1) ⟨0,none⟩,p,0⟩ ∅ := by
  have hentry : ∀ i, entry ⟨List.replicate (p + 1) ⟨0,none⟩,p,0⟩ i = ⟨0,none⟩ := by
    intro i
    simp only [entry,List.getD_eq_getElem?_getD,List.getElem?_replicate]
    split <;> rfl
  have hnone : ∀ i, contents ⟨List.replicate (p + 1) ⟨0,none⟩,p,0⟩ i = none := by
    intro i
    simp [contents,hentry]
  refine ⟨hp,h5,hlt,by simp,?_,?_,?_,?_,rfl,?_⟩
  · intro i hi
    simp [hentry] at hi
  · intro i hi
    simp [hentry] at hi
  · intro i str hi
    rw [hnone] at hi
    cases hi
  · simp [hnone]
  · simp [hentry]

variable {htab : HtabTable} {K : Finset CString} {fuel : ℕ}

/-- A run that stays within the size: every call returns an index, and the indices
returned hold their strings at the end. -/
theorem insertions_spec (hI : Inv htab K) (hfuel : htab.size ≤ fuel) (strs : List CString)
    (hcard : (K ∪ strs.toFinset).card ≤ htab.size) :
    ∃ ids htab', insertions fuel htab strs = some (ids,htab') ∧ Inv htab' (K ∪ strs.toFinset) ∧
      htab'.size = htab.size ∧ (∀ i s, contents htab i = some s → contents htab' i = some s) ∧
      List.Forall₂ (fun str idx => contents htab' idx = some str) strs ids := by
  induction strs generalizing htab K with
  | nil => exact ⟨[],htab,rfl,by simpa using hI,rfl,fun _ _ h => h,.nil⟩
  | cons str strs ih =>
    obtain ⟨idx,htab₁,hcall,hspec⟩ := htabHash_spec hI str hfuel
    have hset : K ∪ (str :: strs).toFinset = insert str K ∪ strs.toFinset := by
      ext x
      simp only [Finset.mem_union,List.mem_toFinset,List.mem_cons,Finset.mem_insert]
      tauto
    rw [hset] at hcard ⊢
    cases hspec with
    | indexed idx htab₁ hidx hinv hsize hstr hkeep =>
      obtain ⟨ids,htab',hrun,hinv',hsize',hkeep',hall⟩ := ih hinv (by omega) (by rwa [hsize])
      refine ⟨idx :: ids,htab',?_,hinv',hsize'.trans hsize,?_,?_⟩
      · rw [insertions,hcall,Option.bind_some,hrun]
        rfl
      · exact fun i s hi => hkeep' i s (hkeep i s hi)
      · exact .cons (hkeep' idx str hstr) hall
    | full hfull hnew =>
      have h1 : (insert str K).card ≤ (insert str K ∪ strs.toFinset).card :=
        Finset.card_le_card Finset.subset_union_left
      have h2 := hI.filled
      rw [Finset.card_insert_of_notMem hnew] at h1
      omega

/-- A run of any length ends in a table that is still well formed. -/
theorem insertions_total (hI : Inv htab K) (hfuel : htab.size ≤ fuel) (strs : List CString) :
    ∃ ids htab' K', insertions fuel htab strs = some (ids,htab') ∧ Inv htab' K' ∧
      htab'.size = htab.size := by
  induction strs generalizing htab K with
  | nil => exact ⟨[],htab,K,rfl,hI,rfl⟩
  | cons str strs ih =>
    obtain ⟨idx,htab₁,hcall,hspec⟩ := htabHash_spec hI str hfuel
    have hnext : ∃ K₁, Inv htab₁ K₁ ∧ htab₁.size = htab.size := by
      cases hspec with
      | indexed idx htab₁ hidx hinv hsize hstr hkeep => exact ⟨_,hinv,hsize⟩
      | full hfull hnew => exact ⟨K,hI,rfl⟩
    obtain ⟨K₁,hI₁,hsize₁⟩ := hnext
    obtain ⟨ids,htab',K',hrun,hinv',hsize'⟩ := ih hI₁ (by omega)
    refine ⟨idx :: ids,htab',K',?_,hinv',hsize'.trans hsize₁⟩
    rw [insertions,hcall,Option.bind_some,hrun]
    rfl

/-- Distinct strings have distinct indices and equal strings the same one. -/
theorem indices_eq_iff (hI : Inv htab K) {s s' : CString} {i i' : ℕ}
    (h : contents htab i = some s) (h' : contents htab i' = some s') : i = i' ↔ s = s' := by
  constructor
  · rintro rfl
    exact Option.some.inj (h.symm.trans h')
  · rintro rfl
    exact hI.unbroken.unique h h'

/-- The contract of the table over whole runs. -/
theorem htab_runs (fuel nel : ℕ) (hfuel : 2 ^ 31 ≤ fuel) (h3 : 3 ≤ nel) (h31 : nel < 2 ^ 31) :
    ∃ htab, htabCreate fuel true nel htabEmpty = some (true,htab) ∧ nel ≤ htab.size ∧
      (∀ strs : List CString, strs.toFinset.card ≤ htab.size →
        ∃ ids htab', insertions fuel htab strs = some (ids,htab') ∧
          ids.length = strs.length ∧ htab'.filled = strs.toFinset.card ∧
          (∀ (i : ℕ) s, strs[i]? = some s → ∃ idx, ids[i]? = some idx ∧ 1 ≤ idx ∧ idx ≤ htab.size ∧
            (entry htab' idx).str = some s) ∧
          ∀ (i j idx idx' : ℕ) s s', strs[i]? = some s → strs[j]? = some s' →
            ids[i]? = some idx → ids[j]? = some idx' → (idx = idx' ↔ s = s')) ∧
      ∀ (strs : List CString) (str : CString), ∃ ids htab' idx htab'',
        insertions fuel htab strs = some (ids,htab') ∧ htab'.size = htab.size ∧
          htabHash fuel true (some str) htab' = some (idx,htab'') ∧
          (idx = 0 → htab'.filled = htab'.size) := by
  obtain ⟨p,hcreate,hp,h5,hle,hlt⟩ := htabCreate_spec hfuel h3 h31
  have hI := created_inv hp h5 hlt
  refine ⟨_,hcreate,hle,?_,?_⟩
  · intro strs hcard
    obtain ⟨ids,htab',hrun,hinv,hsize,-,hall⟩ :=
      insertions_spec hI (show p ≤ fuel by omega) strs (by simpa using hcard)
    rw [Finset.empty_union] at hinv
    have hget : ∀ (i : ℕ) s, strs[i]? = some s → ∃ idx, ids[i]? = some idx ∧
        contents htab' idx = some s := by
      intro i s hi
      obtain ⟨hlt',rfl⟩ := List.getElem?_eq_some_iff.mp hi
      have hlt'' : i < ids.length := hall.length_eq ▸ hlt'
      exact ⟨ids[i],List.getElem?_eq_getElem hlt'',(List.forall₂_iff_get.mp hall).2 i hlt' hlt''⟩
    refine ⟨ids,htab',hrun,hall.length_eq.symm,hinv.filled,?_,?_⟩
    · intro i s hi
      obtain ⟨idx,hidx,hc⟩ := hget i s hi
      have hrange := range_of_contents hinv hc
      refine ⟨idx,hidx,hrange.1,hsize ▸ hrange.2,?_⟩
      unfold contents at hc
      split at hc
      next => cases hc
      next => exact hc
    · intro i j idx idx' s s' hi hj hidx hidx'
      obtain ⟨k,hk,hc⟩ := hget i s hi
      obtain ⟨k',hk',hc'⟩ := hget j s' hj
      obtain rfl : idx = k := Option.some.inj (hidx.symm.trans hk)
      obtain rfl : idx' = k' := Option.some.inj (hidx'.symm.trans hk')
      exact indices_eq_iff hinv hc hc'
  · intro strs str
    obtain ⟨ids,htab',K',hrun,hinv,hsize⟩ := insertions_total hI (show p ≤ fuel by omega) strs
    have hps : htab'.size = p := hsize
    obtain ⟨idx,htab'',hcall,hspec⟩ := htabHash_spec hinv str (show htab'.size ≤ fuel by omega)
    refine ⟨ids,htab',idx,htab'',hrun,hsize,hcall,?_⟩
    intro hzero
    cases hspec with
    | indexed idx htab₁ hidx hinv hsize hstr hkeep => omega
    | full hfull hnew => exact hfull

/-- The table of the localization messages, with one string entered twice. -/
theorem htab_runs_loc : ∃ htab, htabCreate (2 ^ 31) true 1031 htabEmpty = some (true,htab) ∧
    ∃ ids htab', insertions (2 ^ 31) htab [⟨[97,98],by decide⟩,⟨[97,98],by decide⟩] =
      some (ids,htab') ∧ htab'.filled = 1 := by
  obtain ⟨htab,hcreate,hle,hrun,-⟩ := htab_runs (2 ^ 31) 1031 le_rfl (by norm_num) (by norm_num)
  have hcard : ([⟨[97,98],by decide⟩,⟨[97,98],by decide⟩] : List CString).toFinset.card = 1 := by
    decide
  obtain ⟨ids,htab',hins,-,hfilled,-⟩ := hrun [⟨[97,98],by decide⟩,⟨[97,98],by decide⟩] (by omega)
  exact ⟨htab,hcreate,ids,htab',hins,hfilled.trans hcard⟩

end Runs

end SecureWipeOut.Htab
