import SecureWipeOut.Lib.OpenAddressing
import SecureWipeOut.Table.Htab

/-! # The search of the string hash table

The abstract table behind the entries is one of open addressing. As the size is
prime, the second hash steps through every index, and the search ends at the string,
at the first free index of its sequence or after all indices.
-/
namespace SecureWipeOut.Htab
open CInt Loop OpenAddressing

/-- The string an index holds. -/
def contents (htab : HtabTable) (idx : ℕ) : Option CString :=
  if (entry htab idx).used = 0 then none else (entry htab idx).str

/-- The indices `htab_hash` visits for a string, in order. -/
def probes (size : ℕ) (str : CString) (n : ℕ) : ℕ :=
  stepsBack size (hval2 size str) (hval size str) n

/-- The table holds exactly the strings of `K`. -/
structure Inv (htab : HtabTable) (K : Finset CString) : Prop where
  prime : htab.size.Prime
  five : 5 ≤ htab.size
  small : htab.size < 2 ^ 31
  length : htab.table.length = htab.size + 1
  range : ∀ i, (entry htab i).used ≠ 0 → 1 ≤ i ∧ i ≤ htab.size
  wf : ∀ i, (entry htab i).used ≠ 0 →
    ∃ str, (entry htab i).str = some str ∧ (entry htab i).used = hval htab.size str
  unbroken : Unbroken (probes htab.size) (contents htab)
  keys : ∀ str, str ∈ K ↔ ∃ i, contents htab i = some str
  filled : htab.filled = K.card
  occupied : ((Finset.Icc 1 htab.size).filter fun i => (entry htab i).used ≠ 0).card = K.card

section Hashes
variable {size : ℕ} (str : CString)

theorem hval_mem (h : 5 ≤ size) : 1 ≤ hval size str ∧ hval size str < size := by
  have := Nat.mod_lt (sdbm str) (show size > 0 by omega)
  unfold hval
  dsimp only
  split <;> omega

theorem hval2_mem (h : 5 ≤ size) : 1 ≤ hval2 size str ∧ hval2 size str < size := by
  have := Nat.mod_lt (hval size str) (show size - 2 > 0 by omega)
  unfold hval2
  omega

theorem probes_mem (h : 5 ≤ size) (n : ℕ) : 1 ≤ probes size str n ∧ probes size str n ≤ size :=
  stepsBack_mem (hval2_mem str h).1 (hval2_mem str h).2
    ⟨(hval_mem str h).1,(hval_mem str h).2.le⟩ n

theorem probes_covers (hp : size.Prime) (h : 5 ≤ size) {i : ℕ} (hi : 1 ≤ i ∧ i ≤ size) :
    ∃ n < size, probes size str n = i :=
  stepsBack_covers hp (hval2_mem str h).1 (hval2_mem str h).2
    ⟨(hval_mem str h).1,(hval_mem str h).2.le⟩ hi

/-- The sequence is back at its first index only after all the others. -/
theorem probes_ne_hval (hp : size.Prime) (h : 5 ≤ size) {n : ℕ} (hn : n + 1 < size) :
    probes size str (n + 1) ≠ hval size str := by
  intro heq
  have := stepsBack_inj hp (hval2_mem str h).1 (hval2_mem str h).2 hn (show 0 < size by omega) heq
  omega

theorem probes_size (h : 5 ≤ size) : probes size str size = hval size str :=
  stepsBack_size (hval2_mem str h).1 (hval2_mem str h).2 ⟨(hval_mem str h).1,(hval_mem str h).2.le⟩

theorem nextIdx_probes (h : 5 ≤ size) (hs : size < 2 ^ 31) (n : ℕ) :
    nextIdx size (hval2 size str) (probes size str n) = probes size str (n + 1) := by
  have hm := probes_mem str h n
  have hd := hval2_mem str h
  have hsucc : probes size str (n + 1) = stepBack size (hval2 size str) (probes size str n) :=
    stepsBack_succ _ _
  rw [hsucc,nextIdx,stepBack]
  split
  · rw [dword_of_lt (by omega),dsub_of_le (by omega) (by omega)]
  · rfl

end Hashes

section Search
variable {htab : HtabTable} {K : Finset CString}

theorem contents_eq_none {i : ℕ} (hI : Inv htab K) :
    contents htab i = none ↔ (entry htab i).used = 0 := by
  unfold contents
  split
  next h => simp [h]
  next h =>
    obtain ⟨str,hs,-⟩ := hI.wf i h
    simp [hs,h]

theorem range_of_contents {i : ℕ} {str : CString} (hI : Inv htab K)
    (h : contents htab i = some str) : 1 ≤ i ∧ i ≤ htab.size := by
  apply hI.range
  intro hu
  rw [(contents_eq_none hI).mpr hu] at h
  cases h

/-- The two comparisons of the source recognise exactly the stored string. -/
theorem sameEntry_iff (hI : Inv htab K) (str : CString) (i : ℕ) :
    sameEntry htab str i = true ↔ contents htab i = some str := by
  have hpos := (hval_mem str hI.five).1
  unfold sameEntry contents
  by_cases h : (entry htab i).used = 0
  · simp only [h,if_pos,decide_eq_true_eq]
    constructor
    · rintro ⟨hv,-⟩
      omega
    · intro hc
      cases hc
  · obtain ⟨str',hs,hu⟩ := hI.wf i h
    rw [if_neg h,hs,hu]
    simp only [Option.getD_some,decide_eq_true_eq,Option.some.injEq]
    constructor
    · rintro ⟨-,rfl⟩
      rfl
    · rintro rfl
      exact ⟨rfl,rfl⟩

/-- What the search finds: the string, the first free index of its sequence, or
that every index is taken by another string. -/
def Found (htab : HtabTable) (str : CString) (r : Search) : Prop :=
  (∃ i, r = .existing i ∧ contents htab i = some str) ∨
  (∃ n, r = .newEntry (probes htab.size str n) ∧ Passed (probes htab.size) (contents htab) str n ∧
    contents htab (probes htab.size str n) = none) ∨
  (∃ i, r = .newEntry i ∧ Passed (probes htab.size) (contents htab) str htab.size)

theorem passed_succ {str : CString} {n : ℕ}
    (hn : Passed (probes htab.size) (contents htab) str n)
    (h1 : contents htab (probes htab.size str n) ≠ none)
    (h2 : contents htab (probes htab.size str n) ≠ some str) :
    Passed (probes htab.size) (contents htab) str (n + 1) := by
  intro m hm
  rcases Nat.lt_succ_iff_lt_or_eq.mp hm with h | rfl
  · exact hn m h
  · exact ⟨h1,h2⟩

theorem probe_run (hI : Inv htab K) (str : CString) {fuel n : ℕ} (hn : n < htab.size)
    (hpass : Passed (probes htab.size) (contents htab) str (n + 1)) (hfuel : htab.size - n ≤ fuel) :
    ∃ r, run (probeStep htab str) fuel (probes htab.size str n) = some r ∧ Found htab str r := by
  induction fuel generalizing n with
  | zero => omega
  | succ fuel ih =>
    rw [run,probeStep,nextIdx_probes str hI.five hI.small]
    rcases Nat.lt_or_ge (n + 1) htab.size with hlt | hge
    · rw [if_neg (probes_ne_hval str hI.prime hI.five hlt)]
      by_cases hsame : sameEntry htab str (probes htab.size str (n + 1)) = true
      · rw [if_pos hsame]
        exact ⟨_,rfl,Or.inl ⟨_,rfl,(sameEntry_iff hI str _).mp hsame⟩⟩
      · rw [if_neg hsame]
        by_cases hused : (entry htab (probes htab.size str (n + 1))).used = 0
        · rw [if_neg (by simpa using hused)]
          exact ⟨_,rfl,Or.inr (Or.inl ⟨_,rfl,hpass,(contents_eq_none hI).mpr hused⟩)⟩
        · rw [if_pos hused]
          refine ih hlt (passed_succ hpass ?_ ?_) (by omega)
          · exact fun h => hused ((contents_eq_none hI).mp h)
          · exact fun h => hsame ((sameEntry_iff hI str _).mpr h)
    · have hsize : n + 1 = htab.size := by omega
      rw [hsize,if_pos (probes_size str hI.five)]
      exact ⟨_,rfl,Or.inr (Or.inr ⟨_,rfl,hsize ▸ hpass⟩)⟩

/-- The search ends, from any state of the table. -/
theorem search_spec (hI : Inv htab K) (str : CString) {fuel : ℕ} (hfuel : htab.size ≤ fuel) :
    ∃ r, search fuel htab str = some r ∧ Found htab str r := by
  have hzero : probes htab.size str 0 = hval htab.size str := rfl
  have hnil : Passed (probes htab.size) (contents htab) str 0 := fun m hm => absurd hm (Nat.not_lt_zero m)
  rw [search]
  by_cases hused : (entry htab (hval htab.size str)).used = 0
  · rw [if_neg (by simpa using hused)]
    exact ⟨_,rfl,Or.inr (Or.inl ⟨0,rfl,hnil,(contents_eq_none hI).mpr hused⟩)⟩
  · rw [if_pos hused]
    by_cases hsame : sameEntry htab str (hval htab.size str) = true
    · rw [if_pos hsame]
      exact ⟨_,rfl,Or.inl ⟨_,rfl,(sameEntry_iff hI str _).mp hsame⟩⟩
    · rw [if_neg hsame,← hzero]
      refine probe_run hI str hI.prime.pos (passed_succ hnil ?_ ?_) (by omega)
      · exact fun h => hused ((contents_eq_none hI).mp h)
      · exact fun h => hsame ((sameEntry_iff hI str _).mpr h)

theorem full_of_passed (hI : Inv htab K) {str : CString}
    (h : Passed (probes htab.size) (contents htab) str htab.size) :
    K.card = htab.size ∧ str ∉ K := by
  constructor
  · rw [← hI.occupied,Finset.filter_true_of_mem,Nat.card_Icc]
    · omega
    · intro i hi
      obtain ⟨n,hn,rfl⟩ := probes_covers str hI.prime hI.five (Finset.mem_Icc.mp hi)
      exact fun hu => (h n hn).1 ((contents_eq_none hI).mpr hu)
  · intro hmem
    obtain ⟨i,hi⟩ := (hI.keys str).mp hmem
    obtain ⟨n,hn,rfl⟩ := probes_covers str hI.prime hI.five (range_of_contents hI hi)
    exact (h n hn).2 hi

theorem room_of_free (hI : Inv htab K) {i : ℕ} (hi : 1 ≤ i ∧ i ≤ htab.size)
    (hfree : contents htab i = none) : K.card < htab.size := by
  have hlt : ((Finset.Icc 1 htab.size).filter fun i => (entry htab i).used ≠ 0).card <
      (Finset.Icc 1 htab.size).card := by
    apply Finset.card_lt_card
    refine (Finset.filter_ssubset).mpr ⟨i,Finset.mem_Icc.mpr hi,?_⟩
    simpa using (contents_eq_none hI).mp hfree
  rw [hI.occupied,Nat.card_Icc] at hlt
  omega

end Search

end SecureWipeOut.Htab
