import SecureWipeOut.Media.Md5sumQuery

/-! # Runs of queries

While the queries are settled, every search begins at the beginning of the text or at the end of
a line, so that the cut does not make an occurrence look like a line of its own.
-/
namespace SecureWipeOut.Md5sum
open CText Search

section Text
variable {buf needle : Buf} {i j : ℕ}

/-- Behind an occurrence comes a line end exactly when the place is listed. -/
theorem lineEnd_iff (hne : needle ≠ []) (hocc : Occurs needle (cstr buf 0) i) :
    lineEnd (charAt buf (i + needle.length)) = true ↔ Listed (cstr buf 0) needle i := by
  have hle := hocc.le_length hne
  have hhead : lineEnd (charAt buf (i + needle.length)) = true ↔
      ∀ c ∈ ((cstr buf 0).drop (i + needle.length)).head?, c = '\n' ∨ c = '\r' := by
    cases hdrop : (cstr buf 0).drop (i + needle.length) with
    | nil =>
      have hlen := List.drop_eq_nil_iff.mp hdrop
      have hend := charAt_end_of_cstr (rfl : cstr buf 0 = cstr buf 0)
      rw [Nat.zero_add,show (cstr buf 0).length = i + needle.length by omega] at hend
      rw [hend]
      simp [lineEnd]
    | cons c rest =>
      have hsplit : cstr buf 0 = (cstr buf 0).take (i + needle.length) ++ c :: rest := by
        rw [← hdrop,List.take_append_drop]
      have hchar := charAt_of_cstr hsplit
      have hmem : c ∈ cstr buf 0 := by
        rw [hsplit]
        simp
      have hnul : c ≠ nul := by simpa using List.mem_takeWhile_imp hmem
      rw [Nat.zero_add,List.length_take,Nat.min_eq_left hle] at hchar
      rw [hchar]
      simp [lineEnd,hnul]
  exact hhead.trans ⟨fun h => ⟨hocc,h⟩,fun h => h.2⟩

/-- The string of a text that is cut ends at the cut. -/
theorem cstr_set {q : ℕ} (hq : q ≤ (cstr buf 0).length) : cstr (buf.set q nul) 0 = (cstr buf 0).take q := by
  have hsplit : buf.take q = (cstr buf 0).take q := by
    conv_lhs => rw [← List.takeWhile_append_dropWhile (p := fun c => c != nul) (l := buf)]
    exact List.take_append_of_le_length hq
  have hparts : (buf.set q nul).drop 0 = (cstr buf 0).take q ++ (buf.set q nul).drop q := by
    rw [List.drop_zero,← hsplit,← List.take_set_of_le (a := nul) (le_refl q),List.take_append_drop]
  refine cstr_eq hparts (fun hmem => ?_) (fun c hc => ?_)
  · simpa using List.mem_takeWhile_imp (List.mem_of_mem_take hmem)
  · rw [List.head?_drop,List.getElem?_set] at hc
    by_cases hlt : q < buf.length
    · rw [if_pos rfl,if_pos hlt] at hc
      exact (Option.some.inj hc).symm
    · rw [if_pos rfl,if_neg hlt] at hc
      cases hc

theorem charAt_cut {q : ℕ} (h : i ≠ q) : charAt (buf.set q nul) i = charAt buf i := charAt_set_of_ne h nul

theorem lineEnd_cut (buf : Buf) (q : ℕ) : lineEnd (charAt (buf.set q nul) q) = true := by
  have hchar : charAt (buf.set q nul) q = nul := by
    by_cases hlt : q < buf.length
    · have hdrop : (buf.set q nul).drop q = nul :: buf.drop (q + 1) := by
        rw [List.drop_set,if_neg (lt_irrefl q),Nat.sub_self,List.drop_eq_getElem_cons hlt]
        rfl
      exact charAt_of_drop hdrop
    · exact charAt_of_drop_nil (List.drop_eq_nil_iff.mpr (by rw [List.length_set]; omega))
  rw [hchar]
  rfl

end Text

section Step
variable {s : State} {q : Query}

theorem needle_ne_nil (q : Query) : q.needle ≠ [] := List.cons_ne_nil _ _

/-- Where a search may begin. -/
structure AtLine (s : State) : Prop where
  le : s.pos ≤ s.text.length
  line : s.pos = 0 ∨ lineEnd (charAt s.data s.pos) = true

/-- No occurrence of a name of one line goes over the place where the search begins. -/
theorem Settled.uncrossed (h : Settled s q) (hs : AtLine s) {i : ℕ} (hocc : Occurs q.needle s.text i) (hi : i < s.pos) :
    i + q.needle.length ≤ s.pos := by
  by_contra hcross
  have hle := hocc.le_length (needle_ne_nil q)
  have hend := hs.line.resolve_left (by omega)
  -- the character at that place is one of the name
  obtain ⟨rest,hrest⟩ := hocc
  have hk : s.pos - i < q.needle.length := by omega
  have hsplit : cstr s.data 0 = (s.text.take i ++ q.needle.take (s.pos - i)) ++
      q.needle[s.pos - i] :: (q.needle.drop (s.pos - i + 1) ++ rest) := by
    rw [← List.cons_append,← List.drop_eq_getElem_cons hk,List.append_assoc,← List.append_assoc (q.needle.take _),
      List.take_append_drop,hrest,List.take_append_drop]
    rfl
  have hchar := charAt_of_cstr hsplit
  have hlen : (s.text.take i ++ q.needle.take (s.pos - i)).length = s.pos := by
    rw [List.length_append,List.length_take,List.length_take]
    omega
  rw [Nat.zero_add,hlen] at hchar
  have htail : q.needle[s.pos - i] ∈ '.' :: '/' :: q.p := by
    obtain ⟨k,hk'⟩ := Nat.exists_eq_succ_of_ne_zero (show s.pos - i ≠ 0 by omega)
    simp only [hk']
    exact List.getElem_mem _
  have hnul : q.needle[s.pos - i] ≠ nul := by
    have hmem : q.needle[s.pos - i] ∈ cstr s.data 0 := by
      rw [hsplit]
      simp
    simpa using List.mem_takeWhile_imp hmem
  rw [hchar] at hend
  rcases List.mem_cons.mp htail with hdot | htail
  · rw [hdot] at hend
    exact absurd hend (by decide)
  · rcases List.mem_cons.mp htail with hslash | htail
    · rw [hslash] at hend
      exact absurd hend (by decide)
    · have hline := h.line _ htail
      simp [lineEnd,hline.1,hline.2,hnul] at hend

/-- The place that a query finds. -/
def place (s : State) (q : Query) : Option ℕ :=
  let r := search s.data q.needle s.pos
  if r.2.isNone && r.1 != 0 then (searchCut s.data q.needle r.1).1 else r.2

theorem isInMd5sum_eq (hdata : s.data ≠ []) : isInMd5sum false q.path s =
    ((place s q).isSome,q.path,⟨s.data,match place s q with | some p => p + q.needle.length | none => s.pos⟩) := by
  have hempty : s.data.isEmpty = false := by
    rw [Bool.eq_false_iff]
    exact fun h => hdata (List.isEmpty_iff.mp h)
  have hbuf := isInMd5sum_data false q.path s
  unfold isInMd5sum at hbuf ⊢
  rw [if_neg Bool.false_ne_true,hempty,if_neg Bool.false_ne_true] at hbuf ⊢
  dsimp only at hbuf ⊢
  rw [hbuf]
  have hplace : place s q = (if (search s.data q.needle s.pos).2.isNone && (search s.data q.needle s.pos).1 != 0 then
      searchCut s.data q.needle (search s.data q.needle s.pos).1
      else ((search s.data q.needle s.pos).2,s.data)).1 := by
    unfold place
    dsimp only
    split <;> rfl
  rw [hplace]
  rfl

theorem search_sought (s : State) (q : Query) : Sought (fun p => lineEnd (charAt s.data (p + q.needle.length))) q.needle s.text
    s.pos (search s.data q.needle s.pos) := seek_sought _ _ _ _ _

/-- The search that finds nothing shows that no place behind is listed. -/
theorem not_listed_behind (h : Settled s q) (hnone : (search s.data q.needle s.pos).2 = none) {i : ℕ} (hi : s.pos ≤ i) :
    ¬Listed s.text q.needle i := by
  intro hlisted
  have hrefused := (search_sought s q).refused h.apart hnone i hi hlisted.1
  rw [(lineEnd_iff (needle_ne_nil q) hlisted.1).mpr hlisted] at hrefused
  cases hrefused

/-- What is listed ahead of the place of the cut is accepted in the text that is cut. -/
theorem listed_in_cut (h : Settled s q) (hs : AtLine s) (hnone : (search s.data q.needle s.pos).2 = none) {i : ℕ}
    (hlisted : Listed s.text q.needle i) : i + q.needle.length ≤ s.pos ∧
      Occurs q.needle (s.text.take (search s.data q.needle s.pos).1) i ∧
      lineEnd (charAt (s.data.set (search s.data q.needle s.pos).1 nul) (i + q.needle.length)) = true := by
  have hlt : i < s.pos := by
    by_contra hge
    exact not_listed_behind h hnone (not_lt.mp hge) hlisted
  have hend := h.uncrossed hs hlisted.1 hlt
  refine ⟨hend,(occurs_take (needle_ne_nil q)).mpr ⟨hlisted.1,hend.trans (search_sought s q).le⟩,?_⟩
  by_cases heq : i + q.needle.length = (search s.data q.needle s.pos).1
  · rw [heq]
    exact lineEnd_cut s.data _
  · rw [charAt_cut heq]
    exact (lineEnd_iff (needle_ne_nil q) hlisted.1).mpr hlisted

/-- The search from the beginning of the text that is cut where the first search ended. -/
theorem searchCut_spec (h : Settled s q) (hs : AtLine s) (hnone : (search s.data q.needle s.pos).2 = none) :
    (∀ p, (searchCut s.data q.needle (search s.data q.needle s.pos).1).1 = some p → Listed s.text q.needle p) ∧
      ((searchCut s.data q.needle (search s.data q.needle s.pos).1).1 = none → ∀ i, ¬Listed s.text q.needle i) := by
  have hne := needle_ne_nil q
  have hpos := List.length_pos_of_ne_nil hne
  have hr := search_sought s q
  have hin := fun i => listed_in_cut h hs hnone (i := i)
  generalize search s.data q.needle s.pos = r at hr hin hnone ⊢
  have hq : r.1 ≤ s.text.length := by
    rcases hr.stop hnone with ⟨hstop,-⟩ | ⟨i,-,hocc,hstop⟩
    · rw [hstop]
      exact hs.le
    · rw [hstop]
      exact hocc.le_length hne
  have hw : Sought (fun p => lineEnd (charAt (s.data.set r.1 nul) (p + q.needle.length))) q.needle
      (s.text.take r.1) 0 (search (s.data.set r.1 nul) q.needle 0) := by
    rw [State.text,← cstr_set hq]
    exact seek_sought _ _ _ _ _
  have hapart : Apart q.needle (s.text.take r.1) := fun i j hi hj hij =>
    h.apart i j ((occurs_take hne).mp hi).1 ((occurs_take hne).mp hj).1 hij
  refine ⟨fun p hp => ?_,fun hnone i hlisted => ?_⟩
  · obtain ⟨-,hocc,hline⟩ := hw.found p hp
    obtain ⟨hocc,hend⟩ := (occurs_take hne).mp hocc
    refine (lineEnd_iff hne hocc).mp ?_
    by_cases heq : p + q.needle.length = r.1
    · rcases hr.stop hnone with ⟨hstop,-⟩ | ⟨i,hi,hocc',hstop⟩
      · rw [heq,hstop]
        exact hs.line.resolve_left (by omega)
      · rcases h.listed with ⟨f,hf⟩ | hno
        · obtain ⟨hfend,hfocc,hfline⟩ := hin f hf
          have hle := hr.le
          have hfirst := hw.first hapart p hp f (Nat.zero_le f) (by omega) hfocc
          rw [hfline] at hfirst
          cases hfirst
        · exact absurd hocc' (hno i hi)
    · rwa [charAt_cut heq] at hline
  · obtain ⟨-,hocc,hline⟩ := hin i hlisted
    have hrefused := hw.refused hapart hnone i (Nat.zero_le i) hocc
    rw [hline] at hrefused
    cases hrefused

/-- The place found is listed, and where none is found no place is. -/
theorem place_spec (h : Settled s q) (hs : AtLine s) :
    (∀ p, place s q = some p → Listed s.text q.needle p) ∧ (place s q = none → ∀ i, ¬Listed s.text q.needle i) := by
  have hr := search_sought s q
  unfold place
  dsimp only
  cases hr2 : (search s.data q.needle s.pos).2 with
  | some p =>
    refine ⟨fun p' hp' => ?_,fun hnone => nomatch hnone⟩
    obtain rfl : p = p' := Option.some.inj hp'
    obtain ⟨-,hocc,hline⟩ := hr.found p hr2
    exact (lineEnd_iff (needle_ne_nil q) hocc).mp hline
  | none =>
    by_cases h0 : (search s.data q.needle s.pos).1 = 0
    · have hle := hr.le
      rw [h0]
      exact ⟨fun p hp => (nomatch hp),fun _ i => not_listed_behind h hr2 (by omega)⟩
    · rw [if_pos (by simp [h0])]
      exact searchCut_spec h hs hr2

/-- A settled query is answered as it should be, and the next search begins at a line again. -/
theorem isInMd5sum_step (h : Settled s q) (hs : AtLine s) :
    Answers s q ∧ AtLine (isInMd5sum false q.path s).2.2 := by
  have hpath := isInMd5sum_path false q.path s
  have hbuf := isInMd5sum_data false q.path s
  by_cases hdata : s.data = []
  · have hrun : isInMd5sum false q.path s = (false,q.path,s) := by
      unfold isInMd5sum
      rw [hdata]
      rfl
    have htext : s.text = [] := by
      rw [State.text,hdata]
      rfl
    refine ⟨⟨?_,hpath,hbuf⟩,by rw [hrun]; exact hs⟩
    rw [hrun]
    refine iff_of_false Bool.false_ne_true fun ⟨i,hi⟩ => ?_
    have hle := hi.1.le_length (needle_ne_nil q)
    have hpos := List.length_pos_of_ne_nil (needle_ne_nil q)
    rw [htext,List.length_nil] at hle
    omega
  · obtain ⟨hsome,hnone⟩ := place_spec h hs
    have hrun := isInMd5sum_eq (q := q) hdata
    refine ⟨⟨?_,hpath,hbuf⟩,?_⟩
    · rw [hrun]
      dsimp only
      cases hplace : place s q with
      | none => exact iff_of_false Bool.false_ne_true fun ⟨i,hi⟩ => hnone hplace i hi
      | some p => exact iff_of_true rfl ⟨p,hsome p hplace⟩
    · rw [hrun]
      cases hplace : place s q with
      | none => exact hs
      | some p =>
        have hlisted := hsome p hplace
        exact ⟨hlisted.1.le_length (needle_ne_nil q),Or.inr ((lineEnd_iff (needle_ne_nil q) hlisted.1).mpr hlisted)⟩

end Step

section Runs
variable {data : Buf} {s : State}

theorem Reached.atLine (h : Reached data s) : AtLine s := by
  induction h with
  | start => exact ⟨Nat.zero_le _,Or.inl rfl⟩
  | query q _ hsettled ih => exact (isInMd5sum_step hsettled ih).2

/-- In a run of settled queries, every one of them is answered as it should be. -/
theorem isInMd5sum_run (h : Reached data s) {q : Query} (hq : Settled s q) : Answers s q :=
  (isInMd5sum_step hq h.atLine).1

theorem listed_of_newline {text needle : List Char} {i : ℕ} (hocc : Occurs needle text i)
    (hnext : (text.drop (i + needle.length)).head? = some '\n') : Listed text needle i := by
  refine ⟨hocc,fun c hc => ?_⟩
  rw [hnext] at hc
  exact Or.inl (Option.some.inj hc).symm

/-- The second query goes around the end of the text. -/
theorem isInMd5sum_run_around : Answers (isInMd5sum false "X:/b".toList ⟨" ./a\n ./b\n".toList,0⟩).2.2 ⟨'X',['a']⟩ := by
  have hb : Settled ⟨" ./a\n ./b\n".toList,0⟩ ⟨'X',['b']⟩ :=
    ⟨List.forall_mem_singleton.mpr (by decide),by decide,Or.inl ⟨5,listed_of_newline (by decide) (by decide)⟩⟩
  have htext : (isInMd5sum false (Query.path ⟨'X',['b']⟩) ⟨" ./a\n ./b\n".toList,0⟩).2.2.text = " ./a\n ./b\n".toList := by
    rw [State.text,isInMd5sum_data]
    decide
  refine isInMd5sum_run (Reached.start.query ⟨'X',['b']⟩ hb) ⟨List.forall_mem_singleton.mpr (by decide),?_,Or.inl ⟨0,?_⟩⟩
  · rw [htext]
    decide
  · rw [htext]
    exact listed_of_newline (by decide) (by decide)

/-- A name that stands where the search goes is found at the cut, be it listed or not. -/
theorem isInMd5sum_of_occurs {q : Query} (hapart : Apart q.needle s.text)
    (hocc : ∃ i, s.pos ≤ i ∧ Occurs q.needle s.text i) : (isInMd5sum false q.path s).1 = true := by
  have hne := needle_ne_nil q
  obtain ⟨k,hk,hocck⟩ := hocc
  have hdata : s.data ≠ [] := by
    intro hnil
    have htext : s.text = [] := by
      rw [State.text,hnil]
      rfl
    have hle := hocck.le_length hne
    have hpos := List.length_pos_of_ne_nil hne
    rw [htext,List.length_nil] at hle
    omega
  have hr : Sought (fun p => lineEnd (charAt s.data (p + q.needle.length))) q.needle s.text s.pos
      (search s.data q.needle s.pos) := seek_sought _ _ _ _ _
  rw [isInMd5sum_eq hdata]
  unfold place
  dsimp only
  generalize search s.data q.needle s.pos = r at hr ⊢
  cases hr2 : r.2 with
  | some p => rfl
  | none =>
    rcases hr.stop hr2 with ⟨-,hnot⟩ | ⟨i,-,hocci,hstop⟩
    · exact absurd hocck (hnot k hk)
    · have hend := hocci.le_length hne
      have hpos := List.length_pos_of_ne_nil hne
      have hcut := cstr_set (show r.1 ≤ (cstr s.data 0).length by rw [hstop]; exact hend)
      have hw : Sought (fun p => lineEnd (charAt (s.data.set r.1 nul) (p + q.needle.length))) q.needle
          (s.text.take r.1) 0 (search (s.data.set r.1 nul) q.needle 0) := by
        rw [State.text,← hcut]
        exact seek_sought _ _ _ _ _
      rw [if_pos (by simp; omega)]
      cases hw2 : (search (s.data.set r.1 nul) q.needle 0).2 with
      | some p =>
        rw [searchCut,hw2]
        rfl
      | none =>
        have hrefused := hw.refused (fun i j hi hj hij =>
          hapart i j ((occurs_take hne).mp hi).1 ((occurs_take hne).mp hj).1 hij) hw2 i (Nat.zero_le i)
          ((occurs_take hne).mpr ⟨hocci,hstop.ge⟩)
        rw [← hstop,lineEnd_cut] at hrefused
        cases hrefused

/-- Asked for `foo`, the function finds it in a text that lists `foobar`. -/
theorem isInMd5sum_foobar : ¬Answers ⟨" ./foobar".toList,0⟩ ⟨'X',"foo".toList⟩ := by
  have hocc : Occurs (Query.needle ⟨'X',"foo".toList⟩) (State.text ⟨" ./foobar".toList,0⟩) 0 := by decide
  have hapart : Apart (Query.needle ⟨'X',"foo".toList⟩) (State.text ⟨" ./foobar".toList,0⟩) := by decide
  intro h
  obtain ⟨i,hi,hline⟩ := h.found.mp (isInMd5sum_of_occurs hapart ⟨0,le_rfl,hocc⟩)
  have hle := hi.le_length (needle_ne_nil _)
  have htext : (State.text ⟨" ./foobar".toList,0⟩).length = 9 := by decide
  have hneedle : (Query.needle ⟨'X',"foo".toList⟩).length = 6 := by decide
  obtain rfl : i = 0 := by
    by_contra hne
    have := hapart 0 i hocc hi (by omega)
    omega
  exact absurd (hline 'b' rfl) (by decide)

end Runs

end SecureWipeOut.Md5sum
