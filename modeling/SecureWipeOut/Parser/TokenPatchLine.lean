import SecureWipeOut.Parser.TokenPatch

/-! # The fragments of a line

The loop that looks for the places cuts the line buffer behind the fragment that it is about, and
never writes in front of the index, so that the fragments that are complete stay as they are. By
induction on the rounds that remain, the fragments with the new text between them are the line in
which the first occurrences are replaced.
-/
namespace SecureWipeOut.TokenPatch
open CText TextFile TokenFile Search Encodings

section Buffer
variable {buf buf' : Buf}

/-- Buffers that agree ahead of an index have the same strings there. -/
theorem cstr_of_take {i m : ℕ} {x y : List Char} (h : buf'.take m = buf.take m) (hdrop : buf.drop i = x ++ nul :: y)
    (hx : nul ∉ x) (hm : i + x.length < m) : cstr buf' i = x := by
  have hin : (buf.take m).drop i = x ++ nul :: y.take (m - i - x.length - 1) := by
    rw [List.drop_take,hdrop,List.take_append,List.take_of_length_le (by omega)]
    congr 1
    obtain ⟨k,hk⟩ := Nat.exists_eq_add_of_lt (show 0 < m - i - x.length by omega)
    rw [hk,Nat.zero_add,List.take_succ_cons,Nat.add_sub_cancel]
  have hsplit : buf'.drop i = x ++ nul :: (y.take (m - i - x.length - 1) ++ buf'.drop m) := by
    have himm : i ≤ (buf'.take m).length := by
      have hlen := congrArg List.length hin
      rw [← h,List.length_drop,List.length_append,List.length_cons] at hlen
      omega
    conv_lhs => rw [← List.take_append_drop m buf',List.drop_append_of_le_length himm,h,hin]
    rw [List.append_assoc,List.cons_append]
  exact cstr_eq hsplit hx (by simp)

theorem cstr_drop {i : ℕ} {x : List Char} (hdrop : buf.drop i = x) (hx : nul ∉ x) : cstr buf i = x :=
  cstr_eq (by rw [List.append_nil]; exact hdrop) hx (by simp)

end Buffer

section Loop
variable {wsrc : List Char} {n j k : ℕ} {s : Split} {frag rest : List Char}

/-- What a round does that finds the text behind a number of characters. -/
def Split.cut (s : Split) (wsrc : List Char) (j k : ℕ) : Split :=
  ⟨s.buf.set (s.i + k) nul,s.i + k + wsrc.length,Function.update s.p (j + 1) (s.i + k + wsrc.length),
    Function.update s.torep j (some (s.i + k))⟩

theorem splitLoop_none (h : find wsrc (cstr s.buf s.i) = none) :
    splitLoop wsrc (n + 1) j s = {s with torep := Function.update s.torep j none} := by
  rw [splitLoop,h]

theorem splitLoop_some (h : find wsrc (cstr s.buf s.i) = some k) :
    splitLoop wsrc (n + 1) j s = splitLoop wsrc n (j + 1) (s.cut wsrc j k) := by
  rw [splitLoop,h]
  rfl

theorem Split.cut_take (s : Split) (wsrc : List Char) (j k : ℕ) : (s.cut wsrc j k).buf.take s.i = s.buf.take s.i := by
  change (s.buf.set (s.i + k) nul).take s.i = _
  rw [List.take_set,List.set_eq_of_length_le]
  rw [List.length_take]
  omega

theorem Split.cut_p {m : ℕ} (h : m ≤ j) : (s.cut wsrc j k).p m = s.p m := Function.update_of_ne (by omega) _ _

theorem Split.cut_torep {m : ℕ} (h : m ≠ j) : (s.cut wsrc j k).torep m = s.torep m := Function.update_of_ne h _ _

/-- What the loop leaves as it is: the buffer ahead of the index, the fragments up to the one that
has begun, and the places of other rounds. -/
structure Framed (n j : ℕ) (s s' : Split) : Prop where
  buf : s'.buf.take s.i = s.buf.take s.i
  p : ∀ m ≤ j, s'.p m = s.p m
  torep : ∀ m, m < j ∨ j + n ≤ m → s'.torep m = s.torep m

theorem splitLoop_framed (wsrc : List Char) (n j : ℕ) (s : Split) : Framed n j s (splitLoop wsrc n j s) := by
  induction n generalizing j s with
  | zero => exact ⟨rfl,fun _ _ => rfl,fun _ _ => rfl⟩
  | succ n ih =>
    cases hfind : find wsrc (cstr s.buf s.i) with
    | none =>
      rw [splitLoop_none hfind]
      exact ⟨rfl,fun _ _ => rfl,fun m hm => Function.update_of_ne (by omega) _ _⟩
    | some k =>
      rw [splitLoop_some hfind]
      have h := ih (j + 1) (s.cut wsrc j k)
      refine ⟨?_,fun m hm => ?_,fun m hm => ?_⟩
      · have hle : s.i ≤ (s.cut wsrc j k).i := by
          change s.i ≤ s.i + k + wsrc.length
          omega
        have hcut := congrArg (List.take s.i) h.buf
        rw [List.take_take,List.take_take,Nat.min_eq_left hle] at hcut
        exact hcut.trans (s.cut_take wsrc j k)
      · exact (h.p m (by omega)).trans (Split.cut_p hm)
      · exact (h.torep m (by omega)).trans (Split.cut_torep (by omega))

/-- Before a round: the fragment that has begun and the text behind it, which are all that is left
of the line, and the end of the array. -/
structure AtPlace (n j : ℕ) (s : Split) (frag rest : List Char) : Prop where
  drop : s.buf.drop (s.p j) = frag ++ rest
  i_eq : s.i = s.p j + frag.length
  frag_text : nul ∉ frag
  rest_text : nul ∉ rest
  last : s.torep (j + n) = none

theorem AtPlace.drop_i (h : AtPlace n j s frag rest) : s.buf.drop s.i = rest := by
  rw [h.i_eq]
  exact drop_add h.drop

theorem AtPlace.cstr_i (h : AtPlace n j s frag rest) : cstr s.buf s.i = rest := cstr_drop h.drop_i h.rest_text

theorem AtPlace.cstr_p (h : AtPlace n j s frag rest) : cstr s.buf (s.p j) = frag ++ rest := by
  refine cstr_drop h.drop ?_
  rw [List.mem_append]
  exact not_or.mpr ⟨h.frag_text,h.rest_text⟩

/-- The next fragment begins behind the text that is found. -/
theorem AtPlace.next (h : AtPlace (n + 1) j s frag rest) (hsrc : wsrc ≠ []) :
    AtPlace n (j + 1) (s.cut wsrc j k) [] (rest.drop (k + wsrc.length)) := by
  have hpos := List.length_pos_of_ne_nil hsrc
  have hbegin : (s.cut wsrc j k).p (j + 1) = s.i + k + wsrc.length := Function.update_self _ _ _
  refine ⟨?_,?_,List.not_mem_nil,fun hmem => h.rest_text (List.mem_of_mem_drop hmem),?_⟩
  · rw [hbegin]
    change (s.buf.set (s.i + k) nul).drop _ = _
    rw [List.drop_set,if_pos (by omega),Nat.add_assoc,← List.drop_drop,h.drop_i]
    rfl
  · rw [hbegin]
    rfl
  · rw [Split.cut_torep (by omega),← h.last]
    congr 1
    omega

/-- The fragment that a round ends stays complete. -/
theorem AtPlace.complete (h : AtPlace (n + 1) j s frag rest) (hsrc : wsrc ≠ []) (hocc : Occurs wsrc rest k) :
    cstr (splitLoop wsrc n (j + 1) (s.cut wsrc j k)).buf (s.p j) = frag ++ rest.take k := by
  have hle := hocc.le_length hsrc
  have hpos := List.length_pos_of_ne_nil hsrc
  have hplace : s.i + k = s.p j + (frag ++ rest.take k).length := by
    rw [h.i_eq,List.length_append,List.length_take,Nat.min_eq_left (by omega),Nat.add_assoc]
  have hsplit : s.buf.drop (s.p j) = (frag ++ rest.take k) ++ rest.get ⟨k,by omega⟩ :: rest.drop (k + 1) := by
    rw [h.drop,List.append_assoc,List.get_eq_getElem,← List.drop_eq_getElem_cons,List.take_append_drop]
  have hcut : (s.cut wsrc j k).buf.drop (s.p j) = (frag ++ rest.take k) ++ nul :: rest.drop (k + 1) := by
    change (s.buf.set (s.i + k) nul).drop _ = _
    rw [hplace]
    exact drop_set hsplit
  have htext : nul ∉ frag ++ rest.take k := by
    rw [List.mem_append]
    exact not_or.mpr ⟨h.frag_text,fun hmem => h.rest_text (List.mem_of_mem_take hmem)⟩
  refine cstr_of_take (splitLoop_framed wsrc n (j + 1) (s.cut wsrc j k)).buf hcut htext ?_
  rw [← hplace]
  change _ < s.i + k + wsrc.length
  omega

theorem fragments_splitLoop (wrep : List Char) (hsrc : wsrc ≠ []) (h : AtPlace n j s frag rest) :
    (fragments wrep (splitLoop wsrc n j s) (n + 1) j).flatten = frag ++ replaceFirst wsrc wrep n rest := by
  induction n generalizing j s frag rest with
  | zero =>
    have hlast : s.torep j = none := h.last
    rw [splitLoop,fragments,hlast]
    dsimp only
    rw [h.cstr_p,List.flatten_singleton]
    rfl
  | succ n ih =>
    rw [replaceFirst]
    cases hfind : find wsrc rest with
    | none =>
      rw [splitLoop_none (h.cstr_i ▸ hfind),fragments]
      simp only [Function.update_self]
      rw [h.cstr_p,List.flatten_singleton]
    | some k =>
      have hframe := splitLoop_framed wsrc n (j + 1) (s.cut wsrc j k)
      have hp : (splitLoop wsrc n (j + 1) (s.cut wsrc j k)).p j = s.p j := (hframe.p j (Nat.le_succ j)).trans (Split.cut_p le_rfl)
      have htorep : (splitLoop wsrc n (j + 1) (s.cut wsrc j k)).torep j = some (s.i + k) := by
        rw [hframe.torep j (Or.inl (Nat.lt_succ_self j))]
        exact Function.update_self _ _ _
      rw [splitLoop_some (h.cstr_i ▸ hfind),fragments,htorep]
      dsimp only
      rw [hp,h.complete hsrc (find_eq_some_iff.mp hfind).2.1,List.flatten_cons,ih (h.next hsrc),List.nil_append,List.append_assoc,
        List.append_assoc]

/-- The first place is NULL when the text is not found. -/
theorem splitLoop_first (h : AtPlace (n + 1) j s frag rest) :
    (splitLoop wsrc (n + 1) j s).torep j = none ↔ find wsrc rest = none := by
  cases hfind : find wsrc rest with
  | none =>
    rw [splitLoop_none (h.cstr_i ▸ hfind)]
    exact iff_of_true (Function.update_self _ _ _) rfl
  | some k =>
    rw [splitLoop_some (h.cstr_i ▸ hfind),(splitLoop_framed wsrc n (j + 1) (s.cut wsrc j k)).torep j (Or.inl (Nat.lt_succ_self j))]
    refine iff_of_false (fun hnone => ?_) (Option.some_ne_none k)
    have hsome : (s.cut wsrc j k).torep j = some (s.i + k) := Function.update_self _ _ _
    rw [hsome] at hnone
    cases hnone

end Loop

end SecureWipeOut.TokenPatch
