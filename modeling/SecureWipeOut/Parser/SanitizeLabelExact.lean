import SecureWipeOut.Parser.SanitizeLabel

/-! # What becomes of a label

The passes over the buffer do to the label what the specification says, but for the first
one: it moves the label in front of its leading dashes without its end, so that the last
characters stay behind a second time unless they are dashes too.
-/
namespace SecureWipeOut.SanitizeLabel
open CText

/-- The text of a buffer. -/
def Holds (buf : Buf) (s : List Char) : Prop := nul ∉ s ∧ ∃ rest, buf = s ++ nul :: rest

section Buffers
variable {buf : Buf} {s : List Char}

theorem Holds.cstr (h : Holds buf s) : cstr buf 0 = s := by
  obtain ⟨hnul,rest,rfl⟩ := h
  have hsplit : (s ++ nul :: rest).drop 0 = s ++ nul :: rest := rfl
  exact cstr_eq hsplit hnul (by simp)

theorem Holds.strlen (h : Holds buf s) : strlen buf = s.length := by
  rw [SanitizeLabel.strlen,h.cstr]

theorem holds_of (hnul : nul ∉ s) (rest : List Char) : Holds (s ++ nul :: rest) s := ⟨hnul,rest,rfl⟩

theorem isLabelChar_mapChar (c : Char) : isLabelChar (mapChar c) = true := by
  unfold mapChar
  dsimp only
  split
  · decide
  case isFalse h =>
    generalize toLower c = d at h
    simp only [not_or,not_and_or,Char.not_lt,not_not,ne_eq] at h
    simp only [isLabelChar,Bool.or_eq_true,decide_eq_true_eq,beq_iff_eq]
    tauto

theorem nul_notMem_of_label (h : ∀ c ∈ s, isLabelChar c = true) : nul ∉ s := fun hm =>
  absurd (h nul hm) (by decide)

theorem label_map (s : List Char) : ∀ c ∈ s.map mapChar, isLabelChar c = true := by
  intro c hc
  obtain ⟨d,_,rfl⟩ := List.mem_map.mp hc
  exact isLabelChar_mapChar d

theorem Holds.mapLabel (h : Holds buf s) : Holds (mapLabel buf) (s.map mapChar) := by
  have hlen := h.strlen
  obtain ⟨_,rest,rfl⟩ := h
  refine ⟨nul_notMem_of_label (label_map s),rest,?_⟩
  rw [SanitizeLabel.mapLabel,hlen,List.take_left,List.drop_left]

/-- The label with the end that stays behind. -/
def moved (s : List Char) : List Char :=
  s.drop (leadingDashes s) ++ s.drop (s.length - leadingDashes s)

theorem leadingDashes_le (s : List Char) : leadingDashes s ≤ s.length :=
  (List.takeWhile_sublist _).length_le

theorem mem_moved {c : Char} (h : c ∈ moved s) : c ∈ s :=
  (List.mem_append.mp h).elim List.mem_of_mem_drop List.mem_of_mem_drop

theorem Holds.moveFront (h : Holds buf s) : Holds (moveFront buf) (moved s) := by
  have hlen := h.strlen
  have hle := leadingDashes_le s
  obtain ⟨hnul,rest,rfl⟩ := h
  refine ⟨fun hm => hnul (mem_moved hm),rest,?_⟩
  unfold SanitizeLabel.moveFront moved
  simp only [hlen,List.take_left]
  split
  · rw [memmove,List.take_zero,List.nil_append,Nat.zero_add,List.drop_append_of_le_length hle,
      List.take_left' (List.length_drop ..),List.drop_append_of_le_length (Nat.sub_le _ _),
      List.append_assoc]
  case isFalse hzero =>
    rw [not_not.mp hzero,List.drop_zero,Nat.sub_zero,List.drop_length,List.append_nil]

end Buffers

section Trimming
variable {buf : Buf} {s : List Char}

/-- Without trailing dashes, but not empty. -/
def trimmed (s : List Char) : List Char := if stripTrailing s = [] then s.take 1 else stripTrailing s

theorem stripTrailing_sublist (s : List Char) : (stripTrailing s).Sublist s :=
  List.IsPrefix.sublist ( List.rdropWhile_prefix _ _)

theorem stripTrailing_concat_dash (s : List Char) : stripTrailing (s ++ ['-']) = stripTrailing s :=
  List.rdropWhile_concat_pos _ _ _ rfl

theorem stripTrailing_concat {c : Char} (h : c ≠ '-') (s : List Char) : stripTrailing (s ++ [c]) = s ++ [c] :=
  List.rdropWhile_concat_neg _ _ _ (by simpa using h)

theorem holds_trimLoop {k : ℕ} (hlen : s.length = k + 1) (hnul : nul ∉ s) (rest : List Char) :
    Holds (trimLoop k (s ++ nul :: rest)) (trimmed s) := by
  induction k generalizing s rest with
  | zero =>
    obtain ⟨c,rfl⟩ := List.length_eq_one_iff.mp hlen
    have hone : trimmed [c] = [c] := by
      by_cases hc : c = '-'
      · rw [hc]
        rfl
      · rw [trimmed,show [c] = [] ++ [c] from rfl,stripTrailing_concat hc]
        rfl
    rw [hone]
    exact holds_of hnul rest
  | succ k ih =>
    obtain ⟨t,c,rfl⟩ : ∃ t c, s = t ++ [c] := by
      rcases List.eq_nil_or_concat s with rfl | ⟨t,c,h⟩
      · cases hlen
      · exact ⟨t,c,by rw [h,List.concat_eq_append]⟩
    have ht : t.length = k + 1 := by simpa using hlen
    have hchar : charAt (t ++ [c] ++ nul :: rest) (k + 1) = c := by
      rw [← ht,List.append_assoc]
      exact charAt_append t c _
    rw [trimLoop,hchar]
    by_cases hc : c = '-'
    · have hset : (t ++ [c] ++ nul :: rest).set (k + 1) nul = t ++ nul :: nul :: rest := by
        rw [← ht,List.append_assoc]
        simp
      have htrim : trimmed (t ++ [c]) = trimmed t := by
        have hpos : 1 ≤ t.length := by omega
        rw [trimmed,trimmed,hc,stripTrailing_concat_dash,List.take_append_of_le_length hpos]
      rw [if_pos hc,hset,htrim]
      exact ih ht (fun hm => hnul (List.mem_append_left _ hm)) (nul :: rest)
    · have htrim : trimmed (t ++ [c]) = t ++ [c] := by
        rw [trimmed,stripTrailing_concat hc,if_neg (by simp)]
      rw [if_neg hc,htrim]
      exact holds_of hnul rest

theorem Holds.trim (h : Holds buf s) (hlen : 1 ≤ s.length) :
    Holds (trimLoop (s.length - 1) buf) (trimmed s) := by
  obtain ⟨hnul,rest,rfl⟩ := h
  exact holds_trimLoop (by omega) hnul rest

theorem length_trimmed (h : 1 < (trimmed s).length) : trimmed s = stripTrailing s := by
  rw [trimmed] at h ⊢
  split at h
  · have := List.length_take_le 1 s
    omega
  case isFalse hne => exact if_neg hne

theorem getLast?_stripTrailing (s : List Char) : (stripTrailing s).getLast? ≠ some '-' := by
  intro h
  have hne : stripTrailing s ≠ [] := fun he => by
    rw [he] at h
    cases h
  have hlast := List.rdropWhile_last_not (· == '-') s hne
  rw [List.getLast?_eq_some_getLast hne] at h
  exact hlast (beq_iff_eq.mpr (Option.some.inj h))

theorem stripTrailing_eq_nil_iff : stripTrailing s = [] ↔ ∀ c ∈ s, c = '-' := by
  rw [stripTrailing,List.rdropWhile_eq_nil_iff]
  simp only [beq_iff_eq]

theorem stripTrailing_append (s t : List Char) :
    stripTrailing (s ++ t) = if stripTrailing t = [] then stripTrailing s else s ++ stripTrailing t := by
  simp only [stripTrailing,List.rdropWhile,List.reverse_append,List.dropWhile_append,List.reverse_eq_nil_iff,
    List.isEmpty_iff]
  split
  · rfl
  · rw [List.reverse_append,List.reverse_reverse]

end Trimming

section Collapsing

theorem collapse_dashes (rest : List Char) : collapse ('-' :: '-' :: rest) = collapse ('-' :: rest) := by
  rw [collapse,if_pos ⟨rfl,rfl⟩]

theorem collapse_cons {a b : Char} (h : ¬(a = '-' ∧ b = '-')) (rest : List Char) :
    collapse (a :: b :: rest) = a :: collapse (b :: rest) := by
  rw [collapse,if_neg h]

/-- Behind a character that is no dash nothing is lost. -/
theorem collapse_append {s : List Char} (h : s.getLast? ≠ some '-') (t : List Char) :
    collapse (s ++ t) = collapse s ++ collapse t := by
  fun_induction collapse s with
  | case1 a b rest hab ih =>
    obtain ⟨rfl,rfl⟩ := hab
    rw [List.cons_append,List.cons_append,collapse_dashes]
    exact ih (by simpa [List.getLast?_cons_cons] using h)
  | case2 a b rest hab ih =>
    rw [List.cons_append,List.cons_append,collapse_cons hab,List.cons_append]
    exact congrArg (a :: ·) (ih (by simpa [List.getLast?_cons_cons] using h))
  | case3 s hshort =>
    match s, t with
    | [], _ => rfl
    | [_], [] => rfl
    | [x], y :: t => exact collapse_cons (fun hxy => h (by simp [hxy.1])) t
    | x :: y :: rest, _ => exact absurd rfl (hshort x y rest)

theorem collapse_ne_nil {s : List Char} (h : s ≠ []) : collapse s ≠ [] := by
  fun_induction collapse s with
  | case1 a b rest hab ih => exact ih (List.cons_ne_nil _ _)
  | case2 a b rest hab ih => exact List.cons_ne_nil _ _
  | case3 => exact h

theorem collapse_sublist (s : List Char) : (collapse s).Sublist s := by
  fun_induction collapse s with
  | case1 a b rest h ih => exact ih.cons _
  | case2 a b rest h ih => exact ih.cons_cons _
  | case3 => exact List.Sublist.refl _

/-- One of two dashes is removed, the end of the text included in the move. -/
theorem memmove_dash (a w rest : List Char) :
    memmove (a ++ '-' :: '-' :: w ++ nul :: rest) (a.length + 1) (a.length + 2)
      (a.length + ('-' :: '-' :: w).length - a.length - 1) = a ++ '-' :: w ++ nul :: nul :: rest := by
  have hn : a.length + ('-' :: '-' :: w).length - a.length - 1 = (w ++ [nul]).length := by
    simp only [List.length_append,List.length_cons,List.length_nil]
    omega
  have htake : (a ++ '-' :: '-' :: w ++ nul :: rest).take (a.length + 1) = a ++ ['-'] := by
    rw [show a ++ '-' :: '-' :: w ++ nul :: rest = (a ++ ['-']) ++ ('-' :: w ++ nul :: rest) by simp]
    exact List.take_left' (by simp)
  have hdrop : (a ++ '-' :: '-' :: w ++ nul :: rest).drop (a.length + 2) = (w ++ [nul]) ++ rest := by
    rw [show a ++ '-' :: '-' :: w ++ nul :: rest = (a ++ ['-','-']) ++ ((w ++ [nul]) ++ rest) by simp]
    exact List.drop_left' (by simp)
  have hrest : (a ++ '-' :: '-' :: w ++ nul :: rest).drop (a.length + 1 + (w ++ [nul]).length) =
      nul :: rest := by
    refine List.drop_left' ?_
    simp only [List.length_append,List.length_cons,List.length_nil]
    omega
  rw [hn,memmove,htake,hdrop,List.take_left,hrest]
  simp

/-- The loop collapses what stands behind its index, which does not end in a dash. -/
theorem collapseLoop_eq {fuel : ℕ} {a b rest : List Char} (hfuel : b.length ≤ fuel)
    (hlast : b.getLast? ≠ some '-') : ∃ rest',
      collapseLoop fuel (a ++ b ++ nul :: rest) a.length (a.length + b.length) =
        a ++ collapse b ++ nul :: rest' := by
  induction fuel generalizing a b rest with
  | zero =>
    obtain rfl : b = [] := List.length_eq_zero_iff.mp (by omega)
    exact ⟨rest,rfl⟩
  | succ fuel ih =>
    match b with
    | [] => exact ⟨rest,if_neg (by simp)⟩
    | [x] => exact ⟨rest,if_neg (by simp)⟩
    | [x,y] =>
      have hy : ¬(x = '-' ∧ y = '-') := fun h => hlast (by simp [h.2])
      rw [collapse_cons hy]
      exact ⟨rest,if_neg (by simp)⟩
    | x :: y :: z :: w =>
      have hx : charAt (a ++ x :: y :: z :: w ++ nul :: rest) a.length = x := by
        rw [List.append_assoc]
        exact charAt_append a x _
      have hy : charAt (a ++ x :: y :: z :: w ++ nul :: rest) (a.length + 1) = y := by
        rw [show a ++ x :: y :: z :: w ++ nul :: rest = (a ++ [x]) ++ y :: (z :: w ++ nul :: rest) by simp,
          show a.length + 1 = (a ++ [x]).length by simp]
        exact charAt_append (a ++ [x]) y _
      simp only [List.length_cons] at hfuel
      rw [collapseLoop,hx,hy,if_pos (by simp only [List.length_cons]; omega)]
      by_cases hdash : x = '-' ∧ y = '-'
      · obtain ⟨rfl,rfl⟩ := hdash
        have hmove := memmove_dash a (z :: w) rest
        have hlast' : ('-' :: z :: w).getLast? ≠ some '-' := by
          simpa [List.getLast?_cons_cons] using hlast
        obtain ⟨rest',hrest'⟩ : ∃ rest', collapseLoop fuel (a ++ '-' :: z :: w ++ nul :: nul :: rest)
            a.length (a.length + ('-' :: z :: w).length) = a ++ collapse ('-' :: z :: w) ++ nul :: rest' :=
          ih (by simp only [List.length_cons]; omega) hlast'
        refine ⟨rest',?_⟩
        rw [if_pos ⟨rfl,rfl⟩,hmove,collapse_dashes,← hrest']
        rfl
      · have hlast' : (y :: z :: w).getLast? ≠ some '-' := by
          simpa [List.getLast?_cons_cons] using hlast
        obtain ⟨rest',hrest'⟩ : ∃ rest', collapseLoop fuel (a ++ [x] ++ y :: z :: w ++ nul :: rest)
            (a ++ [x]).length ((a ++ [x]).length + (y :: z :: w).length) =
              a ++ [x] ++ collapse (y :: z :: w) ++ nul :: rest' :=
          ih (by simp only [List.length_cons]; omega) hlast'
        have hbuf : a ++ [x] ++ y :: z :: w ++ nul :: rest = a ++ x :: y :: z :: w ++ nul :: rest := by simp
        have hlen : (a ++ [x]).length + (y :: z :: w).length = a.length + (x :: y :: z :: w).length := by
          simp only [List.length_append,List.length_cons,List.length_nil]
          omega
        rw [hbuf,hlen,List.length_append] at hrest'
        refine ⟨rest',?_⟩
        rw [if_neg hdash,collapse_cons hdash]
        exact hrest'.trans (by simp)

theorem Holds.collapse {buf : Buf} {s : List Char} (h : Holds buf s) (hlast : s.getLast? ≠ some '-') :
    Holds (collapseLoop s.length buf 0 s.length) (collapse s) := by
  obtain ⟨hnul,rest,rfl⟩ := h
  obtain ⟨rest',hrest'⟩ : ∃ rest', collapseLoop s.length ([] ++ s ++ nul :: rest) ([] : Buf).length
      (([] : Buf).length + s.length) = [] ++ SanitizeLabel.collapse s ++ nul :: rest' :=
    collapseLoop_eq le_rfl hlast
  rw [List.nil_append,List.length_nil,Nat.zero_add,List.nil_append] at hrest'
  rw [hrest']
  exact holds_of (fun hm => hnul ((collapse_sublist s).subset hm)) rest'

end Collapsing

section Removing
variable {buf : Buf} {s w : List Char}

theorem removeFirst_sublist (s w : List Char) : (removeFirst s w).Sublist s := by
  unfold removeFirst
  split
  · exact List.Sublist.refl s
  case h_2 p _ =>
    have hsub : (s.take p ++ (s.drop p).drop w.length).Sublist (s.take p ++ s.drop p) :=
      (List.drop_sublist w.length _).append_left _
    rwa [List.drop_drop,List.take_append_drop] at hsub

theorem Holds.removeSubstring (h : Holds buf s) (hw : w ≠ []) :
    Holds (removeSubstring buf w) (removeFirst s w) := by
  have hcstr := h.cstr
  obtain ⟨hnul,rest,rfl⟩ := h
  refine ⟨fun hm => hnul ((removeFirst_sublist s w).subset hm),?_⟩
  unfold SanitizeLabel.removeSubstring removeFirst
  rw [hcstr]
  split
  · exact ⟨rest,rfl⟩
  case h_2 p hfind =>
    obtain ⟨hp,hocc,-⟩ := Search.find_eq_some_iff.mp hfind
    have hle := hocc.le_length hw
    have hdrop : (s ++ nul :: rest).drop (p + w.length) = s.drop (p + w.length) ++ nul :: rest :=
      List.drop_append_of_le_length hle
    have htail : CText.cstr (s ++ nul :: rest) (p + w.length) = s.drop (p + w.length) :=
      cstr_eq hdrop (fun hm => hnul (List.mem_of_mem_drop hm)) (by simp)
    have htake : (s.drop (p + w.length) ++ nul :: rest).take ((s.drop (p + w.length)).length + 1) =
        s.drop (p + w.length) ++ [nul] := by
      rw [List.take_length_add_append]
      rfl
    rw [htail,memmove,hdrop,htake,List.take_append_of_le_length hp]
    exact ⟨(s ++ nul :: rest).drop (p + ((s.drop (p + w.length)).length + 1)),by simp⟩

theorem ne_nil_of_mem_removeList : ∀ w ∈ removeList, w ≠ [] := by
  unfold removeList
  simp

/-- Removing a list of substrings, each of them once. -/
theorem Holds.foldl_removeSubstring (h : Holds buf s) {ws : List (List Char)} (hws : ∀ w ∈ ws, w ≠ []) :
    Holds (ws.foldl SanitizeLabel.removeSubstring buf) (ws.foldl removeFirst s) := by
  induction ws generalizing buf s with
  | nil => exact h
  | cons w ws ih =>
    rw [List.forall_mem_cons] at hws
    exact ih (h.removeSubstring hws.1) hws.2

theorem foldl_removeFirst_sublist (ws : List (List Char)) (s : List Char) :
    (ws.foldl removeFirst s).Sublist s := by
  induction ws generalizing s with
  | nil => exact List.Sublist.refl s
  | cons w ws ih => exact (ih _).trans (removeFirst_sublist s w)

end Removing

section Passes
variable {label : List Char}

/-- What the code makes of a label that has passed the character map. -/
def result (m : List Char) : List Char := removeAll (collapse (stripTrailing (moved m)))

theorem sanitizeLabel_eq (hnul : nul ∉ label) (rest : List Char) :
    let m := label.map mapChar
    let r := sanitizeLabel (label ++ nul :: rest)
    if (moved m).length ≤ 1 ∨ (trimmed (moved m)).length ≤ 1 then r.1 = -1
    else r.1 = 0 ∧ CText.cstr r.2 0 = result m := by
  intro m r
  have hmoved : Holds (moveFront (mapLabel (label ++ nul :: rest))) (moved m) :=
    (holds_of hnul rest).mapLabel.moveFront
  by_cases hone : (moved m).length ≤ 1
  · rw [if_pos (Or.inl hone)]
    simp only [r,sanitizeLabel,hmoved.strlen,if_pos hone]
  have htrim := hmoved.trim (by omega)
  by_cases htwo : (trimmed (moved m)).length ≤ 1
  · rw [if_pos (Or.inr htwo)]
    simp only [r,sanitizeLabel,hmoved.strlen,htrim.strlen,if_neg hone,if_pos htwo]
  · rw [if_neg (by tauto)]
    have heq := length_trimmed (not_le.mp htwo)
    have hcollapse := htrim.collapse (by rw [heq]; exact getLast?_stripTrailing _)
    have hremove := hcollapse.foldl_removeSubstring ne_nil_of_mem_removeList
    simp only [r,sanitizeLabel,hmoved.strlen,htrim.strlen,if_neg hone,if_neg htwo,true_and]
    rw [hremove.cstr,heq]
    rfl

end Passes

/-- The number of dashes that a text ends with. -/
def trailingDashes (s : List Char) : ℕ := (s.rtakeWhile (· == '-')).length

section Ends
variable {m : List Char}

theorem drop_leadingDashes (m : List Char) : m.drop (leadingDashes m) = m.dropWhile (· == '-') := by
  have hsplit : m.takeWhile (· == '-') ++ m.dropWhile (· == '-') = m := List.takeWhile_append_dropWhile
  have hdrop : (m.takeWhile (· == '-') ++ m.dropWhile (· == '-')).drop (leadingDashes m) =
      m.dropWhile (· == '-') := List.drop_left' rfl
  rwa [hsplit] at hdrop

/-- The last characters are dashes as long as they are not more than the trailing dashes. -/
theorem stripTrailing_end_iff {k : ℕ} (hk : k ≤ m.length) :
    stripTrailing (m.drop (m.length - k)) = [] ↔ k ≤ trailingDashes m := by
  obtain ⟨S,hS⟩ : ∃ S, S = stripTrailing m := ⟨_,rfl⟩
  obtain ⟨D,hD⟩ : ∃ D, D = m.rtakeWhile (· == '-') := ⟨_,rfl⟩
  have hsplit : m = S ++ D := by rw [hS,hD,stripTrailing,List.rdropWhile_append_rtakeWhile]
  have hlen : m.length = S.length + trailingDashes m := by
    rw [trailingDashes,← hD,← List.length_append,← hsplit]
  have hdrop : m.drop (m.length - k) = S.drop (m.length - k) ++ D.drop (m.length - k - S.length) := by
    conv_lhs => rw [hsplit,List.drop_append,← hsplit]
  rw [stripTrailing_eq_nil_iff,hdrop]
  constructor
  · intro hall
    by_contra hgt
    have hlt : m.length - k < S.length := by omega
    have hne : S.drop (m.length - k) ≠ [] := by simpa using hlt
    have hSne : S ≠ [] := fun h => hne (by rw [h,List.drop_nil])
    have hmem : S.getLast hSne ∈ S.drop (m.length - k) := by
      rw [← List.getLast_drop hne]
      exact List.getLast_mem hne
    refine getLast?_stripTrailing m ?_
    rw [← hS,List.getLast?_eq_some_getLast hSne,hall _ (List.mem_append_left _ hmem)]
  · intro hle c hc
    rw [List.drop_eq_nil_of_le (show S.length ≤ m.length - k by omega),List.nil_append] at hc
    have hdash := List.mem_rtakeWhile_imp (hD ▸ List.mem_of_mem_drop hc)
    exact beq_iff_eq.mp hdash

theorem strip_sublist (m : List Char) : (strip m).Sublist m :=
  (stripTrailing_sublist _).trans (List.dropWhile_sublist _)

theorem head?_strip (m : List Char) : (strip m).head? ≠ some '-' := by
  intro h
  have hhead : (m.dropWhile (· == '-')).head? = some '-' := by
    obtain ⟨rest,hrest⟩ : strip m <+: m.dropWhile (· == '-') := List.rdropWhile_prefix _ _
    rw [← hrest,List.head?_append,h]
    rfl
  have hno := List.head?_dropWhile_not (· == '-') m
  rw [hhead] at hno
  cases hno

theorem stripTrailing_moved (h : leadingDashes m ≤ trailingDashes m) : stripTrailing (moved m) = strip m := by
  rw [moved,stripTrailing_append,if_pos ((stripTrailing_end_iff (leadingDashes_le m)).mpr h),
    drop_leadingDashes]
  rfl

/-- With more dashes in front than at the end, a part of the end stays behind. -/
theorem stripTrailing_moved_of_lt (h : trailingDashes m < leadingDashes m) :
    ∃ w ≠ [], stripTrailing (moved m) = m.dropWhile (· == '-') ++ w := by
  have hne : stripTrailing (m.drop (m.length - leadingDashes m)) ≠ [] := fun he =>
    absurd ((stripTrailing_end_iff (leadingDashes_le m)).mp he) (not_le.mpr h)
  refine ⟨_,hne,?_⟩
  rw [moved,stripTrailing_append,if_neg hne,drop_leadingDashes]

theorem length_collapse_strip_lt (h : trailingDashes m < leadingDashes m) :
    (collapse (strip m)).length < (collapse (stripTrailing (moved m))).length := by
  obtain ⟨w,hw,heq⟩ := stripTrailing_moved_of_lt h
  have hsplit : m.dropWhile (· == '-') = strip m ++ (m.dropWhile (· == '-')).rtakeWhile (· == '-') :=
    List.rdropWhile_append_rtakeWhile.symm
  have hlast : (strip m).getLast? ≠ some '-' := getLast?_stripTrailing _
  have hpos := List.length_pos_of_ne_nil
    (collapse_ne_nil (s := (m.dropWhile (· == '-')).rtakeWhile (· == '-') ++ w) (by simp [hw]))
  rw [heq,hsplit,List.append_assoc,collapse_append hlast,List.length_append]
  omega

theorem length_moved (m : List Char) : (moved m).length = m.length := by
  have := leadingDashes_le m
  simp only [moved,List.length_append,List.length_drop]
  omega

/-- The code gives up only on labels of which one character at most is left. -/
theorem length_strip_le_one (hle : leadingDashes m ≤ trailingDashes m)
    (h : (moved m).length ≤ 1 ∨ (trimmed (moved m)).length ≤ 1) : (strip m).length ≤ 1 := by
  rcases h with h | h
  · rw [length_moved] at h
    exact (strip_sublist m).length_le.trans h
  · rw [← stripTrailing_moved hle]
    by_cases hnil : stripTrailing (moved m) = []
    · rw [hnil]
      exact Nat.zero_le 1
    · rwa [trimmed,if_neg hnil] at h

theorem one_lt_length_trimmed (h : trailingDashes m < leadingDashes m) :
    1 < (moved m).length ∧ 1 < (trimmed (moved m)).length := by
  obtain ⟨w,hw,heq⟩ := stripTrailing_moved_of_lt h
  have hw' := List.length_pos_of_ne_nil hw
  have hdrop : m.dropWhile (· == '-') ≠ [] := by
    intro hnil
    have hall : m.rtakeWhile (· == '-') = m := List.rtakeWhile_eq_self_iff.mpr (List.dropWhile_eq_nil_iff.mp hnil)
    rw [trailingDashes,hall] at h
    exact absurd (leadingDashes_le m) (not_le.mpr h)
  have hdrop' := List.length_pos_of_ne_nil hdrop
  have hlen : 1 < (stripTrailing (moved m)).length := by
    rw [heq,List.length_append]
    omega
  have hsub : (stripTrailing (moved m)).length ≤ (moved m).length := (stripTrailing_sublist _).length_le
  refine ⟨hlen.trans_le hsub,?_⟩
  rwa [trimmed,if_neg (by rw [heq]; simp [hw])]

end Ends

section Results
variable {label : List Char}

theorem isLabelChar_result {m : List Char} (h : ∀ c ∈ m, isLabelChar c = true) :
    ∀ c ∈ result m, isLabelChar c = true := by
  intro c hc
  have hcollapse : c ∈ collapse (stripTrailing (moved m)) := (foldl_removeFirst_sublist _ _).subset hc
  have hstrip : c ∈ stripTrailing (moved m) := (collapse_sublist _).subset hcollapse
  exact h c (mem_moved ((stripTrailing_sublist _).subset hstrip))

/-- A text of one character at most does not get a dash in front. -/
theorem head?_specification_of_short (h : (strip (label.map mapChar)).length ≤ 1) :
    (specification label).head? ≠ some '-' := by
  have hsub : (specification label).Sublist (strip (label.map mapChar)) :=
    (foldl_removeFirst_sublist _ _).trans (collapse_sublist _)
  intro hhead
  have hlen : (strip (label.map mapChar)).length ≤ (specification label).length := by
    rcases hspec : specification label with _ | ⟨c,rest⟩
    · rw [hspec] at hhead
      cases hhead
    · exact h.trans (Nat.le_add_left 1 _)
  rw [hsub.eq_of_length_le hlen] at hhead
  exact head?_strip _ hhead

/-- With as many dashes at the end as in front, only a dash in front of the specification is wrong. -/
theorem sound_iff_head (hnul : nul ∉ label) (rest : List Char)
    (hle : leadingDashes (label.map mapChar) ≤ trailingDashes (label.map mapChar)) :
    Sound label rest ↔ (specification label).head? ≠ some '-' := by
  have hcode := sanitizeLabel_eq hnul rest
  simp only at hcode
  split at hcode
  case isTrue hgive =>
    refine iff_of_true (fun hzero => ?_) (head?_specification_of_short (length_strip_le_one hle hgive))
    rw [hcode] at hzero
    cases hzero
  case isFalse =>
    obtain ⟨hzero,hcstr⟩ := hcode
    have hspec : result (label.map mapChar) = specification label := by
      rw [result,stripTrailing_moved hle]
      rfl
    rw [Sound,hcstr,hspec]
    constructor
    · exact fun hsound => (hsound hzero).2.1
    · exact fun hhead _ => ⟨hspec ▸ isLabelChar_result (label_map label),hhead,rfl⟩

/-- None of the listed substrings stands in the text from which they are removed. -/
def Untouched (label : List Char) : Prop := ∀ w ∈ removeList, ∀ i,
  ¬Search.Occurs w (collapse (stripTrailing (moved (label.map mapChar)))) i

theorem foldl_removeFirst_eq {s : List Char} {ws : List (List Char)} (hws : ∀ w ∈ ws, w ≠ [])
    (h : ∀ w ∈ ws, ∀ i, ¬Search.Occurs w s i) : ws.foldl removeFirst s = s := by
  induction ws with
  | nil => rfl
  | cons w ws ih =>
    rw [List.forall_mem_cons] at hws h
    rw [List.foldl_cons,removeFirst,(Search.find_eq_none_iff hws.1).mpr h.1]
    exact ih hws.2 h.2

/-- With more dashes in front, the characters that stay behind are in the result. -/
theorem not_sound_of_lt (hnul : nul ∉ label) (rest : List Char)
    (hlt : trailingDashes (label.map mapChar) < leadingDashes (label.map mapChar))
    (huntouched : Untouched label) : ¬Sound label rest := by
  have hcode := sanitizeLabel_eq hnul rest
  obtain ⟨hmoved,htrimmed⟩ := one_lt_length_trimmed hlt
  simp only at hcode
  rw [if_neg (by omega)] at hcode
  obtain ⟨hzero,hcstr⟩ := hcode
  intro hsound
  have heq := (hsound hzero).2.2
  rw [hcstr,result,removeAll,foldl_removeFirst_eq ne_nil_of_mem_removeList huntouched] at heq
  have hle : (specification label).length ≤ (collapse (strip (label.map mapChar))).length :=
    (foldl_removeFirst_sublist _ _).length_le
  have hlonger := length_collapse_strip_lt hlt
  rw [heq] at hlonger
  omega

/-- Leading separators do not count for what a label shall become. -/
theorem specification_cons {c : Char} (hc : mapChar c = '-') (label : List Char) :
    specification (c :: label) = specification label := by
  rw [specification,List.map_cons,hc]
  rfl

/-- A listed substring begins with a dash or with a dot. -/
theorem head?_of_mem_removeList : ∀ w ∈ removeList, w.head? = some '-' ∨ w.head? = some '.' := by
  decide

/-- Only a label with a dot in front can get a dash in front. -/
theorem head?_foldl_removeFirst {ws : List (List Char)} {s : List Char}
    (hws : ∀ w ∈ ws, w.head? = some '-' ∨ w.head? = some '.') (hdash : s.head? ≠ some '-')
    (hdot : s.head? ≠ some '.') : (ws.foldl removeFirst s).head? ≠ some '-' := by
  induction ws generalizing s with
  | nil => exact hdash
  | cons w ws ih =>
    rw [List.forall_mem_cons] at hws
    have hhead : (removeFirst s w).head? = s.head? := by
      unfold removeFirst
      split
      · rfl
      case h_2 p hfind =>
        obtain ⟨hp,hocc,-⟩ := Search.find_eq_some_iff.mp hfind
        cases p with
        | zero =>
          obtain ⟨t,ht⟩ := hocc
          rw [List.drop_zero] at ht
          rcases hws.1 with hw | hw
          · exact absurd (by rw [← ht,List.head?_append,hw]; rfl) hdash
          · exact absurd (by rw [← ht,List.head?_append,hw]; rfl) hdot
        | succ p =>
          cases s with
          | nil => exact absurd hp (Nat.not_succ_le_zero p)
          | cons c s => rfl
    exact ih hws.2 (by rwa [hhead]) (by rwa [hhead])

theorem head?_collapse {s : List Char} : (collapse s).head? = s.head? := by
  fun_induction collapse s with
  | case1 a b rest hab ih => rw [ih,hab.1,hab.2]; rfl
  | case2 => rfl
  | case3 => rfl

theorem head?_specification (h : (strip (label.map mapChar)).head? ≠ some '.') :
    (specification label).head? ≠ some '-' := by
  refine head?_foldl_removeFirst head?_of_mem_removeList ?_ ?_
  · rw [head?_collapse]
    exact head?_strip _
  · rwa [head?_collapse]

/-- The label has at least as many separators at its end as in front, and removing the listed
substrings leaves no dash in front. -/
def Meets (label : List Char) : Prop :=
  leadingDashes (label.map mapChar) ≤ trailingDashes (label.map mapChar) ∧
    (specification label).head? ≠ some '-'

/-- A label is what the specification says where the condition holds; a label with more
separators in front is not, unless the characters that stay behind are removed as a part of a
listed substring. -/
theorem sanitizeLabel_sound (hnul : nul ∉ label) (rest : List Char) :
    (Meets label → Sound label rest) ∧
      (leadingDashes (label.map mapChar) ≤ trailingDashes (label.map mapChar) ∨ Untouched label →
        Sound label rest → Meets label) := by
  refine ⟨fun h => (sound_iff_head hnul rest h.1).mpr h.2,fun hor hsound => ?_⟩
  by_cases hle : leadingDashes (label.map mapChar) ≤ trailingDashes (label.map mapChar)
  · exact ⟨hle,(sound_iff_head hnul rest hle).mp hsound⟩
  · exact absurd hsound (not_sound_of_lt hnul rest (not_le.mp hle) (hor.resolve_left hle))

theorem sanitizeLabel_sound_ubuntu :
    (Meets "Ubuntu 22.04".toList → Sound "Ubuntu 22.04".toList []) ∧
      (leadingDashes ("Ubuntu 22.04".toList.map mapChar) ≤ trailingDashes ("Ubuntu 22.04".toList.map mapChar) ∨
        Untouched "Ubuntu 22.04".toList → Sound "Ubuntu 22.04".toList [] → Meets "Ubuntu 22.04".toList) :=
  sanitizeLabel_sound (by decide) []

/-- The last two characters of a label with two separators in front are there twice. -/
theorem sanitizeLabel_doubles_end : ¬Sound "--abc".toList [] := by
  intro h
  have hcode : (sanitizeLabel ("--abc".toList ++ nul :: [])).1 = 0 ∧
      cstr (sanitizeLabel ("--abc".toList ++ nul :: [])).2 0 ≠ specification "--abc".toList := by
    decide +kernel
  exact hcode.2 (h hcode.1).2.2

end Results

end SecureWipeOut.SanitizeLabel
