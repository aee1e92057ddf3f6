import SecureWipeOut.Parser.SbatLines

/-! # The lines of a level text

The entries of the well-formed lines of a text, and what the loop of `GetSbatEntries`
records of its lines. A line without a comma ends the loop.
-/
namespace SecureWipeOut.Sbat
open CText Loop Text

section Specification

/-- The version that a field of a line gives. -/
def fieldVersion (field : List Char) : ℕ :=
  if field.take 2 = ['0','x'] then strtoul 16 field else strtoul 10 field

/-- The entry of a well-formed line of nonzero version. -/
def lineEntry (l : Line) : Option SbatEntry :=
  if l.head? = some '#' then none
  else
    match l.splitOn ',' with
    | product :: version :: _ =>
      if fieldVersion version = 0 then none else some ⟨product,fieldVersion version⟩
    | _ => none

def levelEntries (text : List Char) : List SbatEntry := (text.splitOn '\n').filterMap lineEntry

/-- A line that is neither blank nor a comment. -/
def isLevelLine (l : Line) : Bool := decide (l ≠ []) && decide (l.head? ≠ some '#')

/-- What the loop makes of lines: the entries, and whether a product without a version
follows them. -/
def scanLines : List SbatEntry × Bool → List Line → List SbatEntry × Bool
  | r, [] => r
  | r, l :: ls =>
    if isLevelLine l then
      match l.splitOn ',' with
      | product :: version :: _ =>
        if fieldVersion version = 0 then scanLines (r.1,true) ls
        else scanLines (r.1 ++ [⟨product,fieldVersion version⟩],false) ls
      | _ => (r.1,true)
    else scanLines r ls

/-- Every line but the blank ones and the comments has a comma, and the last of them
has an entry. -/
def Clean (ls : List Line) : Prop :=
  (∀ l ∈ ls.filter isLevelLine, ',' ∈ l) ∧ ∀ l ∈ (ls.filter isLevelLine).getLast?, lineEntry l ≠ none

end Specification

section Lines

theorem scanLines_skip {l : Line} (h : isLevelLine l = false) (r : List SbatEntry × Bool)
    (ls : List Line) : scanLines r (l :: ls) = scanLines r ls := by
  rw [scanLines,h]
  rfl

theorem scanLines_blank (r : List SbatEntry × Bool) (text : List Char) :
    scanLines r (('\n' :: text).splitOn '\n') = scanLines r (text.splitOn '\n') := by
  have hsplit : ([] ++ '\n' :: text).splitOn '\n' = [] :: text.splitOn '\n' :=
    List.splitOn_append_cons_self_of_not_mem (by simp) _
  rw [← List.nil_append ('\n' :: text),hsplit]
  exact scanLines_skip rfl r _

theorem scanLines_linesAfter (r : List SbatEntry × Bool) {more : List Char} (h : LineBreak more) :
    scanLines r (more.splitOn '\n') = scanLines r (linesAfter more) := by
  rcases h with rfl | ⟨t,rfl⟩
  · exact scanLines_skip rfl r []
  · exact scanLines_blank r t

theorem lineEntry_of_skipped {l : Line} (h : isLevelLine l = false) : lineEntry l = none := by
  unfold lineEntry
  split
  · rfl
  · next hhead =>
    obtain rfl : l = [] := by simpa [isLevelLine,hhead] using h
    rfl

/-- Up to the end of the loop nothing is lost, and every line takes one entry at most. -/
theorem scanLines_length (ls : List Line) (r : List SbatEntry × Bool) :
    (scanLines r ls).1.length + (scanLines r ls).2.toNat ≤ r.1.length + r.2.toNat + ls.length := by
  induction ls generalizing r with
  | nil => simp [scanLines]
  | cons l ls ih =>
    rw [scanLines,List.length_cons]
    split
    · split
      · split
        · have h := ih (r.1,true)
          simp only [Bool.toNat_true] at h
          omega
        · refine (ih _).trans ?_
          simp only [List.length_append,List.length_singleton,Bool.toNat_false]
          omega
      · simp only [Bool.toNat_true]
        omega
    · have h := ih r
      omega

theorem lineEntry_version {l : Line} {e : SbatEntry} (h : lineEntry l = some e) : e.version ≠ 0 := by
  unfold lineEntry at h
  split at h
  · cases h
  · split at h
    · split at h
      · cases h
      · next hv =>
        obtain rfl := Option.some.inj h
        exact hv
    · cases h

/-- What a line with a comma adds. -/
theorem scanLines_comma {l : Line} (hl : isLevelLine l = true) (hcomma : ',' ∈ l)
    (r : List SbatEntry × Bool) (ls : List Line) : scanLines r (l :: ls) =
      scanLines (r.1 ++ (lineEntry l).toList,decide (lineEntry l = none)) ls := by
  have hhead : ¬ l.head? = some '#' := by
    simp only [isLevelLine,Bool.and_eq_true,decide_eq_true_eq] at hl
    exact hl.2
  obtain ⟨p,q,rfl,hp⟩ := List.eq_append_cons_of_mem hcomma
  obtain ⟨v,fs,hv⟩ := List.exists_cons_of_ne_nil (List.splitOn_ne_nil ',' q)
  have hsplit := List.splitOn_append_cons_self_of_not_mem hp q
  rw [hv] at hsplit
  rw [scanLines,if_pos hl,lineEntry,if_neg hhead,hsplit]
  dsimp only
  split <;> simp

theorem scanLines_noComma {l : Line} (hl : isLevelLine l = true) (hcomma : ',' ∉ l)
    (r : List SbatEntry × Bool) (ls : List Line) : scanLines r (l :: ls) = (r.1,true) := by
  rw [scanLines,if_pos hl,List.splitOn_eq_singleton hcomma]

/-- Where every line has a comma, the entries are those of the lines, and the last
line decides whether a product is left over. -/
theorem scanLines_commas (ls : List Line) (r : List SbatEntry × Bool)
    (h : ∀ l ∈ ls.filter isLevelLine, ',' ∈ l) : scanLines r ls = (r.1 ++ ls.filterMap lineEntry,
      ((ls.filter isLevelLine).getLast?.map fun l => decide (lineEntry l = none)).getD r.2) := by
  induction ls generalizing r with
  | nil => simp [scanLines]
  | cons l ls ih =>
    cases hl : isLevelLine l with
    | false =>
      rw [List.filter_cons_of_neg (by simp [hl])] at h ⊢
      rw [scanLines_skip hl,ih r h,List.filterMap_cons_none (lineEntry_of_skipped hl)]
    | true =>
      rw [List.filter_cons_of_pos hl] at h ⊢
      have hcomma := h l List.mem_cons_self
      rw [scanLines_comma hl hcomma,ih _ fun l' hl' => h l' (List.mem_cons_of_mem l hl')]
      refine Prod.ext ?_ ?_
      · cases he : lineEntry l with
        | none => simp [List.filterMap_cons_none he]
        | some e => simp [List.filterMap_cons_some he]
      · rw [List.getLast?_cons]
        cases (ls.filter isLevelLine).getLast? with
        | none => rfl
        | some l' => rfl

/-- A line without a comma leaves its product behind. -/
theorem scanLines_left_over (ls : List Line) (r : List SbatEntry × Bool)
    (h : ∃ l ∈ ls.filter isLevelLine, ',' ∉ l) : (scanLines r ls).2 = true := by
  induction ls generalizing r with
  | nil => simp at h
  | cons l ls ih =>
    cases hl : isLevelLine l with
    | false =>
      rw [List.filter_cons_of_neg (by simp [hl])] at h
      rw [scanLines_skip hl]
      exact ih r h
    | true =>
      by_cases hcomma : ',' ∈ l
      · rw [scanLines_comma hl hcomma]
        apply ih
        obtain ⟨l',hmem,hno⟩ := h
        rw [List.filter_cons_of_pos hl] at hmem
        rcases List.mem_cons.mp hmem with rfl | hmem
        · exact absurd hcomma hno
        · exact ⟨l',hmem,hno⟩
      · rw [scanLines_noComma hl hcomma]

/-- The entries recorded are those of lines. -/
theorem scanLines_mem (ls : List Line) (r : List SbatEntry × Bool) :
    ∀ e ∈ (scanLines r ls).1, e ∈ r.1 ∨ e ∈ ls.filterMap lineEntry := by
  induction ls generalizing r with
  | nil => exact fun e he => Or.inl he
  | cons l ls ih =>
    intro e he
    cases hl : isLevelLine l with
    | false =>
      rw [scanLines_skip hl] at he
      rw [List.filterMap_cons_none (lineEntry_of_skipped hl)]
      exact ih r e he
    | true =>
      by_cases hcomma : ',' ∈ l
      · rw [scanLines_comma hl hcomma] at he
        have hmem := ih _ e he
        cases hentry : lineEntry l with
        | none => simpa [hentry,List.filterMap_cons_none hentry] using hmem
        | some e' =>
          simp only [hentry,Option.toList_some,List.mem_append,List.mem_singleton] at hmem
          rw [List.filterMap_cons_some hentry,List.mem_cons,← or_assoc]
          exact hmem
      · rw [scanLines_noComma hl hcomma] at he
        exact Or.inl he

theorem scanLines_clean_iff (ls : List Line) :
    scanLines ([],false) ls = (ls.filterMap lineEntry,false) ↔ Clean ls := by
  by_cases hcommas : ∀ l ∈ ls.filter isLevelLine, ',' ∈ l
  · rw [scanLines_commas ls _ hcommas,Clean,and_iff_right hcommas]
    cases (ls.filter isLevelLine).getLast? with
    | none => simp
    | some l => simp
  · constructor
    · intro heq
      push Not at hcommas
      have hleft := scanLines_left_over ls ([],false) hcommas
      rw [heq] at hleft
      cases hleft
    · exact fun hclean => absurd hclean.1 hcommas

end Lines

end SecureWipeOut.Sbat
