import SecureWipeOut.Parser.TokenLine

/-! # Lines written behind other text

The writer appends its line where the file ends, which may be in the middle of a line.
The reader then finds the token only where it skips what stands ahead of it; behind any
other text the data of the token is not what has been written.
-/
namespace SecureWipeOut.TokenFile

open CText TextFile

variable (token : Token)

/-- A reading of the data that cannot return every single character: it ignores the
data, or what it returns is longer. -/
def Blind (f : Value → Option (List Char)) : Prop :=
  (∃ v, ∀ d, f d = v) ∨ ∀ d, ∃ u, f d = some u ∧ 1 < u.length

theorem Blind.none {f : Value → Option (List Char)} (h : ∀ d, f d = none) : Blind f := .inl ⟨_,h⟩

theorem Blind.not_single {f : Value → Option (List Char)} (h : Blind f) {d₁ d₂ : Value}
    (hlen : d₁.text.length = 1) (hne : d₁.text ≠ d₂.text) (h₁ : f d₁ = some d₁.text)
    (h₂ : f d₂ = some d₂.text) : False := by
  rcases h with ⟨v,hv⟩ | h
  · rw [hv] at h₁ h₂
    exact hne (Option.some.inj (h₁.symm.trans h₂))
  · obtain ⟨u,hu,hlong⟩ := h d₁
    have : u = d₁.text := Option.some.inj (hu.symm.trans h₁)
    rw [this,hlen] at hlong
    omega

theorem length_lt_rdropWhile {p : Char → Bool} {c : Char} (hc : p c = false) (a y : List Char) :
    a.length < ((a ++ c :: y).rdropWhile p).length := by
  induction y using List.reverseRecOn with
  | nil =>
    rw [List.rdropWhile_concat_neg _ _ _ (by simp [hc])]
    simp
  | append_singleton y x ih =>
    have hassoc : a ++ c :: (y ++ [x]) = (a ++ c :: y) ++ [x] := by simp
    rw [hassoc]
    by_cases hx : p x = true
    · rwa [List.rdropWhile_concat_pos _ _ _ hx]
    · rw [List.rdropWhile_concat_neg _ _ _ hx]
      simp

theorem head?_newLine (d : List Char) : ∀ c ∈ (newLine token.text d).head?, wordChar c = true := by
  obtain ⟨c,s,hs,hc⟩ := token.exists_cons
  simpa [newLine,hs] using hc

theorem skip_append_newLine (r d : List Char) :
    skip (r ++ newLine token.text d) = skip r ++ newLine token.text d :=
  skip_append r fun c hc => (ne_of_wordChar (head?_newLine token d c hc)).1

theorem takeWhile_append_of_mem {p : Char → Bool} {w : List Char} {c : Char} (hc : c ∈ w)
    (hp : p c = false) (x : List Char) : (w ++ x).takeWhile p = w.takeWhile p := by
  rw [List.takeWhile_append,if_neg]
  intro hlen
  have hself : w.takeWhile p = w := (List.takeWhile_prefix p).eq_of_length hlen
  simp [List.takeWhile_eq_self_iff.mp hself c hc] at hp

theorem inData_word {c : Char} (hc : wordChar c = true) (quoteth xml : Bool) : inData quoteth xml c = true := by
  obtain ⟨-,-,hlt,-,hquote,-⟩ := ne_of_wordChar hc
  simp [inData,hlt,hquote]

theorem dataText_blind (quoteth xml : Bool) (w : List Char) :
    Blind fun d => dataText quoteth xml (w ++ newLine token.text d.text) := by
  by_cases hw : ∀ c ∈ w, inData quoteth xml c = true
  · -- the data goes on through the token of the written line
    refine .inr fun d => ?_
    have hpre : ∀ c ∈ w ++ (token.text ++ [' ','=',' ']), inData quoteth xml c = true := by
      intro c hc
      rcases List.mem_append.mp hc with hc | hc
      · exact hw c hc
      rcases List.mem_append.mp hc with hc | hc
      · exact inData_word (token.word c hc) quoteth xml
      · fin_cases hc <;> simp [inData]
    have hsplit : w ++ newLine token.text d.text =
        (w ++ (token.text ++ [' ','=',' '])) ++ (d.text ++ ['\n']) := by simp [newLine]
    have htext : (w ++ newLine token.text d.text).takeWhile (inData quoteth xml) =
        (w ++ (token.text ++ [' ','='])) ++ ' ' :: (d.text ++ ['\n']).takeWhile (inData quoteth xml) := by
      rw [hsplit,List.takeWhile_append_of_pos hpre]
      simp
    have hlen := length_lt_rdropWhile (p := isEol) (c := ' ') (by decide)
      (w ++ (token.text ++ [' ','='])) ((d.text ++ ['\n']).takeWhile (inData quoteth xml))
    rw [← htext] at hlen
    simp only [List.length_append,List.length_cons,List.length_nil] at hlen
    refine ⟨_,?_,(by omega : 1 < _).trans hlen⟩
    simp only [dataText]
    rw [if_neg]
    rw [List.isEmpty_iff,← List.length_eq_zero_iff]
    omega
  · push Not at hw
    obtain ⟨c,hc,hstop⟩ := hw
    refine .inl ⟨dataText quoteth xml w,fun d => ?_⟩
    simp only [dataText,takeWhile_append_of_mem hc (by simpa using hstop)]

theorem head?_append_newLine {s : List Char} (hs : s.head? ≠ some '"') (d : List Char) :
    (s ++ newLine token.text d).head? ≠ some '"' := by
  cases s with
  | nil =>
    intro h
    exact (ne_of_wordChar (head?_newLine token d _ h)).2.2.2.2.1 rfl
  | cons c s => simpa using hs

theorem dataField_blind (xml : Bool) (r : List Char) :
    Blind fun d => dataField xml (r ++ newLine token.text d.text) := by
  by_cases hq : (skip r).head? = some '"'
  · obtain ⟨q,hq⟩ := List.head?_eq_some_iff.mp hq
    have hfield : ∀ d : Value, dataField xml (r ++ newLine token.text d.text) =
        dataText true xml (q ++ newLine token.text d.text) := by
      intro d
      rw [dataField,skip_append_newLine,hq]
      rfl
    simpa only [hfield] using dataText_blind token true xml q
  · have hfield : ∀ d : Value, dataField xml (r ++ newLine token.text d.text) =
        dataText false xml (skip r ++ newLine token.text d.text) := by
      intro d
      rw [dataField,skip_append_newLine]
      split
      · rename_i q hq'
        exact absurd (by simp [hq']) (head?_append_newLine token hq d.text)
      · rfl
    simpa only [hfield] using dataText_blind token false xml (skip r)

theorem signedField_blind (s : List Char) : Blind fun d => signedField (s ++ newLine token.text d.text) := by
  cases s with
  | nil =>
    -- the sign would have to be the first character of the token
    obtain ⟨c,w,hw,hc⟩ := token.exists_cons
    refine .none fun d => ?_
    have hline : [] ++ newLine token.text d.text = skip (c :: (w ++ ' ' :: '=' :: ' ' :: d.text ++ ['\n'])) := by
      rw [skip_of_head (by simpa using (ne_of_wordChar hc).1)]
      simp [newLine,hw]
    rw [hline]
    exact signedField_of_word hc _
  | cons c r =>
    by_cases hgt : c = '>'
    · subst hgt
      exact dataField_blind token true r
    by_cases heq : c = '='
    · subst heq
      exact dataField_blind token false r
    refine .none fun d => ?_
    rw [List.cons_append,signedField]
    · exact fun _ h => hgt (List.cons.inj h).1
    · exact fun _ h => heq (List.cons.inj h).1

/-- A line that is written behind text which is not skipped ahead of a token does not
give its data to the token. -/
theorem getTokenDataLine_blind {lead : List Char} (h : skipOpening lead ≠ []) :
    Blind fun d => getTokenDataLine token.text (lead ++ newLine token.text d.text) := by
  have hopen : ∀ d : Value, skipOpening (lead ++ newLine token.text d.text) =
      skipOpening lead ++ newLine token.text d.text := by
    intro d
    apply skipOpening_append
    intro c hc
    have := ne_of_wordChar (head?_newLine token _ c hc)
    exact ⟨this.1,this.2.2.1⟩
  simp only [getTokenDataLine,hopen]
  set s := skipOpening lead
  rcases le_or_gt token.text.length s.length with hle | hlt
  · simp only [wcsnicmp,List.take_append_of_le_length hle,List.drop_append_of_le_length hle]
    split
    · simpa only [skip_append_newLine] using signedField_blind token (skip (s.drop token.text.length))
    · exact .none fun _ => rfl
  · -- the token would have to end inside the token of the written line
    refine .none fun d => ?_
    have hpos : 0 < s.length := List.length_pos_iff.mpr h
    have hdrop : token.text.drop (token.text.length - s.length) ≠ [] := by
      simp
      omega
    obtain ⟨c,w,hw⟩ := List.exists_cons_of_ne_nil hdrop
    have hc := token.word c (List.mem_of_mem_drop (hw ▸ List.mem_cons_self))
    split
    · have hle : token.text.length - s.length ≤ token.text.length := Nat.sub_le ..
      rw [List.drop_append,List.drop_eq_nil_of_le hlt.le,List.nil_append,newLine,List.append_assoc,
        List.drop_append_of_le_length hle,hw]
      exact signedField_of_word hc _
    · rfl

end SecureWipeOut.TokenFile
