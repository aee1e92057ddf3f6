import SecureWipeOut.Parser.TokenFile
import Mathlib

/-! # The lines of a token file

The reader and the writer on one line. A line that begins with a token, blanks and an
equal sign gives a value to this token and to no other; the line that the writer leaves
behind has the new data as its value.
-/
namespace SecureWipeOut.TokenFile

open CText TextFile

section Blanks

theorem skip_blanks {b : List Char} (hb : ∀ c ∈ b, wspace c = true) (s : List Char) :
    skip (b ++ s) = skip s := List.dropWhile_append_of_pos hb

theorem skip_of_head {s : List Char} (h : ∀ c ∈ s.head?, wspace c = false) : skip s = s := by
  cases s with
  | nil => rfl
  | cons c s => exact List.dropWhile_cons_of_neg (by simp [h c (by simp)])

theorem head?_skip (s : List Char) : ∀ c ∈ (skip s).head?, wspace c = false := by
  intro c hc
  have := List.head?_dropWhile_not wspace s
  rw [← skip,Option.mem_def.mp hc] at this
  simpa using this

theorem exists_blanks (s : List Char) : ∃ b, (∀ c ∈ b, wspace c = true) ∧ s = b ++ skip s :=
  ⟨s.takeWhile wspace,fun _ hc => List.mem_takeWhile_imp hc,List.takeWhile_append_dropWhile.symm⟩

/-- Text that blanks do not begin stays behind whatever is skipped ahead of it. -/
theorem skip_append (s : List Char) {x : List Char} (hx : ∀ c ∈ x.head?, wspace c = false) :
    skip (s ++ x) = skip s ++ x := by
  obtain ⟨b,hb,hs⟩ := exists_blanks s
  cases hr : skip s with
  | nil =>
    rw [hr,List.append_nil] at hs
    rw [hs,skip_blanks hb,skip_of_head hx,List.nil_append]
  | cons c r =>
    rw [hs,hr,List.append_assoc,skip_blanks hb]
    exact skip_of_head fun d hd => head?_skip s d (by simpa [hr] using hd)

theorem skipOpening_of_lt {l s : List Char} (h : skip l = '<' :: s) : skipOpening l = skip s := by
  simp [skipOpening,h]

theorem skipOpening_of_ne {l : List Char} (h : (skip l).head? ≠ some '<') : skipOpening l = skip l := by
  rw [skipOpening]
  split
  · rename_i s hs
    simp [hs] at h
  · exact skip_of_head (head?_skip l)

theorem skipOpening_append (s : List Char) {x : List Char}
    (hx : ∀ c ∈ x.head?, wspace c = false ∧ c ≠ '<') : skipOpening (s ++ x) = skipOpening s ++ x := by
  have hskip := fun r : List Char => skip_append r fun c hc => (hx c hc).1
  by_cases hs : (skip s).head? = some '<'
  · obtain ⟨r,hr⟩ := List.head?_eq_some_iff.mp hs
    rw [skipOpening_of_lt hr,← hskip r]
    exact skipOpening_of_lt (by rw [hskip s,hr,List.cons_append])
  · rw [skipOpening_of_ne hs,← hskip s]
    apply skipOpening_of_ne
    rw [hskip s,List.head?_append]
    cases hr : (skip s).head? with
    | none => exact fun he => (hx _ he).2 rfl
    | some c => simpa [hr] using hs

end Blanks

section Words

theorem wordChar_toLower (c : Char) : wordChar c.toLower = wordChar c := by
  by_cases hc : c.toNat < 128
  · have h : ∀ n < 128, wordChar (Char.ofNat n).toLower = wordChar (Char.ofNat n) := by decide
    simpa using h c.toNat hc
  · have hup : ¬(c.val ≥ 'A'.val ∧ c.val ≤ 'Z'.val) := by
      rintro ⟨-,h⟩
      have hle : c.toNat ≤ 90 := UInt32.le_iff_toNat_le.mp h
      omega
    rw [Char.toLower,dif_neg hup]

theorem word_of_fold {s t : List Char} (h : s.map Char.toLower = t.map Char.toLower)
    (ht : ∀ c ∈ t, wordChar c = true) : ∀ c ∈ s, wordChar c = true := by
  intro c hc
  have hmem : c.toLower ∈ t.map Char.toLower := h ▸ List.mem_map_of_mem hc
  obtain ⟨d,hd,hdc⟩ := List.mem_map.mp hmem
  rw [← wordChar_toLower,← hdc,wordChar_toLower]
  exact ht d hd

theorem ne_of_wordChar {c : Char} (h : wordChar c = true) :
    wspace c = false ∧ c ≠ '=' ∧ c ≠ '<' ∧ c ≠ '>' ∧ c ≠ '"' ∧ c ≠ '\r' ∧ c ≠ '\n' := by
  simp only [wordChar,Bool.and_eq_true,Bool.not_eq_true',bne_iff_ne] at h
  tauto

theorem Token.exists_cons (t : Token) : ∃ c s, t.text = c :: s ∧ wordChar c = true := by
  cases h : t.text with
  | nil => exact absurd h t.nonempty
  | cons c s => exact ⟨c,s,rfl,t.word c (by simp [h])⟩

theorem Token.newline_notMem (t : Token) : '\n' ∉ t.text := by
  intro h
  exact (ne_of_wordChar (t.word _ h)).2.2.2.2.2.2 rfl

theorem wcsnicmp_iff (s t : List Char) :
    wcsnicmp s t = true ↔ (s.take t.length).map Char.toLower = t.map Char.toLower := beq_iff_eq

/-- The word that begins a text ends where another character follows. -/
theorem length_le_of_take {tok s : List Char} {x : Char} {n : ℕ} (hx : wordChar x = false)
    (h : ∀ c ∈ (tok ++ x :: s).take n, wordChar c = true) : n ≤ tok.length := by
  by_contra hn
  have hmem : x ∈ (tok ++ x :: s).take n := by
    rw [List.take_append]
    have hpos : n - tok.length = (n - tok.length - 1) + 1 := by omega
    rw [hpos,List.take_succ_cons]
    simp
  simp [h x hmem] at hx

end Words

section Reading

variable (token : Token)

theorem rdropWhile_append_of_all {p : Char → Bool} {s e : List Char} (he : ∀ c ∈ e, p c = true) :
    (s ++ e).rdropWhile p = s.rdropWhile p := by
  rw [List.rdropWhile,List.rdropWhile,List.reverse_append,List.dropWhile_append_of_pos]
  simpa using he

theorem signedField_of_word {c : Char} (hc : wordChar c = true) (s : List Char) :
    signedField (skip (c :: s)) = none := by
  obtain ⟨hblank,heq,-,hgt,-⟩ := ne_of_wordChar hc
  rw [skip_of_head (by simpa using hblank),signedField]
  · exact fun _ h => hgt (List.cons.inj h).1
  · exact fun _ h => heq (List.cons.inj h).1

/-- A line that begins with a token, blanks and an equal sign gives a value to this
token and to no other. -/
theorem getTokenDataLine_key (t : Token) {lead tok b s : List Char} (hlead : skipOpening lead = [])
    (htok : tok.map Char.toLower = token.fold) (hb : ∀ c ∈ b, wspace c = true) :
    getTokenDataLine t.text (lead ++ (tok ++ (b ++ '=' :: s))) =
      if t.fold = token.fold then dataField false s else none := by
  have hword := word_of_fold htok token.word
  have hlen : tok.length = token.text.length := by simpa [Token.fold] using congrArg List.length htok
  have hne : tok ≠ [] := by
    intro he
    exact token.nonempty (List.length_eq_zero_iff.mp (by rw [← hlen,he]; rfl))
  have hs : skipOpening (lead ++ (tok ++ (b ++ '=' :: s))) = tok ++ (b ++ '=' :: s) := by
    rw [skipOpening_append,hlead,List.nil_append]
    intro c hc
    have hmem : c ∈ tok := by
      rw [List.head?_append_of_ne_nil _ hne] at hc
      exact List.mem_of_mem_head? hc
    have := ne_of_wordChar (hword c hmem)
    exact ⟨this.1,this.2.2.1⟩
  have hstop : ∃ x r, b ++ '=' :: s = x :: r ∧ wordChar x = false := by
    cases b with
    | nil => exact ⟨'=',s,rfl,by decide⟩
    | cons x r => exact ⟨x,_,rfl,by simp [wordChar,hb x (by simp)]⟩
  rw [getTokenDataLine,hs]
  by_cases ht : t.fold = token.fold
  · have hlen' : t.text.length = tok.length := by
      rw [hlen]
      simpa [Token.fold] using congrArg List.length ht
    have hcmp : wcsnicmp (tok ++ (b ++ '=' :: s)) t.text = true := by
      rw [wcsnicmp_iff,hlen',List.take_left,htok,← ht,Token.fold]
    rw [if_pos hcmp,if_pos ht,hlen',List.drop_left,skip_blanks hb,skip_of_head (by simp; decide)]
    rfl
  · rw [if_neg ht]
    split
    · rename_i hcmp
      rw [wcsnicmp_iff] at hcmp
      obtain ⟨x,r,hr,hx⟩ := hstop
      rw [hr] at hcmp ⊢
      have hle := length_le_of_take hx (word_of_fold hcmp t.word)
      rcases hle.lt_or_eq with hlt | heq
      · have hdrop : tok.drop t.text.length ≠ [] := by simpa using hlt
        obtain ⟨c,w,hw⟩ := List.exists_cons_of_ne_nil hdrop
        rw [List.drop_append_of_le_length hle,hw,List.cons_append]
        exact signedField_of_word (hword c (List.mem_of_mem_drop (hw ▸ List.mem_cons_self))) _
      · rw [heq,List.take_left,htok] at hcmp
        exact absurd hcmp.symm ht
    · rfl

/-- Written data is read back, without the line break that ends it. -/
theorem dataField_value (d : Value) {b e : List Char} (hb : ∀ c ∈ b, wspace c = true)
    (he : ∀ c ∈ e, isEol c = true) : dataField false (b ++ (d.text ++ e)) = some d.text := by
  obtain ⟨c,s,hd⟩ := List.exists_cons_of_ne_nil d.nonempty
  have hskip : skip (d.text ++ e) = d.text ++ e := by
    apply skip_of_head
    intro x hx
    exact d.lead x (by simpa [hd] using hx)
  have hquote : (d.text ++ e).head? ≠ some '"' := by
    intro h
    exact d.noQuote (by simp_all)
  have hfield : dataField false (b ++ (d.text ++ e)) = dataText false false (d.text ++ e) := by
    rw [dataField,skip_blanks hb,hskip]
    split
    · rename_i h
      simp [h] at hquote
    · rfl
  have hall : (d.text ++ e).takeWhile (inData false false) = d.text ++ e := by
    apply List.takeWhile_eq_self_iff.mpr
    intro c _
    by_cases h1 : c = '"' <;> by_cases h2 : c = '<' <;> simp [inData,h1,h2]
  have hend : (d.text ++ e).rdropWhile isEol = d.text := by
    rw [rdropWhile_append_of_all he]
    apply List.rdropWhile_eq_self_iff.mpr
    intro hl h
    have hmem := List.getLast_mem hl
    rcases (by simpa [isEol] using h : d.text.getLast hl = '\r' ∨ d.text.getLast hl = '\n') with h | h
    · exact d.oneLine.1 (h ▸ hmem)
    · exact d.oneLine.2 (h ▸ hmem)
  rw [hfield,dataText,hall,hend,if_neg (by simpa using d.nonempty)]

/-- Data that follows `head` is read as data of the token, and of no other. -/
def ReadsAs (head : List Char) : Prop :=
  ∀ (t : Token) (d : Value) (e : List Char), (∀ c ∈ e, isEol c = true) →
    getTokenDataLine t.text (head ++ (d.text ++ e)) = if t.fold = token.fold then some d.text else none

theorem readsAs_key {lead tok b₁ b₂ : List Char} (hlead : skipOpening lead = [])
    (htok : tok.map Char.toLower = token.fold) (hb₁ : ∀ c ∈ b₁, wspace c = true)
    (hb₂ : ∀ c ∈ b₂, wspace c = true) : ReadsAs token (lead ++ (tok ++ (b₁ ++ '=' :: b₂))) := by
  intro t d e he
  have hline := getTokenDataLine_key token t (s := b₂ ++ (d.text ++ e)) hlead htok hb₁
  rw [dataField_value d hb₂ he] at hline
  simpa using hline

/-- What stands ahead of the data in an appended line, behind text that is skipped. -/
theorem readsAs_newLine {lead : List Char} (hlead : skipOpening lead = []) :
    ReadsAs token (lead ++ (token.text ++ [' ','=',' '])) := by
  have hb : ∀ c ∈ [' '], wspace c = true := by simp [wspace]
  exact readsAs_key token hlead rfl hb hb

end Reading

section Writing

variable (token : Token)

theorem take_of_append {l p r : List Char} (h : l = p ++ r) : l.take (l.length - r.length) = p := by
  subst h
  simp

/-- What the writer keeps of a line: the token between blanks, the equal sign and the
blanks that follow it. -/
structure Kept (l kept : List Char) : Prop where
  line : ∃ rest, l = kept ++ rest
  shape : ∃ b₁ tok b₂ b₃, kept = b₁ ++ (tok ++ (b₂ ++ '=' :: b₃)) ∧ tok.map Char.toLower = token.fold ∧
    (∀ c ∈ b₁, wspace c = true) ∧ (∀ c ∈ b₂, wspace c = true) ∧ ∀ c ∈ b₃, wspace c = true

theorem kept_of_keptOf {l kept : List Char} (h : keptOf token.text l = some kept) : Kept token l kept := by
  obtain ⟨b₁,hb₁,hl⟩ := exists_blanks l
  obtain ⟨b₂,hb₂,hs⟩ := exists_blanks ((skip l).drop token.text.length)
  rw [keptOf] at h
  split at h
  · simp at h
  split at h
  · rename_i hcmp
    rw [wcsnicmp_iff] at hcmp
    split at h
    · rename_i s heq
      obtain ⟨b₃,hb₃,hs₃⟩ := exists_blanks s
      rw [heq] at hs
      have hcut : l = (b₁ ++ ((skip l).take token.text.length ++ (b₂ ++ '=' :: b₃))) ++ skip s := by
        conv_lhs => rw [hl,← List.take_append_drop token.text.length (skip l),hs,hs₃]
        simp
      have hkept : kept = b₁ ++ ((skip l).take token.text.length ++ (b₂ ++ '=' :: b₃)) := by
        rw [← Option.some.inj h]
        exact take_of_append hcut
      exact ⟨⟨skip s,by rw [hkept]; exact hcut⟩,b₁,_,b₂,b₃,hkept,hcmp,hb₁,hb₂,hb₃⟩
    · simp at h
  · simp at h

theorem blank_ne {c : Char} (h : wspace c = true) : c ≠ '\n' ∧ c ≠ '<' := by
  constructor
  all_goals
    rintro rfl
    exact absurd h (by decide)

theorem skipOpening_blanks {b : List Char} (hb : ∀ c ∈ b, wspace c = true) : skipOpening b = [] := by
  have hskip : skip b = [] := by simpa [skip] using hb
  rw [skipOpening_of_ne (by simp [hskip]),hskip]

variable {token}

theorem Kept.notMem {l kept : List Char} (h : Kept token l kept) : '\n' ∉ kept := by
  obtain ⟨b₁,tok,b₂,b₃,rfl,htok,hb₁,hb₂,hb₃⟩ := h.shape
  have hword := word_of_fold htok token.word
  intro hmem
  simp only [List.mem_append,List.mem_cons] at hmem
  rcases hmem with h | h | h | h | h
  · exact (blank_ne (hb₁ _ h)).1 rfl
  · exact (ne_of_wordChar (hword _ h)).2.2.2.2.2.2 rfl
  · exact (blank_ne (hb₂ _ h)).1 rfl
  · exact absurd h (by decide)
  · exact (blank_ne (hb₃ _ h)).1 rfl

/-- A line that the writer replaces gives no value to another token. -/
theorem Kept.other {l kept : List Char} (h : Kept token l kept) {t : Token} (ht : t.fold ≠ token.fold) :
    getTokenDataLine t.text l = none := by
  obtain ⟨rest,rfl⟩ := h.line
  obtain ⟨b₁,tok,b₂,b₃,rfl,htok,hb₁,hb₂,hb₃⟩ := h.shape
  have hline := getTokenDataLine_key token t (s := b₃ ++ rest) (skipOpening_blanks hb₁) htok hb₂
  simpa [ht] using hline

/-- The line that the writer leaves behind has the new data as its value. -/
theorem Kept.readsAs {l kept : List Char} (h : Kept token l kept) : ReadsAs token kept := by
  obtain ⟨b₁,tok,b₂,b₃,rfl,htok,hb₁,hb₂,hb₃⟩ := h.shape
  exact readsAs_key token (skipOpening_blanks hb₁) htok hb₂ hb₃

variable (token)

theorem getTokenDataLine_rewrite {t : Token} (ht : t.fold ≠ token.fold) (d : Value) (l : List Char) :
    getTokenDataLine t.text (rewrite token.text d.text l) = getTokenDataLine t.text l := by
  cases h : keptOf token.text l with
  | none => simp [rewrite,h]
  | some kept =>
    have hk := kept_of_keptOf token h
    rw [hk.other ht]
    simpa [rewrite,h,ht] using hk.readsAs t d ['\n'] (by simp [isEol])

theorem rewrite_terminated (d : Value) {l kept : List Char} (h : keptOf token.text l = some kept) :
    Terminated (rewrite token.text d.text l) := by
  refine ⟨kept ++ d.text,by simp [rewrite,h],?_⟩
  simpa using ⟨(kept_of_keptOf token h).notMem,d.oneLine.2⟩

end Writing

end SecureWipeOut.TokenFile
