import SecureWipeOut.Lib.Json

/-! # Strings in JSON texts

A text is cut into its strings and what is outside of them. A string of plain characters
stands for itself. Every other character of a string is given by an escape, so that a
string takes at least as many backslashes in the text as it has special characters, and a
text with one is longer than its string.
-/
namespace SecureWipeOut.Json

/-- The characters that may not stand for themselves. -/
def special (c : Char) : Bool := c == '"' || c == '\\' || decide (c.toNat < 32)

def Plain (s : List Char) : Prop := ∀ c ∈ s, special c = false

theorem not_special {c : Char} (h : special c = false) : c ≠ '"' ∧ c ≠ '\\' ∧ ¬ c.toNat < 32 := by
  simp only [special,Bool.or_eq_false_iff,beq_eq_false_iff_ne,decide_eq_false_iff_not] at h
  exact ⟨h.1.1,h.1.2,h.2⟩

theorem pieces_plain {s : List Char} (h : Plain s) (rest : List Char) :
    pieces (s ++ '"' :: rest) = some (s.map Sum.inl,rest) := by
  induction s with
  | nil => rw [List.nil_append,pieces,List.map_nil]
  | cons c s ih =>
    obtain ⟨h1,h2,h3⟩ := not_special (h c List.mem_cons_self)
    rw [List.cons_append,pieces,if_neg (not_or.mpr ⟨h2,h3⟩),ih fun d hd => h d (List.mem_cons_of_mem c hd)]
    · rfl
    · exact h1
    · exact fun _ _ _ _ _ hc => absurd hc h2
    · exact fun _ _ hc => absurd hc h2

theorem join_inl (s : List Char) : join (s.map Sum.inl) = s := by
  induction s with
  | nil => rfl
  | cons c s ih => rw [List.map_cons,join,ih]

theorem stringBody_plain {s : List Char} (h : Plain s) (rest : List Char) :
    stringBody (s ++ '"' :: rest) = some (s,rest) := by
  rw [stringBody,pieces_plain h,Option.map_some,join_inl]

/-- Where a text is cut: outside of strings, in a string of which `r` has been read,
behind a backslash in it, or behind a control character in a string. -/
inductive Lex
  | outside
  | inside (r : List Char)
  | escaped (r : List Char)
  | broken

def Lex.step : Lex → Char → Lex
  | .outside, c => if c = '"' then .inside [] else .outside
  | .inside r, c =>
    if c = '"' then .outside
    else if c.toNat < 32 then .broken
    else if c = '\\' then .escaped (r ++ [c])
    else .inside (r ++ [c])
  | .escaped r, c => if c.toNat < 32 then .broken else .inside (r ++ [c])
  | .broken, _ => .broken

/-- The string that a character closes. -/
def Lex.closed : Lex → Char → List (List Char)
  | .inside r, c => if c = '"' then [r] else []
  | _, _ => []

def lex (σ : Lex) (t : List Char) : Lex := t.foldl Lex.step σ

/-- The texts of the strings that are closed on the way, in their order. -/
def literals (σ : Lex) : List Char → List (List Char)
  | [] => []
  | c :: t => σ.closed c ++ literals (σ.step c) t

section Lexing
variable {σ : Lex} {s t r x : List Char}

theorem lex_append (σ : Lex) (s t : List Char) : lex σ (s ++ t) = lex (lex σ s) t := List.foldl_append

theorem literals_append (σ : Lex) (s t : List Char) :
    literals σ (s ++ t) = literals σ s ++ literals (lex σ s) t := by
  induction s generalizing σ with
  | nil => rfl
  | cons c s ih =>
    rw [List.cons_append,literals,literals,ih,List.append_assoc]
    rfl

theorem lex_broken (t : List Char) : lex .broken t = .broken := by
  induction t with
  | nil => rfl
  | cons c t ih => exact ih

theorem lex_unquoted (h : '"' ∉ s) : lex .outside s = .outside ∧ literals .outside s = [] := by
  induction s with
  | nil => exact ⟨rfl,rfl⟩
  | cons c s ih =>
    have hstep : Lex.step .outside c = .outside := if_neg (List.ne_of_not_mem_cons h).symm
    obtain ⟨h1,h2⟩ := ih (List.not_mem_of_not_mem_cons h)
    refine ⟨?_,?_⟩
    · change lex (Lex.step .outside c) s = _
      rw [hstep,h1]
    · rw [literals,hstep,h2]
      rfl

/-- Text that stays inside quotation marks. -/
structure Raw (r : List Char) : Prop where
  lexed : ∀ p, lex (.inside p) r = .inside (p ++ r)
  unclosed : ∀ p, literals (.inside p) r = []

theorem raw_nil : Raw [] where
  lexed p := by simp [lex]
  unclosed p := rfl

theorem Raw.append (hr : Raw r) (hs : Raw s) : Raw (r ++ s) where
  lexed p := by rw [lex_append,hr.lexed,hs.lexed,List.append_assoc]
  unclosed p := by rw [literals_append,hr.lexed,hr.unclosed,hs.unclosed,List.append_nil]

theorem raw_singleton {c : Char} (h : special c = false) : Raw [c] := by
  obtain ⟨h1,h2,h3⟩ := not_special h
  refine ⟨fun p => ?_,fun p => ?_⟩
  · simp [lex,Lex.step,h1,h2,h3]
  · simp [literals,Lex.closed,h1]

theorem raw_plain (h : Plain s) : Raw s := by
  induction s with
  | nil => exact raw_nil
  | cons c s ih =>
    have hc := raw_singleton (h c List.mem_cons_self)
    exact hc.append (ih fun d hd => h d (List.mem_cons_of_mem c hd))

theorem raw_escape {c : Char} (h : ¬ c.toNat < 32) : Raw ['\\',c] where
  lexed p := by simp [lex,Lex.step,h]
  unclosed p := by simp [literals,Lex.step,Lex.closed]

/-- A text between quotation marks is one of the literals. -/
theorem Raw.literal (hr : Raw r) (t : List Char) :
    lex .outside ('"' :: (r ++ '"' :: t)) = lex .outside t ∧
      literals .outside ('"' :: (r ++ '"' :: t)) = r :: literals .outside t := by
  have hopen : Lex.step .outside '"' = .inside [] := rfl
  have hclose : Lex.step (.inside r) '"' = .outside := rfl
  refine ⟨?_,?_⟩
  · change lex (Lex.step .outside '"') (r ++ '"' :: t) = _
    rw [hopen,lex_append,hr.lexed,List.nil_append]
    change lex (Lex.step (.inside r) '"') t = _
    rw [hclose]
  · rw [literals,hopen,literals_append,hr.lexed,hr.unclosed,List.nil_append,List.nil_append,literals,hclose]
    rfl

/-- What has been read of a string that is not closed yet. -/
def Lex.text : Lex → List Char
  | .inside r => r
  | .escaped r => r
  | _ => []

theorem Lex.text_step (σ : Lex) (c : Char) : (σ.step c).text = σ.text ++ [c] ∨ (σ.step c).text = [] := by
  cases σ with
  | outside =>
    rw [Lex.step]
    split <;> exact Or.inr rfl
  | inside r =>
    rw [Lex.step]
    split
    · exact Or.inr rfl
    · split
      · exact Or.inr rfl
      · split <;> exact Or.inl rfl
  | escaped r =>
    rw [Lex.step]
    split
    · exact Or.inr rfl
    · exact Or.inl rfl
  | broken => exact Or.inr rfl

theorem infix_step {σ : Lex} {c : Char} (h : r <:+: (σ.step c).text ++ t) : r <:+: σ.text ++ c :: t := by
  rcases σ.text_step c with heq | heq
  · rw [heq,List.append_assoc] at h
    exact h
  · rw [heq,List.nil_append] at h
    exact h.trans ((List.suffix_cons c t).trans (List.suffix_append σ.text _)).isInfix

theorem infix_of_mem_literals (h : r ∈ literals σ t) : r <:+: σ.text ++ t := by
  induction t generalizing σ with
  | nil => cases h
  | cons c t ih =>
    rcases List.mem_append.mp h with h | h
    · cases σ with
      | inside p =>
        rw [Lex.closed] at h
        split at h
        · rw [List.mem_singleton.mp h]
          exact (List.prefix_append p _).isInfix
        · cases h
      | _ => cases h
    · exact infix_step (ih h)

theorem infix_of_lex (h : lex σ t = .inside r) : r <:+: σ.text ++ t := by
  induction t generalizing σ with
  | nil =>
    obtain rfl : σ = .inside r := h
    exact ⟨[],[],by simp [Lex.text]⟩
  | cons c t ih => exact infix_step (ih h)

/-- A line break ends no string. -/
theorem lex_line (σ : Lex) (t : List Char) :
    lex σ (t ++ ['\n']) = .outside ∨ lex σ (t ++ ['\n']) = .broken := by
  rw [lex_append]
  generalize lex σ t = τ
  cases τ with
  | outside => exact Or.inl rfl
  | inside r => exact Or.inr rfl
  | escaped r => exact Or.inr rfl
  | broken => exact Or.inr rfl

/-- Without a quotation mark a string is not left. -/
theorem lex_unquoted_inside (ht : '"' ∉ t) (hσ : σ ≠ .outside) :
    literals σ t = [] ∧ ∀ q, lex σ t = .inside q → q = σ.text ++ t := by
  induction t generalizing σ with
  | nil =>
    refine ⟨rfl,fun q h => ?_⟩
    obtain rfl : σ = .inside q := h
    exact (List.append_nil q).symm
  | cons c t ih =>
    have hc : c ≠ '"' := (List.ne_of_not_mem_cons ht).symm
    have hrest := @ih (σ.step c) (List.not_mem_of_not_mem_cons ht)
    have hclosed : σ.closed c = [] := by
      cases σ with
      | inside p => exact if_neg hc
      | _ => rfl
    have hbroken : ∀ q, σ.step c = .broken → lex σ (c :: t) = .inside q → q = σ.text ++ c :: t := by
      intro q hs h
      change lex (σ.step c) t = _ at h
      rw [hs,lex_broken] at h
      cases h
    have hkeep : σ.step c ≠ .outside ∧ (σ.step c = .broken ∨ (σ.step c).text = σ.text ++ [c]) := by
      cases σ with
      | outside => exact absurd rfl hσ
      | inside p =>
        rw [Lex.step,if_neg hc]
        split
        · exact ⟨by simp,Or.inl rfl⟩
        · split <;> exact ⟨by simp,Or.inr rfl⟩
      | escaped p =>
        rw [Lex.step]
        split
        · exact ⟨by simp,Or.inl rfl⟩
        · exact ⟨by simp,Or.inr rfl⟩
      | broken => exact ⟨by simp [Lex.step],Or.inl rfl⟩
    obtain ⟨h1,h2⟩ := hrest hkeep.1
    refine ⟨by rw [literals,hclosed,h1]; rfl,fun q h => ?_⟩
    rcases hkeep.2 with hs | hs
    · exact hbroken q hs h
    · have hq := h2 q h
      rw [hs,List.append_assoc] at hq
      exact hq

end Lexing

/-- The special characters that pieces can give rise to. -/
def weight : List Piece → ℕ
  | [] => 0
  | .inl c :: ps => (special c).toNat + weight ps
  | .inr _ :: ps => weight ps + 1

theorem countP_join (ps : List Piece) : (join ps).countP special ≤ weight ps := by
  fun_induction join ps with
  | case1 => simp [weight]
  | case2 c ps ih =>
    rw [List.countP_cons,weight]
    cases special c <;> simp <;> omega
  | case3 n m ps h ih =>
    rw [List.countP_cons,weight,weight]
    split <;> omega
  | case4 n m ps h ih =>
    rw [List.countP_cons,weight]
    split <;> omega
  | case5 n ps h ih =>
    rw [List.countP_cons,weight]
    split <;> omega

theorem length_join (ps : List Piece) : (join ps).length ≤ ps.length := by
  fun_induction join ps with
  | case1 => simp
  | case2 c ps ih => simpa using ih
  | case3 n m ps h ih =>
    simp only [List.length_cons]
    omega
  | case4 n m ps h ih =>
    simp only [List.length_cons] at ih ⊢
    omega
  | case5 n ps h ih => simpa using ih

/-- A text inside quotation marks and the pieces it spells. -/
structure Spells (r : List Char) (ps : List Piece) : Prop extends Raw r where
  weight_le : weight ps ≤ r.count '\\'
  length_le : ps.length ≤ r.length
  length_lt : '\\' ∈ r → ps.length < r.length

theorem spells_nil : Spells [] [] where
  lexed := raw_nil.lexed
  unclosed := raw_nil.unclosed
  weight_le := le_refl _
  length_le := le_refl _
  length_lt := by simp

variable {r : List Char} {ps : List Piece}

theorem Spells.plain (h : Spells r ps) {c : Char} (hc : special c = false) :
    Spells (c :: r) (.inl c :: ps) := by
  have hraw := (raw_singleton hc).append h.toRaw
  have h2 := (not_special hc).2.1
  refine ⟨hraw,?_,?_,?_⟩
  · simpa [weight,hc,h2] using h.weight_le
  · simpa using h.length_le
  · intro hmem
    rcases List.mem_cons.mp hmem with heq | hmem
    · exact absurd heq.symm h2
    · simpa using h.length_lt hmem

/-- A backslash and the characters it takes with it. -/
theorem Spells.escaped (h : Spells r ps) {e : Char} {hs : List Char} {p : Piece}
    (he : ¬ e.toNat < 32) (hp : Plain hs) (hw : weight [p] ≤ 1) :
    Spells ('\\' :: e :: (hs ++ r)) (p :: ps) := by
  have hraw := (raw_escape he).append ((raw_plain hp).append h.toRaw)
  have hweight : weight (p :: ps) = weight [p] + weight ps := by
    cases p <;> simp [weight,Nat.add_comm]
  refine ⟨hraw,?_,?_,?_⟩
  · have hle := h.weight_le
    rw [hweight,List.count_cons_self,List.count_cons,List.count_append]
    omega
  · have hle := h.length_le
    simp only [List.length_cons,List.length_append]
    omega
  · intro _
    have hle := h.length_le
    simp only [List.length_cons,List.length_append]
    omega

theorem escapeOf_printable {e x : Char} (h : escapeOf e = some x) : ¬ e.toNat < 32 := by
  intro hlt
  unfold escapeOf at h
  split at h
  all_goals first
    | exact absurd hlt (by decide)
    | cases h

theorem hexValue_plain {c : Char} {n : ℕ} (h : hexValue c = some n) : special c = false := by
  unfold hexValue at h
  have hle : ∀ a : Char, a ≤ c ↔ a.toNat ≤ c.toNat := fun _ => Iff.rfl
  simp only [special,Bool.or_eq_false_iff,beq_eq_false_iff_ne,decide_eq_false_iff_not]
  refine ⟨⟨?_,?_⟩,fun hlt => ?_⟩
  · rintro rfl
    revert h
    decide +revert
  · rintro rfl
    revert h
    decide +revert
  · split at h
    next hr => exact absurd ((hle '0').mp hr.1) (by have : '0'.toNat = 48 := rfl; omega)
    next =>
      split at h
      next hr => exact absurd ((hle 'a').mp hr.1) (by have : 'a'.toNat = 97 := rfl; omega)
      next =>
        split at h
        next hr => exact absurd ((hle 'A').mp hr.1) (by have : 'A'.toNat = 65 := rfl; omega)
        next => cases h

theorem hexUnit_plain {a b c d : Char} {n : ℕ} (h : hexUnit a b c d = some n) : Plain [a,b,c,d] := by
  simp only [hexUnit,Option.bind_eq_some_iff,Option.map_eq_some_iff] at h
  obtain ⟨_,ha,_,hb,_,hc,_,hd,-⟩ := h
  intro x hx
  simp only [List.mem_cons,List.not_mem_nil,or_false] at hx
  rcases hx with rfl | rfl | rfl | rfl
  · exact hexValue_plain ha
  · exact hexValue_plain hb
  · exact hexValue_plain hc
  · exact hexValue_plain hd

/-- The pieces read are spelled by the text up to a quotation mark. -/
theorem pieces_spells {t rest : List Char} {ps : List Piece} (h : pieces t = some (ps,rest)) :
    ∃ r, t = r ++ '"' :: rest ∧ Spells r ps := by
  induction t using pieces.induct generalizing ps with
  | case1 => cases h
  | case2 t =>
    rw [pieces] at h
    obtain ⟨rfl,rfl⟩ := Prod.mk.inj (Option.some.inj h)
    exact ⟨[],rfl,spells_nil⟩
  | case3 a b c d t ih =>
    rw [pieces] at h
    simp only [Option.bind_eq_some_iff,Option.map_eq_some_iff] at h
    obtain ⟨n,hn,⟨ps',rest'⟩,hps,heq⟩ := h
    obtain ⟨rfl,rfl⟩ := Prod.mk.inj heq
    obtain ⟨r,rfl,hr⟩ := ih hps
    have hu : ¬ 'u'.toNat < 32 := by decide
    exact ⟨_,rfl,hr.escaped (p := .inr n) hu (hexUnit_plain hn) (le_refl _)⟩
  | case4 e t hno ih =>
    rw [pieces] at h
    · simp only [Option.bind_eq_some_iff,Option.map_eq_some_iff] at h
      obtain ⟨x,hx,⟨ps',rest'⟩,hps,heq⟩ := h
      obtain ⟨rfl,rfl⟩ := Prod.mk.inj heq
      obtain ⟨r,rfl,hr⟩ := ih hps
      have hw : weight [Sum.inl x] ≤ 1 := by
        rw [weight,weight]
        cases special x <;> simp
      have hnil : Plain [] := by simp [Plain]
      exact ⟨_,rfl,hr.escaped (escapeOf_printable hx) hnil hw⟩
    · exact hno
  | case5 c t h1 h2 h3 hbad =>
    rw [pieces,if_pos hbad] at h
    · cases h
    · exact h1
    · exact h2
    · exact h3
  | case6 c t h1 h2 h3 hgood ih =>
    rw [pieces,if_neg hgood] at h
    · simp only [Option.map_eq_some_iff] at h
      obtain ⟨⟨ps',rest'⟩,hps,heq⟩ := h
      obtain ⟨rfl,rfl⟩ := Prod.mk.inj heq
      obtain ⟨r,rfl,hr⟩ := ih hps
      have hc : special c = false := by
        rw [not_or] at hgood
        simp only [special,Bool.or_eq_false_iff,beq_eq_false_iff_ne,decide_eq_false_iff_not]
        exact ⟨⟨h1,hgood.1⟩,hgood.2⟩
      exact ⟨c :: r,rfl,hr.plain hc⟩
    · exact h1
    · exact h2
    · exact h3

/-- A string in a text is delimited by quotation marks, has no more special characters
than its text has backslashes, and is shorter than its text where that has any. -/
theorem stringBody_spec {t s rest : List Char} (h : stringBody t = some (s,rest)) :
    ∃ r, t = r ++ '"' :: rest ∧ Raw r ∧ s.countP special ≤ r.count '\\' ∧
      ('\\' ∈ r → s.length < r.length) := by
  simp only [stringBody,Option.map_eq_some_iff] at h
  obtain ⟨⟨ps,rest'⟩,hps,heq⟩ := h
  obtain ⟨rfl,rfl⟩ := Prod.mk.inj heq
  obtain ⟨r,rfl,hr⟩ := pieces_spells hps
  exact ⟨r,rfl,hr.toRaw,(countP_join ps).trans hr.weight_le,
    fun hmem => (length_join ps).trans_lt (hr.length_lt hmem)⟩

end SecureWipeOut.Json
