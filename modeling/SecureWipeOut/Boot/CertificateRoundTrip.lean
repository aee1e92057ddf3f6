import SecureWipeOut.Boot.CertificateDocument

/-! # The round trip of certificate data

The arguments come back when and only when all of them are plain. Of the arguments that
are not, take one with the most special characters, and the longest of those: the text that it was
read from has as many backslashes and is longer, and every such text is a part of an argument.
-/
namespace SecureWipeOut.Certificate
open Json Text

section Lines
variable {l w : List Char} {k : String} {ls : List (List Char)}

/-- In a text without open strings no string is open at the end of a line. -/
theorem lex_fileText (h : lex .outside (fileText ls) = .outside) :
    (∀ l ∈ ls, lex .outside (l ++ ['\n']) = .outside) ∧
      literals .outside (fileText ls) = ls.flatMap fun l => literals .outside (l ++ ['\n']) := by
  induction ls with
  | nil => exact ⟨by simp,rfl⟩
  | cons l ls ih =>
    have htext : fileText (l :: ls) = (l ++ ['\n']) ++ fileText ls := rfl
    rw [htext,lex_append] at h
    have hl : lex .outside (l ++ ['\n']) = .outside := by
      rcases lex_line .outside l with hl | hl
      · exact hl
      · rw [hl,lex_broken] at h
        cases h
    rw [hl] at h
    obtain ⟨h1,h2⟩ := ih h
    refine ⟨?_,?_⟩
    · intro m hm
      rcases List.mem_cons.mp hm with rfl | hm
      · exact hl
      · exact h1 m hm
    · rw [htext,literals_append,hl,h2]
      rfl

/-- The strings of a line are its name and parts of its value. -/
theorem literals_entry {x : List Char} (hk : Plain k.toList) (hx : x = [] ∨ x = [','])
    (h : lex .outside (entry k w ++ x ++ ['\n']) = .outside) :
    ∃ q, lex (.inside []) w = .inside q ∧
      literals .outside (entry k w ++ x ++ ['\n']) = k.toList :: (literals (.inside []) w ++ [q]) := by
  have htext : entry k w ++ x ++ ['\n'] = "    ".toList ++ '"' :: (k.toList ++ '"' ::
      (": ".toList ++ '"' :: (w ++ '"' :: (x ++ ['\n'])))) := by
    simp [entry]
  obtain ⟨hb1,hb2⟩ := lex_unquoted (s := "    ".toList) (by decide)
  obtain ⟨hc1,hc2⟩ := lex_unquoted (s := ": ".toList) (by decide)
  obtain ⟨hk1,hk2⟩ := (raw_plain hk).literal (": ".toList ++ '"' :: (w ++ '"' :: (x ++ ['\n'])))
  have hlex : lex .outside (entry k w ++ x ++ ['\n']) = lex (lex (.inside []) w) ('"' :: (x ++ ['\n'])) := by
    rw [htext,lex_append,hb1,hk1,lex_append,hc1,← lex_append]
    rfl
  have hliterals : literals .outside (entry k w ++ x ++ ['\n']) =
      k.toList :: (literals (.inside []) w ++ literals (lex (.inside []) w) ('"' :: (x ++ ['\n']))) := by
    rw [htext,literals_append,hb1,hb2,List.nil_append,hk2,literals_append,hc1,hc2,List.nil_append,
      ← literals_append]
    rfl
  rw [hlex] at h
  cases hw : lex (.inside []) w with
  | inside q =>
    refine ⟨q,rfl,?_⟩
    rw [hliterals,hw]
    rcases hx with rfl | rfl <;> rfl
  | outside => rw [hw] at h; rcases hx with rfl | rfl <;> cases h
  | escaped q => rw [hw] at h; rcases hx with rfl | rfl <;> cases h
  | broken => rw [hw] at h; rcases hx with rfl | rfl <;> cases h

/-- Two neighbours of a list, where two others are known. -/
theorem neighbours_cases {α : Type} {l₁ l₂ m₁ m₂ : List α} {a b k r : α}
    (h : m₁ ++ k :: r :: m₂ = l₁ ++ a :: b :: l₂) :
    r ∈ l₁ ∨ r = a ∨ (k = a ∧ r = b) ∨ r ∈ l₂ := by
  induction l₁ generalizing m₁ with
  | nil =>
    match m₁, h with
    | [], h =>
      obtain ⟨rfl,rfl,-⟩ : k = a ∧ r = b ∧ m₂ = l₂ := by simpa using h
      exact Or.inr (Or.inr (Or.inl ⟨rfl,rfl⟩))
    | [x], h =>
      obtain ⟨rfl,rfl,rfl⟩ : x = a ∧ k = b ∧ r :: m₂ = l₂ := by simpa using h
      exact Or.inr (Or.inr (Or.inr List.mem_cons_self))
    | x :: y :: m, h =>
      obtain ⟨-,-,rfl⟩ : x = a ∧ y = b ∧ m ++ k :: r :: m₂ = l₂ := by simpa using h
      exact Or.inr (Or.inr (Or.inr (by simp)))
  | cons c l₁ ih =>
    cases m₁ with
    | nil =>
      have hrest : r :: m₂ = l₁ ++ a :: b :: l₂ := (List.cons.inj h).2
      cases l₁ with
      | nil => exact Or.inr (Or.inl (List.cons.inj hrest).1)
      | cons d l₁ =>
        rw [(List.cons.inj hrest).1]
        exact Or.inl (by simp)
    | cons x m₁ =>
      rcases ih (List.cons.inj h).2 with h | h
      · exact Or.inl (List.mem_cons_of_mem c h)
      · exact Or.inr h

end Lines

section Arguments
variable (s : Session) (r : Request)

/-- The arguments under the names that they have in the document. -/
def submitted : List (String × List Char) :=
  [("path",r.device),("description",r.deviceInfo),("method",r.wipeMethod),
    ("duration_seconds",r.wipeDuration),("verification_status",r.verificationStatus)]

/-- A line without backslashes, or one with an argument. -/
def ArgumentLine (l : List Char) : Prop :=
  '\\' ∉ l ∨ ∃ e ∈ submitted r, ∃ x, (x = [] ∨ x = [',']) ∧ l = entry e.1 e.2 ++ x

def idLine : List Char := entry "id" (certId s r) ++ [',']

theorem Plain.no_backslash {w : List Char} (h : Plain w) : '\\' ∉ w :=
  fun hmem => (not_special (h _ hmem)).2.1 rfl

theorem argumentLine_plain {k : String} {w : List Char} (x : List Char) (hk : Plain k.toList) (hw : Plain w)
    (hx : '\\' ∉ x) : ArgumentLine r (entry k w ++ x) := by
  have hk' := Plain.no_backslash hk
  have hw' := Plain.no_backslash hw
  refine Or.inl ?_
  simp [entry,hk',hw',hx]

theorem argumentLine_last {k : String} {w : List Char} (hk : Plain k.toList) (hw : Plain w) :
    ArgumentLine r (entry k w) := by
  have hline := argumentLine_plain r [] hk hw List.not_mem_nil
  rwa [List.append_nil] at hline

theorem argumentLine_submitted {e : String × List Char} (h : e ∈ submitted r) :
    ArgumentLine r (entry e.1 e.2 ++ [',']) :=
  Or.inr ⟨e,h,[','],Or.inr rfl,rfl⟩

/-- The lines of the document, with the line of the identifier apart. -/
theorem certificateData_lines : ∃ before after, certificateData s r = before ++ idLine s r :: after ∧
    (∀ l ∈ before, ArgumentLine r l) ∧ ∀ l ∈ after, ArgumentLine r l := by
  have htext : ∀ {l : List Char}, l.all (fun c => c != '\\') = true → ArgumentLine r l := by
    intro l h
    refine Or.inl fun hmem => ?_
    simpa using List.all_eq_true.mp h _ hmem
  have hcomma : ∀ {k : String} {w : List Char}, Plain k.toList → Plain w → ArgumentLine r (entry k w ++ [',']) :=
    fun hk hw => argumentLine_plain r [','] hk hw (by decide)
  have hsubmitted := fun e (h : e ∈ submitted r) => argumentLine_submitted r h
  simp only [submitted,List.forall_mem_cons] at hsubmitted
  obtain ⟨hpath,hdescription,hmethod,hduration,hstatus,-⟩ := hsubmitted
  have hbefore : ∀ l ∈ (certificateData s r).take 3, ArgumentLine r l := by
    simp only [certificateData,List.take_succ_cons,List.take_zero,List.forall_mem_cons]
    exact ⟨htext rfl,htext rfl,hcomma (plain_of_all rfl) (plain_of_all rfl),by simp⟩
  have hafter : ∀ l ∈ (certificateData s r).drop 4, ArgumentLine r l := by
    simp only [certificateData,List.drop_succ_cons,List.drop_zero,List.forall_mem_cons]
    refine ⟨hcomma (plain_of_all rfl) (plain_timestamp s),hcomma (plain_of_all rfl) (plain_of_all rfl),
      hcomma (plain_of_all rfl) (plain_of_all rfl),argumentLine_last r (plain_of_all rfl) (plain_sha256sum s _),
      htext rfl,htext rfl,hpath,hdescription,hcomma (plain_of_all rfl) (plain_deviceType _),
      hcomma (plain_of_all rfl) (plain_deviceSize s),argumentLine_last r (plain_of_all rfl) (plain_hpaStatus s),
      htext rfl,htext rfl,hmethod,hduration,hstatus,hcomma (plain_of_all rfl) (plain_of_all rfl),
      hcomma (plain_of_all rfl) (plain_of_all rfl),argumentLine_last r (plain_of_all rfl) (plain_timestamp s),
      htext rfl,htext rfl,htext rfl,htext rfl,htext rfl,htext rfl,htext rfl,htext rfl,htext rfl,htext rfl,
      htext rfl,htext rfl,htext rfl,htext rfl,by simp⟩
  exact ⟨_,_,rfl,hbefore,hafter⟩

theorem submitted_strings : ∀ e ∈ submitted r, Plain e.1.toList ∧ e.2 ∈ r.strings := by
  simp only [submitted,Request.strings,List.forall_mem_cons]
  exact ⟨⟨plain_of_all rfl,by simp⟩,⟨plain_of_all rfl,by simp⟩,⟨plain_of_all rfl,by simp⟩,
    ⟨plain_of_all rfl,by simp⟩,⟨plain_of_all rfl,by simp⟩,by simp⟩

theorem submitted_lines : ∀ e ∈ submitted r, entry e.1 e.2 ++ [','] ∈ certificateData s r := by
  simp only [submitted,List.forall_mem_cons]
  exact ⟨List.mem_of_getElem? (i := 10) rfl,List.mem_of_getElem? (i := 11) rfl,
    List.mem_of_getElem? (i := 17) rfl,List.mem_of_getElem? (i := 18) rfl,
    List.mem_of_getElem? (i := 19) rfl,by simp⟩

theorem exists_submitted : ∀ w ∈ r.strings, ∃ k, (k,w) ∈ submitted r := by
  simp only [Request.strings,List.forall_mem_cons,submitted]
  exact ⟨⟨"path",by simp⟩,⟨"description",by simp⟩,⟨"method",by simp⟩,⟨"duration_seconds",by simp⟩,
    ⟨"verification_status",by simp⟩,by simp⟩

variable {s r}

/-- A string with a backslash on a line that holds an argument is a part of it. -/
theorem infix_of_argumentLine {l ρ : List Char} (hl : ArgumentLine r l)
    (hlex : lex .outside (l ++ ['\n']) = .outside) (hρ : ρ ∈ literals .outside (l ++ ['\n']))
    (hb : '\\' ∈ ρ) : ∃ w ∈ r.strings, ρ <:+: w := by
  rcases hl with hl | ⟨e,he,x,hx,rfl⟩
  · have hmem : '\\' ∈ l ++ ['\n'] := (infix_of_mem_literals hρ).subset hb
    rcases List.mem_append.mp hmem with hmem | hmem
    · exact absurd hmem hl
    · exact absurd hmem (by decide)
  · obtain ⟨hk,hw⟩ := submitted_strings r e he
    obtain ⟨q,hq,hliterals⟩ := literals_entry hk hx hlex
    rw [hliterals] at hρ
    refine ⟨e.2,hw,?_⟩
    rcases List.mem_cons.mp hρ with rfl | hρ
    · exact absurd hb (Plain.no_backslash hk)
    · rcases List.mem_append.mp hρ with hρ | hρ
      · exact infix_of_mem_literals hρ
      · rw [List.mem_singleton.mp hρ]
        exact infix_of_lex hq

/-- In a valid document every argument stays inside its quotation marks in the end. -/
theorem lex_argument (h : lex .outside (createCertificateData s r) = .outside) {w : List Char}
    (hw : w ∈ r.strings) : ∃ q, lex (.inside []) w = .inside q := by
  obtain ⟨k,hk⟩ := exists_submitted r w hw
  have hline := (lex_fileText h).1 _ (submitted_lines s r _ hk)
  obtain ⟨q,hq,-⟩ := literals_entry (submitted_strings r _ hk).1 (Or.inr rfl) hline
  exact ⟨q,hq⟩

theorem count_dashed (w : List Char) : (w.map dashed).count '\\' = w.count '\\' := by
  induction w with
  | nil => rfl
  | cons c w ih =>
    rw [List.map_cons,List.count_cons,List.count_cons,ih]
    have hc : (dashed c == '\\') = (c == '\\') := by
      unfold dashed
      split
      · next h => rw [h]; rfl
      · rfl
    rw [hc]

/-- The identifier has no more backslashes than the path of the device, and no quotation
marks without it. -/
theorem certId_spec : (certId s r).count '\\' ≤ r.device.count '\\' ∧ ('"' ∉ r.device → '"' ∉ certId s r) := by
  have hday : Plain s.day := plain_of_digits s.day_digits
  have htime : Plain s.time := plain_of_digits s.time_digits
  have hquote : ∀ {w : List Char}, Plain w → '"' ∉ w := fun h hmem => (not_special (h _ hmem)).1 rfl
  refine ⟨?_,?_⟩
  · have htag := (deviceTag_sublist r.device).count_le '\\'
    rw [count_dashed] at htag
    have hs : "SW-".toList.count '\\' = 0 := by decide
    have hm : "-".toList.count '\\' = 0 := by decide
    simp only [certId,List.count_append,List.count_eq_zero_of_not_mem (Plain.no_backslash hday),
      List.count_eq_zero_of_not_mem (Plain.no_backslash htime),hs,hm]
    omega
  · intro hd hmem
    have htag : '"' ∉ deviceTag r.device := by
      intro htag
      obtain ⟨c,hc,hdash⟩ := List.mem_map.mp ((deviceTag_sublist r.device).subset htag)
      unfold dashed at hdash
      split at hdash
      · cases hdash
      · exact hd (hdash ▸ hc)
    have hs : '"' ∉ "SW-".toList := by decide
    have hm : '"' ∉ "-".toList := by decide
    simp only [certId,List.mem_append,hs,hm,hquote hday,hquote htime,htag,or_self] at hmem

end Arguments

section Extraction
variable {s : Session} {r : Request}

theorem Plain.of_sublist {t w : List Char} (h : Plain w) (ht : t.Sublist w) : Plain t :=
  fun c hc => h c (ht.subset hc)

/-- A printed value is raw, plain, or begins with a bracket at the end of a line. -/
theorem printRaw_cases (s : Session) (v : Value) : (∃ x, v = .string x) ∨ Plain (v.printRaw s.numeral) ∨
    ∃ c u d, v.printRaw s.numeral = c :: '\n' :: (u ++ [d]) ∧ (c = '[' ∧ d = ']' ∨ c = '{' ∧ d = '}') := by
  match v with
  | .null => exact Or.inr (Or.inl (plain_of_all rfl))
  | .bool b => cases b <;> exact Or.inr (Or.inl (plain_of_all rfl))
  | .number t =>
    have hnumeral : Plain "0123456789+-.eE".toList := plain_of_all rfl
    exact Or.inr (Or.inl fun c hc => hnumeral c (s.numeral_chars t c hc))
  | .string x => exact Or.inl ⟨x,rfl⟩
  | .array [] => exact Or.inr (Or.inl (plain_of_all rfl))
  | .array (v :: vs) => exact Or.inr (Or.inr ⟨'[',_,']',rfl,Or.inl ⟨rfl,rfl⟩⟩)
  | .object [] => exact Or.inr (Or.inl (plain_of_all rfl))
  | .object ((k,v) :: ms) => exact Or.inr (Or.inr ⟨'{',_,'}',rfl,Or.inr ⟨rfl,rfl⟩⟩)

theorem extract_cases {file : List Char} {v : Value} (h : parseJson file = some v) (object name : String) :
    Plain (extract s file object name) ∨
      (∃ x, NamedIn name.toList (.string x) file ∧ (extract s file object name).Sublist x) ∨
      ∃ c u, extract s file object name = c :: '\n' :: u ∧ (c = '[' ∨ c = '{') := by
  rw [extract,runFilter_of_parseJson h]
  cases hx : (v.index object.toList).bind (Value.index name.toList) with
  | none => exact Or.inl (plain_of_all rfl)
  | some x =>
    rw [Option.map_some,Option.getD_some,substitution_line]
    rcases printRaw_cases s x with ⟨t,rfl⟩ | hplain | ⟨c,u,d,heq,hcd⟩
    · have hnamed : NamedIn name.toList (.string t) file := by
        rcases (readIn_of_parseJson h).path hx with hnull | hnamed
        · cases hnull
        · exact hnamed
      exact Or.inr (Or.inl ⟨t,hnamed,substitution_sublist t⟩)
    · exact Or.inl (Plain.of_sublist hplain (substitution_sublist _))
    · refine Or.inr (Or.inr ⟨c,u.filter (fun c => c != Char.ofNat 0) ++ [d],?_,hcd.imp And.left And.left⟩)
      have hc : c ≠ Char.ofNat 0 := by
        rcases hcd with ⟨rfl,-⟩ | ⟨rfl,-⟩ <;> decide
      have hd : d ≠ Char.ofNat 0 ∧ ¬ (d == '\n') = true := by
        rcases hcd with ⟨-,rfl⟩ | ⟨-,rfl⟩ <;> decide
      have hfilter : (c :: '\n' :: (u ++ [d])).filter (fun c => c != Char.ofNat 0) =
          (c :: '\n' :: u.filter (fun c => c != Char.ofNat 0)) ++ [d] := by
        simp [hc,hd.1]
      have hlast := List.rdropWhile_concat_neg (p := fun c => c == '\n')
        (c :: '\n' :: u.filter (fun c => c != Char.ofNat 0)) d hd.2
      rw [heq,substitution,hfilter,hlast]
      rfl

/-- An argument that comes back and is not plain was read from a string. -/
theorem extract_string {v : Value} (h : parseJson (createCertificateData s r) = some v)
    {object name : String} {w : List Char} (hw : w ∈ r.strings)
    (heq : extract s (createCertificateData s r) object name = w) (hplain : ¬ Plain w) :
    ∃ x, NamedIn name.toList (.string x) (createCertificateData s r) ∧ w.Sublist x := by
  rcases extract_cases (s := s) h object name with hp | hx | ⟨c,u,hcu,hc⟩
  · exact absurd (heq ▸ hp) hplain
  · rwa [heq] at hx
  · -- A line break inside quotation marks makes the document invalid.
    obtain ⟨q,hq⟩ := lex_argument (lex_of_parseJson h) hw
    rw [← heq,hcu] at hq
    have hbroken : lex (.inside []) (c :: '\n' :: u) = lex .broken u := by
      rcases hc with rfl | rfl <;> rfl
    rw [hbroken,lex_broken] at hq
    cases hq

/-- What a string that is not plain is read from: a part of an argument, or the identifier. -/
theorem literal_origin (hlex : lex .outside (createCertificateData s r) = .outside)
    {name x : List Char} (hx : NamedIn name (.string x) (createCertificateData s r))
    (hname : name ≠ "id".toList) (hpos : 0 < x.countP special) :
    ∃ ρ, x.countP special ≤ ρ.count '\\' ∧ x.length < ρ.length ∧
      ((∃ w ∈ r.strings, ρ <:+: w) ∨ ('"' ∈ r.device ∧ ρ <:+: certId s r)) := by
  obtain ⟨m₁,k,ρ,m₂,hliterals,hk,hcount,hlength⟩ := hx.string_literal
  have hb : '\\' ∈ ρ := List.count_pos_iff.mp (hpos.trans_le hcount)
  refine ⟨ρ,hcount,hlength hb,?_⟩
  obtain ⟨hlines,hflat⟩ := lex_fileText hlex
  obtain ⟨before,after,heq,hbefore,hafter⟩ := certificateData_lines s r
  change literals .outside (createCertificateData s r) = _ at hflat
  rw [heq] at hlines
  rw [hliterals,heq,List.flatMap_append,List.flatMap_cons] at hflat
  obtain ⟨q,hq,hid⟩ := literals_entry (k := "id") (plain_of_all rfl) (Or.inr rfl) (hlines (idLine s r) (by simp))
  have hargument : ∀ {ls : List (List Char)}, (∀ l ∈ ls, ArgumentLine r l) →
      (∀ l ∈ ls, l ∈ before ++ idLine s r :: after) →
      ρ ∈ ls.flatMap (fun l => literals .outside (l ++ ['\n'])) → ∃ w ∈ r.strings, ρ <:+: w := by
    intro ls hls hsub hρ
    obtain ⟨l,hl,hρ⟩ := List.mem_flatMap.mp hρ
    exact infix_of_argumentLine (hls l hl) (hlines l (hsub l hl)) hρ hb
  have hbefore' := hargument hbefore (fun l hl => List.mem_append_left _ hl)
  have hafter' := hargument hafter (fun l hl => List.mem_append_right _ (List.mem_cons_of_mem _ hl))
  have hnotId : ρ ≠ "id".toList := by
    rintro rfl
    exact absurd hb (by decide)
  change _ = _ ++ (literals .outside (entry "id" (certId s r) ++ [','] ++ ['\n']) ++ _) at hflat
  rw [hid] at hflat
  by_cases hquote : '"' ∈ r.device
  · have hρ : ρ ∈ m₁ ++ k :: ρ :: m₂ := by simp
    rw [hflat] at hρ
    rcases List.mem_append.mp hρ with hρ | hρ
    · exact Or.inl (hbefore' hρ)
    · rcases List.mem_append.mp hρ with hρ | hρ
      · refine Or.inr ⟨hquote,?_⟩
        rcases List.mem_cons.mp hρ with hρ | hρ
        · exact absurd hρ hnotId
        · rcases List.mem_append.mp hρ with hρ | hρ
          · exact infix_of_mem_literals hρ
          · rw [List.mem_singleton.mp hρ]
            exact infix_of_lex hq
      · exact Or.inl (hafter' hρ)
  · -- The identifier is the whole literal here, and its name is not the one looked for.
    obtain ⟨hnone,hwhole⟩ := lex_unquoted_inside (σ := .inside []) (certId_spec.2 hquote) (by simp)
    rw [hnone,hwhole q hq] at hflat
    rcases neighbours_cases hflat with hρ | hρ | ⟨hkid,-⟩ | hρ
    · exact Or.inl (hbefore' hρ)
    · exact absurd hρ hnotId
    · rw [hkid] at hk
      exact absurd (hk (plain_of_all rfl)).symm hname
    · exact Or.inl (hafter' hρ)

end Extraction

section Exactness

theorem count_le_special (w : List Char) : w.count '\\' + w.count '"' ≤ w.countP special := by
  induction w with
  | nil => exact le_refl _
  | cons c w ih =>
    rw [List.count_cons,List.count_cons,List.countP_cons]
    by_cases hb : c = '\\'
    · subst hb
      simp only [show special '\\' = true from rfl,show ('\\' == '"') = false from rfl,beq_self_eq_true,
        if_true,Bool.false_eq_true,if_false]
      omega
    · by_cases hq : c = '"'
      · subst hq
        simp only [show special '"' = true from rfl,show ('"' == '\\') = false from rfl,beq_self_eq_true,
          if_true,Bool.false_eq_true,if_false]
        omega
      · simp only [beq_eq_false_iff_ne.mpr hb,beq_eq_false_iff_ne.mpr hq,Bool.false_eq_true,if_false]
        omega

theorem plain_iff_countP (w : List Char) : Plain w ↔ w.countP special = 0 := by
  rw [List.countP_eq_zero]
  simp only [Plain,Bool.not_eq_true]

/-- Of the arguments one has the most special characters, and is the longest of those. -/
theorem exists_largest (r : Request) : ∃ w ∈ r.strings, ∀ t ∈ r.strings,
    t.countP special < w.countP special ∨ t.countP special = w.countP special ∧ t.length ≤ w.length := by
  obtain ⟨w,hw,hmax⟩ := r.strings.toFinset.exists_max_image
    (fun t => toLex (t.countP special,t.length)) ⟨r.device,by simp [Request.strings]⟩
  refine ⟨w,List.mem_toFinset.mp hw,fun t ht => ?_⟩
  exact Prod.Lex.toLex_le_toLex.mp (hmax t (List.mem_toFinset.mpr ht))

variable {s : Session} {r : Request}

theorem extract_of_roundTrip (h : RoundTrip s r) : ∀ w ∈ r.strings, ∃ object name : String,
    name.toList ≠ "id".toList ∧ extract s (createCertificateData s r) object name = w := by
  obtain ⟨-,h1,h2,h3,h4,h5⟩ := h
  simp only [Request.strings,List.forall_mem_cons]
  exact ⟨⟨"device","path",by decide,h1⟩,⟨"device","description",by decide,h2⟩,
    ⟨"operation","method",by decide,h3⟩,⟨"operation","duration_seconds",by decide,h4⟩,
    ⟨"operation","verification_status",by decide,h5⟩,by simp⟩

theorem plain_of_roundTrip (h : RoundTrip s r) : ∀ t ∈ r.strings, Plain t := by
  obtain ⟨w,hw,hmax⟩ := exists_largest r
  by_contra hall
  have hpos : 0 < w.countP special := by
    push Not at hall
    obtain ⟨t,ht,hplain⟩ := hall
    have htpos : 0 < t.countP special := Nat.pos_of_ne_zero fun h0 => hplain ((plain_iff_countP t).mpr h0)
    rcases hmax t ht with hlt | ⟨heq,-⟩ <;> omega
  have hnot : ¬ Plain w := fun hp => absurd ((plain_iff_countP w).mp hp) hpos.ne'
  obtain ⟨v,hv⟩ := Option.isSome_iff_exists.mp h.1
  obtain ⟨object,name,hname,heq⟩ := extract_of_roundTrip h w hw
  obtain ⟨x,hx,hsub⟩ := extract_string hv hw heq hnot
  have hcount : w.countP special ≤ x.countP special := hsub.countP_le
  obtain ⟨ρ,hρ,hlength,horigin⟩ := literal_origin (lex_of_parseJson hv) hx hname (hpos.trans_le hcount)
  have hle := hsub.length_le
  rcases horigin with ⟨t,ht,hpart⟩ | ⟨hquote,hpart⟩
  · -- A part of an argument with as many special characters is no longer than `w`.
    have h1 := hpart.sublist.count_le '\\'
    have h2 := hpart.length_le
    have h3 := count_le_special t
    rcases hmax t ht with hlt | ⟨heq,hlen⟩ <;> omega
  · -- The path of the device has a quotation mark besides.
    have h1 := hpart.sublist.count_le '\\'
    have h2 := (certId_spec (s := s) (r := r)).1
    have h3 := count_le_special r.device
    have h4 : 0 < r.device.count '"' := List.count_pos_iff.mpr hquote
    rcases hmax r.device (by simp [Request.strings]) with hlt | ⟨heq,hlen⟩ <;> omega

/-- The document is valid and gives the arguments back exactly if none of them contains a
quotation mark, a backslash or a control character. -/
theorem roundTrip_iff_plain (s : Session) (r : Request) : RoundTrip s r ↔ ∀ t ∈ r.strings, Plain t := by
  refine ⟨plain_of_roundTrip,fun h => ?_⟩
  have hstrings := h
  simp only [Request.strings,List.forall_mem_cons] at hstrings
  obtain ⟨hdevice,hinfo,hmethod,hduration,hstatus,-⟩ := hstrings
  refine ⟨by rw [parseJson_document h]; rfl,?_⟩
  exact ⟨extract_document h (index_device (by simp [deviceEntries])) hdevice,
    extract_document h (index_device (by simp [deviceEntries])) hinfo,
    extract_document h (index_operation (by simp [operationEntries])) hmethod,
    extract_document h (index_operation (by simp [operationEntries])) hduration,
    extract_document h (index_operation (by simp [operationEntries])) hstatus⟩

/-- A drive whose model name has quotation marks in it. -/
def quotedDrive : Request where
  device := "/dev/sda".toList
  deviceInfo := "Samsung \"Pro\"".toList
  wipeMethod := "NIST SP 800-88".toList
  wipeDuration := "3600".toList
  verificationStatus := "PASSED".toList

def newYear : Session where
  timestamp := "2025-01-01 00:00:00 UTC".toList
  day := "20250101".toList
  time := "000000".toList
  sha256sum _ := List.replicate 64 '0'
  numeral t := t.filter fun c => "0123456789+-.eE".toList.contains c
  deviceSizeGb := some 500
  detectedDeviceType := .ssd
  hpaDetected := false
  timestamp_chars := by
    intro c hc
    have hall : ("2025-01-01 00:00:00 UTC".toList.all fun c => c.isDigit || "-: UTC".toList.contains c) = true := by
      decide
    simpa using List.all_eq_true.mp hall c hc
  day_digits := fun c hc => List.all_eq_true.mp (show "20250101".toList.all Char.isDigit = true from rfl) c hc
  time_digits := fun c hc => List.all_eq_true.mp (show "000000".toList.all Char.isDigit = true from rfl) c hc
  sha256sum_hex := by
    intro t c hc
    rw [List.eq_of_mem_replicate hc]
    decide
  numeral_chars := by
    intro t c hc
    simpa using (List.mem_filter.mp hc).2

theorem roundTrip_quotes : ¬ RoundTrip newYear quotedDrive := by
  intro h
  have hplain := plain_of_roundTrip h quotedDrive.deviceInfo (by simp [Request.strings])
  exact absurd (hplain '"' (by decide)) (by decide)

end Exactness

end SecureWipeOut.Certificate
