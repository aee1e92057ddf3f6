import SecureWipeOut.Parser.TokenMerge

/-! # The file that the writer leaves

The writer leaves the lines of the file with some of them replaced, or the text of the
file with a line behind it. What the reader finds in it are the values of its lines, as
long as they fit the line buffer.
-/
namespace SecureWipeOut.TokenFile

open CText TextFile

variable (f : ShortFile) (token : Token)

section Written

/-- The writer finds a line to replace. -/
def Replaces : Prop := ∃ l ∈ f.lines, keptOf token.text l ≠ none

theorem not_replaces_iff : ¬Replaces f token ↔ ∀ l ∈ f.lines, keptOf token.text l = none := by
  simp [Replaces]

/-- Every line that the writer writes for data of `n` characters fits the line buffer. -/
structure Room (n : ℕ) : Prop where
  replaced : ∀ l ∈ f.lines, ∀ kept, keptOf token.text l = some kept → kept.length + n + 1 < 1024
  appended : ¬Replaces f token → f.openLine.length + token.text.length + n + 4 < 1024

/-- The lines ahead of the first one that the writer replaces. -/
def passed : List (List Char) := f.lines.takeWhile fun l => (keptOf token.text l).isNone

instance : Decidable (Replaces f token) :=
  inferInstanceAs (Decidable (∃ l ∈ f.lines, keptOf token.text l ≠ none))

/-- The text of the file after the call. -/
def written (d : Value) : List Char :=
  if Replaces f token then (f.lines.map (rewrite token.text d.text)).flatten
  else load f.stored ++ newLine token.text d.text

theorem fgets_stored : fgets 1024 [] (load f.stored) = f.lines :=
  fgets_eq_lines List.not_mem_nil f.short

variable {f token}

theorem map_rewrite_of_none {ls : List (List Char)} (h : ∀ l ∈ ls, keptOf token.text l = none)
    (d : List Char) : ls.map (rewrite token.text d) = ls := by
  have hid : ∀ l ∈ ls, rewrite token.text d l = id l := by
    intro l hl
    simp [rewrite,h l hl]
  rw [List.map_congr_left hid,List.map_id]

variable (f token)

theorem setTokenDataFile_eq (d : Value) : setTokenDataFile token.text d.text (some f.stored) =
    some (store (written f token d)) := by
  have hne : (token.text.isEmpty || d.text.isEmpty) = false := by
    simp [token.nonempty,d.nonempty]
  have hany : (f.lines.any fun l => (keptOf token.text l).isSome) = true ↔ Replaces f token := by
    simp [Replaces,Option.isSome_iff_ne_none]
  rw [setTokenDataFile,hne,written]
  simp only [Bool.false_eq_true,if_false,Option.map_some,fgets_stored,copyLines_eq,List.nil_append,
    Bool.false_or,Option.some.injEq]
  by_cases h : Replaces f token
  · rw [if_pos h,if_pos (hany.mpr h)]
  · rw [if_neg h,if_neg (hany.not.mpr h),map_rewrite_of_none ((not_replaces_iff f token).mp h),ShortFile.lines,flatten_lines]

theorem newLine_terminated (d : Value) : Terminated (newLine token.text d.text) := by
  refine ⟨token.text ++ ' ' :: '=' :: ' ' :: d.text,by simp [newLine],?_⟩
  intro hmem
  simp [token.newline_notMem,d.oneLine.2] at hmem

variable {f token}

theorem lines_written_replaced (h : Replaces f token) (d : Value) :
    lines (written f token d) = f.lines.map (rewrite token.text d.text) := by
  have hkept : ∀ l, Terminated (rewrite token.text d.text l) ∨ rewrite token.text d.text l = l := by
    intro l
    cases hl : keptOf token.text l with
    | none => exact .inr (by simp [rewrite,hl])
    | some kept => exact .inl (rewrite_terminated token d hl)
  rw [written,if_pos h]
  apply lines_map
  · intro l hl
    rcases hkept l with h | h
    · exact h
    · rwa [h]
  · intro l hl hne
    rcases hkept l with h | h
    · exact Or.inl h
    · rw [h]
      exact Or.inr ⟨hl,hne⟩

theorem lines_written_appended (h : ¬Replaces f token) : ∃ ls : List (List Char),
    f.lines = ls ++ lines f.openLine ∧
      ∀ d : Value, lines (written f token d) = ls ++ [f.openLine ++ newLine token.text d.text] := by
  obtain ⟨ls,hls,htext,hlines⟩ := exists_lines (load f.stored)
  refine ⟨ls,hlines,fun d => ?_⟩
  have hmerged : Terminated (f.openLine ++ newLine token.text d.text) := by
    obtain ⟨body,hbody,hno⟩ := newLine_terminated token d
    refine ⟨f.openLine ++ body,by rw [hbody,List.append_assoc],?_⟩
    simpa [hno,ShortFile.openLine] using notMem_openLine (load f.stored)
  rw [written,if_neg h,htext,List.append_assoc,lines_append hls]
  exact congrArg _ (lines_terminated hmerged)

theorem written_short {d : Value} (hroom : Room f token d.text.length) :
    ∀ l ∈ lines (written f token d), l.length < 1024 := by
  intro l hl
  by_cases h : Replaces f token
  · rw [lines_written_replaced h] at hl
    obtain ⟨k,hk,rfl⟩ := List.mem_map.mp hl
    cases hkept : keptOf token.text k with
    | none => simpa [rewrite,hkept] using f.short k hk
    | some kept =>
      have := hroom.replaced k hk kept hkept
      simp [rewrite,hkept]
      omega
  · obtain ⟨ls,hls,hwritten⟩ := lines_written_appended h
    rw [hwritten d] at hl
    rcases List.mem_append.mp hl with hl | hl
    · exact f.short l (by rw [← ShortFile.lines,hls]; exact List.mem_append_left _ hl)
    · have := hroom.appended h
      rw [List.mem_singleton.mp hl]
      simp [newLine]
      omega

end Written

section Values

variable {f token}

theorem get_stored (t : Token) (n : ℤ) :
    getTokenDataFileIndexed t.text (some f.stored) n = findIndexed t.text n 0 f.lines := by
  simp [getTokenDataFileIndexed,t.nonempty,fgets_stored]

theorem get_written {d : Value} (hroom : Room f token d.text.length) (t : Token) (n : ℤ) :
    getTokenDataFileIndexed t.text (some (store (written f token d))) n =
      findIndexed t.text n 0 (lines (written f token d)) := by
  have hshort : fgets 1024 [] (written f token d) = lines (written f token d) :=
    fgets_eq_lines List.not_mem_nil (written_short hroom)
  simp [getTokenDataFileIndexed,t.nonempty,load_store,hshort]

theorem values_append (t : List Char) (ls ms : List (List Char)) : values t (ls ++ ms) = values t ls ++ values t ms :=
  List.filterMap_append

theorem head?_values_singleton (t l : List Char) : (values t [l]).head? = getTokenDataLine t l := by
  cases h : getTokenDataLine t l with
  | none => simp [values,h]
  | some d => simp [values,h]

theorem values_eq_nil_iff (t : List Char) (ls : List (List Char)) :
    values t ls = [] ↔ ∀ l ∈ ls, getTokenDataLine t l = none := List.filterMap_eq_nil_iff

theorem findIndexed_congr {t : List Char} {ls ms : List (List Char)} (h : values t ls = values t ms) (n : ℤ) :
    findIndexed t n 0 ls = findIndexed t n 0 ms := by
  rw [findIndexed_eq,findIndexed_eq,h]

theorem values_map_rewrite {t : Token} (ht : t.fold ≠ token.fold) (d : Value) (ls : List (List Char)) :
    values t.text (ls.map (rewrite token.text d.text)) = values t.text ls := by
  rw [values,List.filterMap_map]
  congr 1
  funext l
  exact getTokenDataLine_rewrite token ht d l

/-- The first line that is replaced follows the lines that are passed. -/
theorem exists_passed (h : Replaces f token) : ∃ l ms kept, f.lines = passed f token ++ l :: ms ∧
    keptOf token.text l = some kept ∧ ∀ k ∈ passed f token, keptOf token.text k = none := by
  set p : List Char → Bool := fun l => (keptOf token.text l).isNone with hp
  have hrest : f.lines.dropWhile p ≠ [] := by
    obtain ⟨l,hl,hkept⟩ := h
    intro hnil
    exact hkept (by simpa [hp] using List.dropWhile_eq_nil_iff.mp hnil l hl)
  obtain ⟨l,ms,hl⟩ := List.exists_cons_of_ne_nil hrest
  have hkept : keptOf token.text l ≠ none := by
    have := List.head?_dropWhile_not p f.lines
    rw [hl] at this
    simpa [hp,Option.isSome_iff_ne_none] using this
  obtain ⟨kept,hkept⟩ := Option.ne_none_iff_exists'.mp hkept
  refine ⟨l,ms,kept,?_,hkept,fun k hk => ?_⟩
  · rw [← hl]
    exact List.takeWhile_append_dropWhile.symm
  · simpa [hp] using List.mem_takeWhile_imp hk

/-- The values of the token after lines have been replaced. -/
theorem values_replaced (h : Replaces f token) (d : Value) : ∃ vs,
    values token.text (lines (written f token d)) = values token.text (passed f token) ++ d.text :: vs := by
  obtain ⟨l,ms,kept,hlines,hkept,hpassed⟩ := exists_passed h
  have hvalue : getTokenDataLine token.text (rewrite token.text d.text l) = some d.text := by
    simpa [rewrite,hkept] using (kept_of_keptOf token hkept).readsAs token d ['\n'] (by simp [isEol])
  refine ⟨values token.text (ms.map (rewrite token.text d.text)),?_⟩
  rw [lines_written_replaced h,hlines,List.map_append,map_rewrite_of_none hpassed,values_append]
  simp [values,hvalue]

theorem getTokenDataLine_blank {l : List Char} (h : skipOpening l = []) (t : List Char) :
    getTokenDataLine t l = none := by
  have hnil : skip (([] : List Char).drop t.length) = [] := by simp [skip]
  rw [getTokenDataLine,h]
  simp only [hnil]
  split <;> rfl

theorem mem_lines_openLine {l : List Char} (h : l ∈ lines f.openLine) : l = f.openLine := by
  by_cases hne : f.openLine = []
  · simp [hne,lines] at h
  · have hlines : lines f.openLine = [f.openLine] := lines_of_notMem (notMem_openLine _) hne
    rw [hlines] at h
    exact List.mem_singleton.mp h

theorem getTokenDataLine_merged (token : Token) {lead : List Char} (h : skipOpening lead = []) (t : Token) (d : Value) :
    getTokenDataLine t.text (lead ++ newLine token.text d.text) =
      if t.fold = token.fold then some d.text else none := by
  simpa [newLine] using readsAs_newLine token h t d ['\n'] (by simp [isEol])

theorem passed_of_none (h : ¬Replaces f token) : passed f token = f.lines := by
  apply List.takeWhile_eq_self_iff.mpr
  intro l hl
  simp [(not_replaces_iff f token).mp h l hl]

end Values

end SecureWipeOut.TokenFile
