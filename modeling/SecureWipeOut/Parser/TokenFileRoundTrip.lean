import SecureWipeOut.Parser.TokenWritten

/-! # Setting a token and getting it back

After `set_token_data_file` the first value of the token should be the new data, and no
other token should have changed. This is so for every file on which the reader and the
writer agree: no line ahead of the first one that the writer replaces may give the token
a value, and a line that is appended must begin a line for the reader.
-/
namespace SecureWipeOut.TokenFile

open CText TextFile

variable (f : ShortFile) (token : Token)

section Statement

/-- A call of the writer after which the token has the new data and every other token
has the values it had before. -/
def SetThenGet (d : Value) : Prop :=
  ∃ g, setTokenDataFile token.text d.text (some f.stored) = some g ∧
    getTokenDataFileIndexed token.text (some g) 1 = some d.text ∧
    ∀ t : Token, t.fold ≠ token.fold → ∀ n : ℤ,
      getTokenDataFileIndexed t.text (some g) n = getTokenDataFileIndexed t.text (some f.stored) n

/-- The reader takes no value from a line that the writer passes over ahead of the first
one it replaces, and it skips what stands ahead of an appended line. -/
structure Agrees : Prop where
  first : ∀ l ∈ passed f token, getTokenDataLine token.text l = none
  appended : ¬Replaces f token → skipOpening f.openLine = []

/-- What stands ahead of the data in the first line that the writer writes. -/
def firstHead : List Char :=
  match f.lines.findSome? (keptOf token.text) with
  | some kept => kept
  | none => f.openLine ++ (token.text ++ [' ','=',' '])

end Statement

section Exactness

variable {f token}

/-- The round trip in terms of the values of the tokens. -/
theorem setThenGet_iff {d : Value} (hroom : Room f token d.text.length) : SetThenGet f token d ↔
    (values token.text (lines (written f token d))).head? = some d.text ∧
      ∀ t : Token, t.fold ≠ token.fold → ∀ n : ℤ,
        findIndexed t.text n 0 (lines (written f token d)) = findIndexed t.text n 0 f.lines := by
  simp only [SetThenGet,setTokenDataFile_eq,Option.some.injEq,exists_eq_left',get_written hroom,get_stored,
    findIndexed_first]

theorem setThenGet_of_replaces (h : Replaces f token) {d : Value} (hroom : Room f token d.text.length)
    (hagree : Agrees f token) : SetThenGet f token d := by
  rw [setThenGet_iff hroom]
  constructor
  · obtain ⟨vs,hvs⟩ := values_replaced h d
    rw [hvs,(values_eq_nil_iff ..).mpr hagree.first]
    rfl
  · intro t ht n
    apply findIndexed_congr
    rw [lines_written_replaced h,values_map_rewrite ht]

theorem setThenGet_of_appends (h : ¬Replaces f token) {d : Value} (hroom : Room f token d.text.length)
    (hagree : Agrees f token) : SetThenGet f token d := by
  have hopen := hagree.appended h
  have hfirst := hagree.first
  rw [passed_of_none h] at hfirst
  obtain ⟨ls,hls,hwritten⟩ := lines_written_appended h
  rw [setThenGet_iff hroom,hwritten]
  constructor
  · have hnil : values token.text ls = [] :=
      (values_eq_nil_iff ..).mpr fun l hl => hfirst l (by rw [hls]; exact List.mem_append_left _ hl)
    rw [values_append,hnil,List.nil_append,head?_values_singleton,getTokenDataLine_merged token hopen,if_pos rfl]
  · intro t ht n
    apply findIndexed_congr
    have hline := getTokenDataLine_merged token hopen t d
    rw [if_neg ht] at hline
    have hlast : values t.text (lines f.openLine) = [] := by
      rw [values_eq_nil_iff]
      intro l hl
      rw [mem_lines_openLine hl]
      exact getTokenDataLine_blank hopen _
    rw [hls,values_append,values_append,hlast]
    simp [values,hline]

def zero : Value := ⟨['0'],by decide,by decide,by decide,by simp [wspace],by decide⟩
def one : Value := ⟨['1'],by decide,by decide,by decide,by simp [wspace],by decide⟩

theorem eq_nil_of_heads {vs ws ws' : List (List Char)} {a b : List Char} (ha : (vs ++ ws).head? = some a)
    (hb : (vs ++ ws').head? = some b) (hne : a ≠ b) : vs = [] := by
  cases vs with
  | nil => rfl
  | cons v vs =>
    simp only [List.cons_append,List.head?_cons,Option.some.injEq] at ha hb
    exact absurd (ha.symm.trans hb) hne

/-- Two values of one character show whether the reader and the writer agree. -/
theorem agrees_of_setThenGet (hroom : Room f token 1) (h₀ : SetThenGet f token zero)
    (h₁ : SetThenGet f token one) : Agrees f token := by
  have hne : zero.text ≠ one.text := by decide
  have hv₀ := ((setThenGet_iff hroom).mp h₀).1
  have hv₁ := ((setThenGet_iff hroom).mp h₁).1
  by_cases h : Replaces f token
  · obtain ⟨vs₀,hvs₀⟩ := values_replaced h zero
    obtain ⟨vs₁,hvs₁⟩ := values_replaced h one
    rw [hvs₀] at hv₀
    rw [hvs₁] at hv₁
    have hnil := eq_nil_of_heads hv₀ hv₁ hne
    exact ⟨(values_eq_nil_iff ..).mp hnil,fun hnone => absurd h hnone⟩
  · obtain ⟨ls,hls,hwritten⟩ := lines_written_appended h
    rw [hwritten,values_append] at hv₀ hv₁
    have hnil := eq_nil_of_heads hv₀ hv₁ hne
    rw [hnil] at hv₀ hv₁
    have hopen : skipOpening f.openLine = [] := by
      by_contra hlead
      rw [List.nil_append,head?_values_singleton] at hv₀ hv₁
      exact (getTokenDataLine_blind token hlead).not_single rfl hne hv₀ hv₁
    refine ⟨?_,fun _ => hopen⟩
    rw [passed_of_none h,hls]
    intro l hl
    rcases List.mem_append.mp hl with hl | hl
    · exact (values_eq_nil_iff ..).mp hnil l hl
    · rw [mem_lines_openLine hl]
      exact getTokenDataLine_blank hopen _

theorem Room.mono {m n : ℕ} (h : Room f token n) (hmn : m ≤ n) : Room f token m := by
  constructor
  · intro l hl kept hkept
    have := h.replaced l hl kept hkept
    omega
  · intro hnone
    have := h.appended hnone
    omega

end Exactness

section Cut

variable {f token}

/-- Where the first line that is written stands in the file. -/
theorem exists_firstHead (hagree : Agrees f token) (d : Value) : ∃ (ls : List (List Char)) (post : List Char),
    written f token d = ls.flatten ++ (firstHead f token ++ (d.text ++ '\n' :: post)) ∧
      (∀ l ∈ ls, Terminated l) ∧ (∀ l ∈ ls, l.length < 1024) ∧ values token.text ls = [] ∧
      ReadsAs token (firstHead f token) ∧ '\n' ∉ firstHead f token := by
  by_cases h : Replaces f token
  · obtain ⟨l,ms,kept,hlines,hkept,hpassed⟩ := exists_passed h
    have hk := kept_of_keptOf token hkept
    have hhead : firstHead f token = kept := by
      have hnone : (passed f token).findSome? (keptOf token.text) = none :=
        List.findSome?_eq_none_iff.mpr hpassed
      simp [firstHead,hlines,List.findSome?_append,hnone,hkept]
    refine ⟨passed f token,(ms.map (rewrite token.text d.text)).flatten,?_,terminated_of_lines hlines,
      fun l hl => ?_,(values_eq_nil_iff ..).mpr hagree.first,?_,?_⟩
    · rw [written,if_pos h,hlines,List.map_append,map_rewrite_of_none hpassed,hhead]
      simp [rewrite,hkept]
    · exact f.short l (by rw [← ShortFile.lines,hlines]; exact List.mem_append_left _ hl)
    · exact hhead ▸ hk.readsAs
    · exact hhead ▸ hk.notMem
  · obtain ⟨ls,hterm,htext,hlines⟩ := exists_lines (load f.stored)
    have hsub : ∀ l ∈ ls, l ∈ f.lines := fun l hl => by
      rw [ShortFile.lines,hlines]
      exact List.mem_append_left _ hl
    have hhead : firstHead f token = f.openLine ++ (token.text ++ [' ','=',' ']) := by
      have hnone : f.lines.findSome? (keptOf token.text) = none :=
        List.findSome?_eq_none_iff.mpr ((not_replaces_iff f token).mp h)
      simp [firstHead,hnone]
    have hfirst := hagree.first
    rw [passed_of_none h] at hfirst
    refine ⟨ls,[],?_,hterm,fun l hl => f.short l (hsub l hl),
      (values_eq_nil_iff ..).mpr fun l hl => hfirst l (hsub l hl),?_,?_⟩
    · rw [written,if_neg h,hhead]
      nth_rewrite 1 [htext]
      simp [newLine,ShortFile.openLine]
    · exact hhead ▸ readsAs_newLine token (hagree.appended h)
    · simpa [hhead,token.newline_notMem,ShortFile.openLine] using notMem_openLine (load f.stored)

/-- The first characters of data. -/
def Value.take (d : Value) {k : ℕ} (hk : 0 < k) : Value where
  text := d.text.take k
  nonempty := by simp [d.nonempty,hk.ne']
  oneLine := ⟨fun h => d.oneLine.1 (List.mem_of_mem_take h),fun h => d.oneLine.2 (List.mem_of_mem_take h)⟩
  noQuote := fun h => d.noQuote (List.mem_of_mem_take h)
  lead := fun c hc => d.lead c (by simpa [List.head?_take,hk.ne'] using hc)
  isText := ⟨fun h => d.isText.1 (List.mem_of_mem_take h),fun h => d.isText.2 (List.mem_of_mem_take h)⟩

theorem Value.take_text (d : Value) {k : ℕ} (hk : 0 < k) : (d.take hk).text = d.text.take k := rfl

/-- Data that reaches beyond the line buffer is not read back. -/
theorem not_setThenGet_of_long (hagree : Agrees f token) {d : Value} (hhead : (firstHead f token).length < 1023)
    (hlong : 1023 < (firstHead f token).length + d.text.length) : ¬SetThenGet f token d := by
  rintro ⟨g,hset,hget,-⟩
  obtain ⟨ls,post,hwritten,hterm,hshort,hnil,hreads,hno⟩ := exists_firstHead hagree d
  have hk : 0 < 1023 - (firstHead f token).length := by omega
  set k := 1023 - (firstHead f token).length with hkdef
  obtain rfl := Option.some.inj ((setTokenDataFile_eq f token d).symm.trans hset)
  have hline := hreads token (d.take hk) [] (by simp)
  rw [if_pos rfl,List.append_nil,d.take_text] at hline
  have hpiece : fgets 1024 [] ((firstHead f token ++ d.text.take k) ++ (d.text.drop k ++ '\n' :: post)) =
      ([] ++ (firstHead f token ++ d.text.take k)) :: fgets 1024 [] (d.text.drop k ++ '\n' :: post) := by
    apply fgets_piece
    · exact fun h => (List.mem_append.mp h).elim hno (d.take hk).oneLine.2
    · exact fun h => (d.take hk).nonempty (List.append_eq_nil_iff.mp h).2
    · simp only [List.length_append,List.length_take,List.length_nil]
      omega
  have hcut : firstHead f token ++ (d.text ++ '\n' :: post) =
      (firstHead f token ++ d.text.take k) ++ (d.text.drop k ++ '\n' :: post) := by
    conv_lhs => rw [← List.take_append_drop k d.text]
    simp only [List.append_assoc]
  have hvalue : some (d.text.take k) = some d.text := by
    rw [← hget]
    simp only [getTokenDataFileIndexed,List.isEmpty_iff,token.nonempty,if_false,Option.bind_some,load_store]
    rw [hwritten,fgets_append hterm hshort,hcut,hpiece,List.nil_append,findIndexed_first,values_append,hnil,
      List.nil_append]
    simp [values,hline]
  have hlen := congrArg List.length (Option.some.inj hvalue)
  rw [List.length_take] at hlen
  omega

end Cut

section Results

/-- A file whose last line no line break ends. -/
def openFile : ShortFile := ⟨['a',' ','=',' ','1'],by decide,by decide⟩

def tokenB : Token := ⟨['b'],by decide,by simp [wordChar,wspace,nul],by decide⟩

end Results

end SecureWipeOut.TokenFile
