import Mathlib.Tactic
import Mathlib.Data.List.DropRight

/-! # Text streams

A text-mode stream stores a line break as a carriage return and a line feed and reads
the pair back as one. A file is read line by line through a buffer: a line that does
not fit comes in pieces, and a line that fits comes whole, its line feed included.
-/
namespace SecureWipeOut.TextFile

/-- What a text-mode stream stores for the text written to it. -/
def store : List Char → List Char
  | [] => []
  | '\n' :: s => '\r' :: '\n' :: store s
  | c :: s => c :: store s

/-- The text that a text-mode stream reads from a stored file. -/
def load : List Char → List Char
  | [] => []
  | '\r' :: '\n' :: s => '\n' :: load s
  | c :: s => c :: load s

/-- The successive contents of a buffer of `size` characters, its final NUL included,
that `fgets` fills from a text; `buf` is what the buffer holds already. -/
def fgets (size : ℕ) : List Char → List Char → List (List Char)
  | buf, [] => if buf.isEmpty then [] else [buf]
  | buf, c :: s =>
    if c = '\n' ∨ size ≤ buf.length + 2 then (buf ++ [c]) :: fgets size [] s
    else fgets size (buf ++ [c]) s

/-- The lines of a text, each with the line feed that ends it. -/
def lines : List Char → List (List Char)
  | [] => []
  | c :: s =>
    if c = '\n' then [c] :: lines s
    else match lines s with
      | [] => [[c]]
      | l :: ls => (c :: l) :: ls

/-- What follows the last line feed of a text. -/
def openLine (text : List Char) : List Char := text.rtakeWhile fun c => c != '\n'

/-- A line that a line feed ends. -/
def Terminated (l : List Char) : Prop := ∃ body, l = body ++ ['\n'] ∧ '\n' ∉ body

section Modes

theorem store_of_ne {c : Char} (hc : c ≠ '\n') (s : List Char) : store (c :: s) = c :: store s := by
  rw [store]
  exact hc

theorem load_of_ne {c : Char} {s : List Char} (h : c = '\r' → s.head? ≠ some '\n') :
    load (c :: s) = c :: load s := by
  rw [load]
  intro s' hc hs
  exact h hc (by simp [hs])

theorem head?_store (s : List Char) : (store s).head? ≠ some '\n' := by
  cases s with
  | nil => simp [store]
  | cons c s =>
    by_cases hc : c = '\n'
    · subst hc
      simp [store]
    · rw [store_of_ne hc]
      simpa using hc

/-- A text that is written in text mode is read back. -/
theorem load_store (s : List Char) : load (store s) = s := by
  induction s with
  | nil => rfl
  | cons c s ih =>
    by_cases hc : c = '\n'
    · subst hc
      simp [store,load,ih]
    · rw [store_of_ne hc,load_of_ne fun _ => head?_store s,ih]

end Modes

section Lines

theorem lines_of_notMem {s : List Char} (h : '\n' ∉ s) (hne : s ≠ []) : lines s = [s] := by
  induction s with
  | nil => exact absurd rfl hne
  | cons c s ih =>
    simp only [List.mem_cons,not_or] at h
    rw [lines,if_neg (Ne.symm h.1)]
    cases s with
    | nil => rfl
    | cons d s => rw [ih h.2 (by simp)]

theorem lines_cons_append {body : List Char} (h : '\n' ∉ body) (s : List Char) :
    lines (body ++ '\n' :: s) = (body ++ ['\n']) :: lines s := by
  induction body with
  | nil => simp [lines]
  | cons c body ih =>
    simp only [List.mem_cons,not_or] at h
    rw [List.cons_append,lines,if_neg (Ne.symm h.1),ih h.2]
    rfl

theorem lines_append {ls : List (List Char)} (h : ∀ l ∈ ls, Terminated l) (s : List Char) :
    lines (ls.flatten ++ s) = ls ++ lines s := by
  induction ls with
  | nil => rfl
  | cons l ls ih =>
    obtain ⟨body,rfl,hbody⟩ := h l (by simp)
    have := lines_cons_append hbody (ls.flatten ++ s)
    simp only [List.flatten_cons,List.append_assoc,List.cons_append,List.nil_append] at this ⊢
    rw [this,ih fun l hl => h l (by simp [hl])]

theorem lines_terminated {l : List Char} (h : Terminated l) : lines l = [l] := by
  obtain ⟨body,rfl,hbody⟩ := h
  simpa [lines] using lines_cons_append hbody []

/-- The first line reaches beyond what it is known to begin with. -/
theorem lines_length {body : List Char} (h : '\n' ∉ body) (d : Char) (s : List Char) :
    ∃ l ls, lines (body ++ d :: s) = l :: ls ∧ body.length < l.length := by
  induction body with
  | nil =>
    simp only [List.nil_append,lines,List.length_nil]
    split
    · exact ⟨_,_,rfl,by simp⟩
    · split
      · exact ⟨_,_,rfl,by simp⟩
      · exact ⟨_,_,rfl,by simp⟩
  | cons c body ih =>
    simp only [List.mem_cons,not_or] at h
    obtain ⟨l,ls,hl,hlen⟩ := ih h.2
    refine ⟨c :: l,ls,?_,by simpa using hlen⟩
    rw [List.cons_append,lines,if_neg (Ne.symm h.1),hl]

theorem notMem_openLine (text : List Char) : '\n' ∉ openLine text := by
  intro h
  have := List.mem_rtakeWhile_imp h
  simp at this

/-- A text is its terminated lines followed by its open line. -/
theorem exists_terminated (text : List Char) :
    ∃ ls : List (List Char), (∀ l ∈ ls, Terminated l) ∧ text = ls.flatten ++ openLine text := by
  induction text using List.reverseRecOn with
  | nil => exact ⟨[],by simp,rfl⟩
  | append_singleton text c ih =>
    obtain ⟨ls,hls,htext⟩ := ih
    by_cases hc : c = '\n'
    · subst hc
      refine ⟨ls ++ [openLine text ++ ['\n']],?_,?_⟩
      · intro l hl
        rcases List.mem_append.mp hl with hl | hl
        · exact hls l hl
        · exact ⟨_,List.mem_singleton.mp hl,notMem_openLine text⟩
      · have hopen : openLine (text ++ ['\n']) = [] := List.rtakeWhile_concat_neg _ _ _ (by simp)
        rw [hopen]
        nth_rewrite 1 [htext]
        simp
    · refine ⟨ls,hls,?_⟩
      rw [openLine,List.rtakeWhile_concat_pos _ _ _ (by simpa using hc),← openLine,← List.append_assoc,← htext]

/-- The open line is the last one, unless it is empty. -/
theorem exists_lines (text : List Char) : ∃ ls : List (List Char), (∀ l ∈ ls, Terminated l) ∧
    text = ls.flatten ++ openLine text ∧ lines text = ls ++ lines (openLine text) := by
  obtain ⟨ls,hls,htext⟩ := exists_terminated text
  refine ⟨ls,hls,htext,?_⟩
  rw [← lines_append hls,← htext]

/-- Rewriting the lines of a text one by one, where every line stays one. -/
theorem lines_map {f : List Char → List Char} (hterm : ∀ l, Terminated l → Terminated (f l))
    (hopen : ∀ l, '\n' ∉ l → l ≠ [] → Terminated (f l) ∨ '\n' ∉ f l ∧ f l ≠ []) (text : List Char) :
    lines ((lines text).map f).flatten = (lines text).map f := by
  obtain ⟨ls,hls,-,hlines⟩ := exists_lines text
  have hmap : ∀ l ∈ ls.map f, Terminated l := by
    intro l hl
    obtain ⟨k,hk,rfl⟩ := List.mem_map.mp hl
    exact hterm k (hls k hk)
  have hlast : lines ((lines (openLine text)).map f).flatten = (lines (openLine text)).map f := by
    by_cases hne : openLine text = []
    · simp [hne,lines]
    · have hno := notMem_openLine text
      rw [lines_of_notMem hno hne]
      simp only [List.map_cons,List.map_nil,List.flatten_cons,List.flatten_nil,List.append_nil]
      rcases hopen _ hno hne with h | ⟨hline,hsome⟩
      · exact lines_terminated h
      · exact lines_of_notMem hline hsome
  rw [hlines,List.map_append,List.flatten_append,lines_append hmap,hlast]

theorem flatten_lines (text : List Char) : (lines text).flatten = text := by
  obtain ⟨ls,-,htext,hlines⟩ := exists_lines text
  have hlast : (lines (openLine text)).flatten = openLine text := by
    by_cases hne : openLine text = []
    · simp [hne,lines]
    · simp [lines_of_notMem (notMem_openLine text) hne]
  rw [hlines,List.flatten_append,hlast,← htext]

/-- A text whose lines fit the buffer is read line by line. -/
theorem fgets_eq_lines {size : ℕ} {text buf : List Char} (hbuf : '\n' ∉ buf)
    (h : ∀ l ∈ lines (buf ++ text), l.length < size) : fgets size buf text = lines (buf ++ text) := by
  induction text generalizing buf with
  | nil =>
    cases buf with
    | nil => rfl
    | cons c buf => simp [fgets,lines_of_notMem hbuf]
  | cons c s ih =>
    by_cases hc : c = '\n'
    · subst hc
      rw [lines_cons_append hbuf] at h ⊢
      simpa [fgets] using ih (List.not_mem_nil) fun l hl => h l (List.mem_cons_of_mem _ hl)
    · have hbuf' : '\n' ∉ buf ++ [c] := by simpa [hbuf] using Ne.symm hc
      have hs : buf ++ c :: s = (buf ++ [c]) ++ s := by simp
      rw [hs] at h ⊢
      by_cases hfull : size ≤ buf.length + 2
      · have hnil : s = [] := by
          cases s with
          | nil => rfl
          | cons d s =>
            obtain ⟨l,ls,hl,hlen⟩ := lines_length hbuf' d s
            have := h l (by rw [hl]; exact List.mem_cons_self)
            simp only [List.length_append,List.length_singleton] at hlen
            omega
        subst hnil
        simp [fgets,hc,hfull,lines_of_notMem hbuf']
      · rw [fgets,if_neg (by simp [hc,hfull])]
        exact ih hbuf' h

theorem fgets_line {size : ℕ} {body buf : List Char} (hbody : '\n' ∉ body)
    (h : buf.length + body.length + 1 < size) (s : List Char) :
    fgets size buf (body ++ '\n' :: s) = (buf ++ body ++ ['\n']) :: fgets size [] s := by
  induction body generalizing buf with
  | nil => simp [fgets]
  | cons c body ih =>
    simp only [List.mem_cons,not_or] at hbody
    simp only [List.length_cons] at h
    rw [List.cons_append,fgets,if_neg (not_or.mpr ⟨Ne.symm hbody.1,by omega⟩),
      ih hbody.2 (by simp only [List.length_append,List.length_singleton]; omega)]
    simp

theorem fgets_append {size : ℕ} {ls : List (List Char)} (hterm : ∀ l ∈ ls, Terminated l)
    (hshort : ∀ l ∈ ls, l.length < size) (s : List Char) :
    fgets size [] (ls.flatten ++ s) = ls ++ fgets size [] s := by
  induction ls with
  | nil => rfl
  | cons l ls ih =>
    obtain ⟨body,rfl,hbody⟩ := hterm l (by simp)
    have hlen := hshort _ List.mem_cons_self
    have hline : fgets size [] (body ++ '\n' :: (ls.flatten ++ s)) =
        ([] ++ body ++ ['\n']) :: fgets size [] (ls.flatten ++ s) :=
      fgets_line hbody (by simpa using hlen) _
    have hrest := ih (fun l hl => hterm l (by simp [hl])) fun l hl => hshort l (by simp [hl])
    simpa [hrest] using hline

/-- A line that does not fit is cut where the buffer is full. -/
theorem fgets_piece {size : ℕ} {x buf : List Char} (hx : '\n' ∉ x) (hne : x ≠ [])
    (h : buf.length + x.length + 1 = size) (s : List Char) :
    fgets size buf (x ++ s) = (buf ++ x) :: fgets size [] s := by
  induction x generalizing buf with
  | nil => exact absurd rfl hne
  | cons c x ih =>
    simp only [List.mem_cons,not_or] at hx
    simp only [List.length_cons] at h
    rw [List.cons_append,fgets]
    cases x with
    | nil =>
      simp only [List.length_nil] at h
      rw [if_pos (.inr (by omega))]
      rfl
    | cons d x =>
      simp only [List.length_cons] at h
      rw [if_neg (not_or.mpr ⟨Ne.symm hx.1,by omega⟩),
        ih hx.2 (by simp) (by simp only [List.length_append,List.length_cons,List.length_nil]; omega)]
      simp

/-- Only the last line of a text may be open. -/
theorem terminated_of_lines {text : List Char} {ls ms : List (List Char)} {l : List Char}
    (h : lines text = ls ++ l :: ms) : ∀ k ∈ ls, Terminated k := by
  obtain ⟨closed,hclosed,-,hlines⟩ := exists_lines text
  have hlast : (lines (openLine text)).length ≤ 1 := by
    by_cases hne : openLine text = []
    · simp [hne,lines]
    · simp [lines_of_notMem (notMem_openLine text) hne]
  have hlen := congrArg List.length (h.symm.trans hlines)
  simp only [List.length_append,List.length_cons] at hlen
  have hls : ls = closed.take ls.length := by
    have htake := congrArg (List.take ls.length) (h.symm.trans hlines)
    rwa [List.take_left,List.take_append_of_le_length (by omega)] at htake
  intro k hk
  rw [hls] at hk
  exact hclosed k (List.mem_of_mem_take hk)

end Lines

end SecureWipeOut.TextFile
