import SecureWipeOut.Loc.LocTermination

/-! # Reading an encoded text

How the line reader takes up a text written in the syntax of the localization file:
backslashes doubled, quotes escaped and CR LF written as `\n`. The buffer then holds
the text with the backslash of every escaped quote still in it.
-/
namespace SecureWipeOut.Loc
open CText Loop

/-- The text in the syntax of the localization file. A CR or LF that is not part of a
CR LF has no escape and stands for itself. -/
def encode : List Char → List Char
  | [] => []
  | '\r' :: '\n' :: s => '\\' :: 'n' :: encode s
  | c :: s => (if c = '\\' ∨ c = '"' then ['\\',c] else [c]) ++ encode s

/-- What the reader leaves of the text in its buffer. -/
def stored (s : List Char) : List Char := s.flatMap fun c => if c = '"' then ['\\','"'] else [c]

/-- Every CR is followed by LF and every LF preceded by CR. -/
def Paired : List Char → Prop
  | [] => True
  | '\r' :: '\n' :: s => Paired s
  | c :: s => c ≠ '\r' ∧ c ≠ '\n' ∧ Paired s

/-- Induction over the units of a text: CR LF, or a single character. -/
theorem units_induction {P : List Char → Prop} (nil : P []) (crlf : ∀ s, P s → P ('\r' :: '\n' :: s))
    (char : ∀ c s, (∀ t, c :: s ≠ '\r' :: '\n' :: t) → P s → P (c :: s)) (s : List Char) : P s := by
  induction s using encode.induct with
  | case1 => exact nil
  | case2 s ih => exact crlf s ih
  | case3 c s h ih => exact char c s (fun t ht => by simp_all) ih

theorem encode_crlf (s : List Char) : encode ('\r' :: '\n' :: s) = '\\' :: 'n' :: encode s := rfl

theorem encode_char {c : Char} {s : List Char} (h : ∀ t, c :: s ≠ '\r' :: '\n' :: t) :
    encode (c :: s) = (if c = '\\' ∨ c = '"' then ['\\',c] else [c]) ++ encode s := by
  rw [encode]
  intro t hc hs
  exact h t (by rw [hc,hs])

theorem paired_char {c : Char} {s : List Char} (h : ∀ t, c :: s ≠ '\r' :: '\n' :: t) :
    Paired (c :: s) ↔ c ≠ '\r' ∧ c ≠ '\n' ∧ Paired s := by
  rw [Paired]
  intro t hc hs
  exact h t (by rw [hc,hs])

theorem stored_cons (c : Char) (s : List Char) :
    stored (c :: s) = (if c = '"' then ['\\','"'] else [c]) ++ stored s := rfl

section Feeding
variable {e pos : ℕ} {rest : List Char} {rd rd' rd'' : Reader} {c : Char}

theorem readLines_cons (hpos : pos + 1 ≤ e) (hstep : rd.step c = (none,rd')) (hgrow : rd'.grow = some rd'') :
    readLines e pos (c :: rest) rd = readLines e (pos + 1) rest rd'' := by
  rw [readLines,hstep]
  simp [show ¬ e < pos + 1 by omega,hgrow]

theorem readLines_full (hpos : pos + 1 ≤ e) (hstep : rd.step c = (none,rd')) (hgrow : rd'.grow = none) :
    readLines e pos (c :: rest) rd = ([],false) := by
  rw [readLines,hstep]
  simp [show ¬ e < pos + 1 by omega,hgrow]

theorem readLines_head {line : Buf} (hstep : rd.step c = (none,rd'))
    (h : (readLines e pos (c :: rest) rd).1.head? = some line) :
    ∃ rd'', rd'.grow = some rd'' ∧ (readLines e (pos + 1) rest rd'').1.head? = some line := by
  rw [readLines,hstep] at h
  dsimp only at h
  split at h
  · simp at h
  · cases hg : rd'.grow with
    | none => simp [hg] at h
    | some rd'' =>
      rw [hg] at h
      exact ⟨rd'',rfl,by simpa using h⟩

theorem readLines_dispatch {line : Buf} (hstep : rd.step c = (some line,rd')) :
    (readLines e pos (c :: rest) rd).1.head? = some line := by
  rw [readLines,hstep]
  dsimp only
  split
  · rfl
  · cases rd'.grow <;> rfl

end Feeding

/-- The buffer holds `content` up to the write index. -/
structure Filled (rd : Reader) (content : List Char) : Prop where
  length : rd.i = content.length
  agrees : ∀ p < content.length, content[p]? = some (rd.buf p)

section Fields
variable (rd : Reader)

@[simp] theorem Reader.terminate_buf : rd.terminate.buf = Function.update rd.buf rd.i nul := rfl
@[simp] theorem Reader.terminate_i : rd.terminate.i = rd.i := rfl
@[simp] theorem Reader.terminate_bufsize : rd.terminate.bufsize = rd.bufsize := rfl

@[simp] theorem Reader.newline_buf : rd.newline.buf = Function.update rd.buf rd.i nul := by
  unfold Reader.newline
  dsimp only
  split <;> rfl

@[simp] theorem Reader.newline_i : rd.newline.i = rd.i := by
  unfold Reader.newline
  dsimp only
  split <;> rfl

@[simp] theorem Reader.newline_bufsize : rd.newline.bufsize = rd.bufsize := by
  unfold Reader.newline
  dsimp only
  split <;> rfl

@[simp] theorem Reader.newline_eol : rd.newline.eol = true := by
  unfold Reader.newline
  dsimp only
  split
  · assumption
  · rfl

@[simp] theorem Reader.newline_escape : rd.newline.escape = rd.escape := by
  unfold Reader.newline
  dsimp only
  split <;> rfl

end Fields

@[simp] theorem Reader.put_buf (rd : Reader) (c : Char) :
    (rd.put c).buf = Function.update rd.buf rd.i c := rfl

theorem Filled.put {rd : Reader} {content : List Char} (h : Filled rd content) (c : Char) :
    Filled (rd.put c) (content ++ [c]) := by
  refine ⟨by simp [Reader.put,h.length],?_⟩
  intro p hp
  rw [List.length_append,List.length_singleton] at hp
  rcases Nat.lt_succ_iff_lt_or_eq.mp hp with hlt | rfl
  · have hne : p ≠ rd.i := by
      have := h.length
      omega
    rw [List.getElem?_append_left hlt,h.agrees p hlt,Reader.put_buf,Function.update_of_ne hne]
  · rw [List.getElem?_append_right le_rfl,Reader.put_buf,h.length,Function.update_self]
    simp

/-- The reader has written the text `content` of a line. -/
structure Writing (rd : Reader) (content : List Char) : Prop extends Filled rd content where
  eol : rd.eol = false
  escape : rd.escape = false
  size : ∃ k ≤ 5, rd.bufsize = 1024 * 2 ^ k
  room : rd.i + 2 < rd.bufsize

section Growing
variable {rd : Reader}

theorem grow_eq_self (h : rd.i + 2 < rd.bufsize) : rd.grow = some rd := by
  rw [Reader.grow,if_neg (by omega)]

/-- Below the limit of 32K the buffer grows as needed. -/
theorem grow_of_lt (hsize : ∃ k ≤ 5, rd.bufsize = 1024 * 2 ^ k) (hroom : rd.i < rd.bufsize)
    (hi : rd.i < 32766) : ∃ size, rd.grow = some {rd with bufsize := size} ∧
      (∃ k ≤ 5, size = 1024 * 2 ^ k) ∧ rd.i + 2 < size := by
  obtain ⟨k,hk,hb⟩ := hsize
  by_cases hfull : rd.bufsize - 2 ≤ rd.i
  · have hk5 : k < 5 := by
      by_contra hge
      obtain rfl : k = 5 := by omega
      omega
    have hle : 2 ^ k ≤ 2 ^ 4 := Nat.pow_le_pow_right (by omega) (by omega)
    refine ⟨2 * rd.bufsize,?_,⟨k + 1,by omega,by rw [hb,pow_succ]; ring⟩,?_⟩
    · rw [Reader.grow,if_pos hfull,if_neg (by omega)]
    · have : 1 ≤ 2 ^ k := Nat.one_le_two_pow
      omega
  · exact ⟨rd.bufsize,by rw [Reader.grow,if_neg hfull],⟨k,hk,hb⟩,by omega⟩

theorem grow_none (hsize : ∃ k ≤ 5, rd.bufsize = 1024 * 2 ^ k) (hroom : rd.i < rd.bufsize)
    (hi : 32766 ≤ rd.i) : rd.grow = none := by
  obtain ⟨k,hk,hb⟩ := hsize
  have hle : 2 ^ k ≤ 2 ^ 5 := Nat.pow_le_pow_right (by omega) hk
  rw [Reader.grow,if_pos (by omega),if_pos (by omega)]

end Growing

/-- Reading `cs` adds `added` to the line, or fails at the limit. -/
def Emits (cs added : List Char) : Prop :=
  ∀ (e pos : ℕ) (rest : List Char) (rd : Reader) (content : List Char), pos + cs.length ≤ e →
    Writing rd content →
    (content.length + added.length < 32766 ∧ ∃ rd', Writing rd' (content ++ added) ∧
      readLines e pos (cs ++ rest) rd = readLines e (pos + cs.length) rest rd') ∨
    (32766 ≤ content.length + added.length ∧ readLines e pos (cs ++ rest) rd = ([],false))

section Emitting

theorem Emits.append {cs cs' added added' : List Char} (h : Emits cs added) (h' : Emits cs' added') :
    Emits (cs ++ cs') (added ++ added') := by
  intro e pos rest rd content hpos hw
  rw [List.length_append] at hpos
  rw [List.append_assoc,List.length_append,List.length_append]
  rcases h e pos (cs' ++ rest) rd content (by omega) hw with ⟨hlt,rd',hw',heq⟩ | ⟨hge,heq⟩
  · rcases h' e (pos + cs.length) rest rd' _ (by omega) hw' with
      ⟨hlt',rd'',hw'',heq'⟩ | ⟨hge',heq'⟩
    · rw [List.length_append] at hlt'
      refine Or.inl ⟨by omega,rd'',by simpa using hw'',?_⟩
      rw [heq,heq',Nat.add_assoc]
    · rw [List.length_append] at hge'
      exact Or.inr ⟨by omega,heq.trans heq'⟩
  · exact Or.inr ⟨by omega,heq⟩

theorem emits_nil : Emits [] [] := by
  intro e pos rest rd content hpos hw
  rcases Nat.lt_or_ge content.length 32766 with h | h
  · exact Or.inl ⟨h,rd,by simpa using hw,rfl⟩
  · obtain ⟨k,hk,hb⟩ := hw.size
    have hle : 2 ^ k ≤ 2 ^ 5 := Nat.pow_le_pow_right (by omega) hk
    have := hw.room
    have := hw.length
    omega

/-- One character that writes at most two. -/
theorem emits_step {e pos : ℕ} (rest : List Char) {rd rd' : Reader} {content added : List Char} {c : Char}
    (hpos : pos + 1 ≤ e) (hroom : content.length + 2 < rd'.bufsize) (hadded : added.length ≤ 2)
    (hsize : ∃ k ≤ 5, rd'.bufsize = 1024 * 2 ^ k) (hstep : rd.step c = (none,rd'))
    (hfilled : Filled rd' (content ++ added)) (heol : rd'.eol = false) (hescape : rd'.escape = false) :
    (content.length + added.length < 32766 ∧ ∃ rd'', Writing rd'' (content ++ added) ∧
      readLines e pos (c :: rest) rd = readLines e (pos + 1) rest rd'') ∨
    (32766 ≤ content.length + added.length ∧ readLines e pos (c :: rest) rd = ([],false)) := by
  have hi : rd'.i = content.length + added.length := by rw [hfilled.length,List.length_append]
  rcases Nat.lt_or_ge (content.length + added.length) 32766 with h | h
  · obtain ⟨size,hgrow,hsize',hroom'⟩ := grow_of_lt hsize (by omega) (by omega)
    refine Or.inl ⟨h,{rd' with bufsize := size},?_,readLines_cons hpos hstep hgrow⟩
    exact ⟨⟨hfilled.length,hfilled.agrees⟩,heol,hescape,hsize',hroom'⟩
  · exact Or.inr ⟨h,readLines_full hpos hstep (grow_none hsize (by omega) (by omega))⟩

/-- A character that stands for itself. -/
def Plain (c : Char) : Prop := c ≠ '\r' ∧ c ≠ '\n' ∧ c ≠ '\\'

theorem emits_plain {c : Char} (hc : Plain c) : Emits [c] [c] := by
  intro e pos rest rd content hpos hw
  obtain ⟨hcr,hlf,hbs⟩ := hc
  have hstep : rd.step c = (none,rd.put c) := by
    simp [Reader.step,hcr,hlf,hbs,hw.eol,hw.escape]
  have hroom := hw.room
  rw [hw.length] at hroom
  have hsize : (rd.put c).bufsize = rd.bufsize := rfl
  exact emits_step rest hpos (hsize ▸ hroom) (by simp) (hsize ▸ hw.size) hstep (hw.toFilled.put c)
    hw.eol hw.escape

theorem emits_plain_list {cs : List Char} (h : ∀ c ∈ cs, Plain c) : Emits cs cs := by
  induction cs with
  | nil => exact emits_nil
  | cons c cs ih =>
    have hc : Emits [c] [c] := emits_plain (h c (by simp))
    exact hc.append (ih fun d hd => h d (by simp [hd]))

/-- An escape sequence: its backslash, then the character that decides. -/
theorem emits_escape {c : Char} {added : List Char} (hadded : added.length ≤ 2)
    (hstep : ∀ rd content, Filled rd content → rd.escape = true → ∃ rd', rd.step c = (none,rd') ∧
      Filled rd' (content ++ added) ∧ rd'.eol = rd.eol ∧ rd'.escape = false ∧
      rd'.bufsize = rd.bufsize) : Emits ['\\',c] added := by
  intro e pos rest rd content hpos hw
  rw [List.length_cons,List.length_singleton] at hpos
  have hfirst : rd.step '\\' = (none,{rd with escape := true}) := by
    simp [Reader.step,isBlank,hw.escape]
  have hcons : readLines e pos ('\\' :: c :: rest) rd =
      readLines e (pos + 1) (c :: rest) {rd with escape := true} :=
    readLines_cons (by omega) hfirst (grow_eq_self hw.room)
  obtain ⟨rd',hstep',hfilled,heol,hescape,hsize⟩ :=
    hstep {rd with escape := true} content ⟨hw.length,hw.agrees⟩ rfl
  have hroom := hw.room
  rw [hw.length] at hroom
  have := emits_step rest (show pos + 1 + 1 ≤ e by omega) (by rw [hsize]; exact hroom) hadded
    (by rw [hsize]; exact hw.size) hstep' hfilled (heol.trans hw.eol) hescape
  rw [List.cons_append,List.cons_append,List.nil_append,hcons]
  exact this

theorem emits_backslash : Emits ['\\','\\'] ['\\'] := by
  apply emits_escape (by simp)
  intro rd content hf he
  refine ⟨{rd with escape := false}.put '\\',by simp [Reader.step,Reader.unescape,isBlank,he],?_,rfl,rfl,rfl⟩
  have hf' : Filled {rd with escape := false} content := ⟨hf.length,hf.agrees⟩
  exact hf'.put '\\'

theorem emits_quote : Emits ['\\','"'] ['\\','"'] := by
  apply emits_escape (by simp)
  intro rd content hf he
  refine ⟨({rd with escape := false}.put '\\').put '"',
    by simp [Reader.step,Reader.unescape,isBlank,he],?_,rfl,rfl,rfl⟩
  have hf' : Filled {rd with escape := false} content := ⟨hf.length,hf.agrees⟩
  simpa using (hf'.put '\\').put '"'

theorem emits_crlf : Emits ['\\','n'] ['\r','\n'] := by
  apply emits_escape (by simp)
  intro rd content hf he
  refine ⟨({rd with escape := false}.put '\r').put '\n',
    by simp [Reader.step,Reader.unescape,isBlank,he],?_,rfl,rfl,rfl⟩
  have hf' : Filled {rd with escape := false} content := ⟨hf.length,hf.agrees⟩
  simpa using (hf'.put '\r').put '\n'

/-- Reading an encoded text stores it. -/
theorem emits_encode {s : List Char} (hs : Paired s) : Emits (encode s) (stored s) := by
  induction s using units_induction with
  | nil => exact emits_nil
  | crlf s ih => exact emits_crlf.append (ih hs)
  | char c s h ih =>
    obtain ⟨hcr,hlf,hs'⟩ := (paired_char h).mp hs
    rw [encode_char h,stored_cons]
    by_cases hq : c = '"'
    · subst hq
      exact emits_quote.append (ih hs')
    · by_cases hb : c = '\\'
      · subst hb
        exact emits_backslash.append (ih hs')
      · rw [if_neg (by simp [hq,hb]),if_neg hq]
        exact (emits_plain ⟨hcr,hlf,hb⟩).append (ih hs')

end Emitting

section LineEnd
variable {rd : Reader} {content : List Char}

/-- The memory of the buffer from an index on. -/
def Reader.memory (rd : Reader) (k : ℕ) : List Char := ((List.range rd.bufsize).map rd.buf).drop k

theorem memory_cons {k : ℕ} (hk : k < rd.bufsize) : rd.memory k = rd.buf k :: rd.memory (k + 1) := by
  rw [Reader.memory,List.drop_eq_getElem_cons (by simpa using hk)]
  simp [Reader.memory]

theorem memory_eq_append (hle : content.length ≤ rd.bufsize)
    (h : ∀ p < content.length, content[p]? = some (rd.buf p)) :
    rd.memory 0 = content ++ rd.memory content.length := by
  have htake : ((List.range rd.bufsize).map rd.buf).take content.length = content := by
    apply List.ext_getElem?
    intro p
    rw [List.getElem?_take]
    split
    next hp => rw [h p hp,List.getElem?_map,List.getElem?_range (by omega),Option.map_some]
    next hp => rw [List.getElem?_eq_none (by omega)]
  conv_lhs => rw [Reader.memory,List.drop_zero,← List.take_append_drop content.length (List.map _ _),htake]
  rfl

/-- The text in the buffer is the content and what follows it up to a NUL. -/
theorem line_eq_append (hle : content.length ≤ rd.bufsize) (hnul : nul ∉ content)
    (h : ∀ p < content.length, content[p]? = some (rd.buf p)) :
    rd.line = content ++ (rd.memory content.length).takeWhile fun c => c != nul := by
  have hmem := memory_eq_append hle h
  rw [Reader.memory,List.drop_zero] at hmem
  rw [Reader.line,hmem,List.takeWhile_append_of_pos]
  intro c hc
  have hne : c ≠ nul := fun he => hnul (he ▸ hc)
  simpa using hne

theorem line_eq (hlt : content.length < rd.bufsize) (hnul : nul ∉ content)
    (h : ∀ p < content.length, content[p]? = some (rd.buf p)) (hend : rd.buf content.length = nul) :
    rd.line = content := by
  rw [line_eq_append hlt.le hnul h,memory_cons hlt,hend]
  simp

theorem step_newline {c : Char} (hc : c = '\r' ∨ c = '\n') (hescape : rd.escape = false) :
    rd.step c = (none,rd.newline) := by
  simp [Reader.step,hc,hescape]

theorem Writing.newline_grow (hw : Writing rd content) : rd.newline.grow = some rd.newline :=
  grow_eq_self (by simpa using hw.room)

theorem Writing.newline_newline_grow (hw : Writing rd content) :
    rd.newline.newline.grow = some rd.newline.newline :=
  grow_eq_self (by simpa using hw.room)

theorem Writing.line_at_end (hw : Writing rd content) (hnul : nul ∉ content) :
    rd.newline.newline.line = content ∧ rd.newline.newline.terminate.line = content := by
  have hroom := hw.room
  have hlen := hw.length
  have hlt : content.length < rd.bufsize := by omega
  have hagrees : ∀ p < content.length, content[p]? = some (Function.update rd.buf rd.i nul p) := by
    intro p hp
    rw [hw.agrees p hp,Function.update_of_ne (by omega)]
  constructor
  · refine line_eq (by simpa using hlt) hnul ?_ (by simp [hlen])
    simpa using hagrees
  · refine line_eq (by simpa using hlt) hnul ?_ (by simp [hlen])
    simpa using hagrees

/-- What follows a line: the end of the file or the letter of another command. -/
def NextLine (rest : List Char) : Prop := ∀ c ∈ rest.head?, Plain c ∧ isBlank c = false ∧ c ≠ '"'

theorem step_dispatch {c : Char} (hc : Plain c ∧ isBlank c = false ∧ c ≠ '"') (heol : rd.eol = true)
    (hescape : rd.escape = false) :
    rd.step c = (some rd.line,Reader.put {rd with i := 0, r := 0, eol := false} c) := by
  obtain ⟨⟨hcr,hlf,hbs⟩,hblank,hq⟩ := hc
  simp [Reader.step,hcr,hlf,hbs,hblank,hq,heol,hescape]

/-- The end of the line: the line is handed over. -/
theorem readLines_lineEnd {e pos : ℕ} {rest : List Char} (hpos : pos + 2 ≤ e) (hw : Writing rd content)
    (hnul : nul ∉ content) (hrest : NextLine rest) :
    (readLines e pos ('\r' :: '\n' :: rest) rd).1.head? = some content := by
  have hescape : rd.newline.escape = false := rd.newline_escape.trans hw.escape
  rw [readLines_cons (by omega) (step_newline (Or.inl rfl) hw.escape) hw.newline_grow,
    readLines_cons (by omega) (step_newline (Or.inr rfl) hescape) hw.newline_newline_grow]
  obtain ⟨hline,hline'⟩ := hw.line_at_end hnul
  cases rest with
  | nil =>
    rw [readLines,hline']
    rfl
  | cons c rest =>
    have hstep := step_dispatch (hrest c rfl) rd.newline.newline_eol
      (rd.newline.newline_escape.trans hescape)
    rw [readLines_dispatch hstep,hline]

end LineEnd

end SecureWipeOut.Loc
