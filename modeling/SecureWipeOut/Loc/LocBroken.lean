import SecureWipeOut.Loc.LocString

/-! # Text commands broken by a line break

A CR or LF inside a text, other than a CR LF, ends the line in the reader. The line that
is then handed over begins with the text before the break and goes on differently, so
that it is never parsed to the text.
-/
namespace SecureWipeOut.Loc
open CText Loop

section Broken
variable {id p tail post : List Char} {c : Char}

/-- What can follow a line in the buffer once its line break has been read. -/
inductive BadTail : List Char → Prop
  | nil : BadTail []
  | backslash (t : List Char) : BadTail ('\\' :: t)
  | crlf (t : List Char) : BadTail ('\r' :: '\n' :: t)

/-- A CR or LF of a text that is not part of a CR LF. -/
def Unpaired (c : Char) (post : List Char) : Prop := c = '\n' ∨ c = '\r' ∧ post.head? ≠ some '\n'

theorem Unpaired.ne (h : Unpaired c post) : c ≠ '\\' ∧ c ≠ '"' := by
  rcases h with rfl | ⟨rfl,-⟩ <;> decide

/-- A line that goes on differently is not parsed to the text. -/
theorem textCommand_badTail (hp : nul ∉ p) (hc : Unpaired c post) (htail : BadTail tail) :
    textCommand id (stored p ++ tail) ≠ some ⟨.text,[id,p ++ c :: post],[],[]⟩ := by
  intro h
  rw [textCommand_eq hp] at h
  obtain ⟨⟨l,i⟩,hrun,hres⟩ := Option.bind_eq_some_iff.mp h
  dsimp only at hres
  split at hres
  next => cases hres
  next hnul =>
    have hcstr : cstr (l.set i nul) (parsedHead id).length = p ++ c :: post := by
      simpa using hres
    have hassoc : parsedHead id ++ (p ++ tail) = parsedHead id ++ p ++ tail := by simp
    have hlen : (parsedHead id).length + p.length = (parsedHead id ++ p).length := by simp
    have hget := charAt_of_cstr hcstr
    rw [hassoc,hlen] at hrun
    rw [hlen] at hget
    cases htail with
    | nil =>
      rw [List.append_nil,run,quoteStep_end] at hrun
      obtain ⟨rfl,rfl⟩ : parsedHead id ++ p = l ∧ (parsedHead id ++ p).length = i := by
        simpa using hrun
      exact hnul (charAt_of_drop_nil (by simp))
    | backslash t =>
      rw [run,quoteStep_char (by decide) (by decide)] at hrun
      obtain ⟨hi,hkeep⟩ := run_keeps hrun (Nat.lt_succ_self _) (charAt_append (parsedHead id ++ p) '\\' t)
      rw [charAt_set_of_ne (by dsimp only at hi; omega)] at hget
      rcases hkeep with hk | ⟨-,hk⟩
      · exact hc.ne.1 (hget.symm.trans hk)
      · exact hc.ne.2 (hget.symm.trans hk)
    | crlf t =>
      have hstate : (parsedHead id ++ p ++ '\r' :: '\n' :: t,(parsedHead id ++ p).length + 1) =
          (parsedHead id ++ p ++ ['\r'] ++ '\n' :: t,(parsedHead id ++ p ++ ['\r']).length) := by simp [Nat.add_assoc]
      rw [run,quoteStep_char (by decide) (by decide),hstate] at hrun
      simp only [List.length_cons,← Nat.add_assoc] at hrun
      rw [run,quoteStep_char (by decide) (by decide)] at hrun
      have hcr : charAt (parsedHead id ++ p ++ ['\r'] ++ '\n' :: t) (parsedHead id ++ p).length = '\r' := by
        rw [List.append_assoc _ ['\r']]
        exact charAt_append (parsedHead id ++ p) '\r' ('\n' :: t)
      have hlf := charAt_append (parsedHead id ++ p ++ ['\r']) '\n' t
      have hlen' : (parsedHead id ++ p ++ ['\r']).length = (parsedHead id ++ p).length + 1 := List.length_append
      rw [hlen'] at hrun hlf
      obtain ⟨hi,hk⟩ := run_keeps hrun (show (parsedHead id ++ p).length < _ by omega) hcr
      obtain ⟨-,hk'⟩ := run_keeps hrun (Nat.lt_succ_self _) hlf
      dsimp only at hi hk hk'
      have hk1 := hk.resolve_right fun h => absurd h.1 (by decide)
      have hk2 := hk'.resolve_right fun h => absurd h.1 (by decide)
      rw [charAt_set_of_ne (by omega),hk1] at hget
      rcases hc with rfl | ⟨rfl,hpost⟩
      · exact absurd hget (by decide)
      · -- the LF is in the buffer, but not the next character of the text
        have hset : charAt (l.set i nul) ((parsedHead id ++ p).length + 1) = '\n' := by
          rw [charAt_set_of_ne (by omega),hk2]
        cases post with
        | nil =>
          have hend := charAt_end_of_cstr hcstr
          rw [List.length_append,List.length_singleton,← Nat.add_assoc,hlen,hset] at hend
          exact absurd hend (by decide)
        | cons d post =>
          have hcstr' : cstr (l.set i nul) (parsedHead id).length = (p ++ ['\r']) ++ d :: post := by
            simpa using hcstr
          have hd := charAt_of_cstr hcstr'
          rw [List.length_append,List.length_singleton,← Nat.add_assoc,hlen,hset] at hd
          exact hpost (by rw [← hd]; rfl)

theorem stored_quote {p : List Char} {m : ℕ} (h : (stored p)[m]? = some '"') :
    ∃ p₁ p₂, p = p₁ ++ '"' :: p₂ ∧ (stored p).take m = stored p₁ ++ ['\\'] := by
  induction p generalizing m with
  | nil => simp [stored] at h
  | cons d p ih =>
    rw [stored_cons] at h ⊢
    by_cases hd : d = '"'
    · subst hd
      rw [if_pos rfl] at h ⊢
      cases m with
      | zero => simp at h
      | succ m =>
        cases m with
        | zero => exact ⟨[],p,rfl,by simp [stored]⟩
        | succ m =>
          obtain ⟨p₁,p₂,rfl,htake⟩ := ih (show (stored p)[m]? = some '"' by simpa using h)
          exact ⟨'"' :: p₁,p₂,rfl,by simp [htake,stored_cons]⟩
    · rw [if_neg hd] at h ⊢
      cases m with
      | zero => simp [hd] at h
      | succ m =>
        obtain ⟨p₁,p₂,rfl,htake⟩ := ih (show (stored p)[m]? = some '"' by simpa using h)
        exact ⟨d :: p₁,p₂,rfl,by simp [htake,stored_cons,hd]⟩

/-- A line cut off before one of its quotes is no command. -/
theorem getLocDataLine_cut (hid : ControlName id) (hp : nul ∉ p) {q : ℕ}
    (hq : (textHead id ++ stored p)[q]? = some '"') :
    getLocDataLine ((textHead id ++ stored p).take q) = none := by
  rcases Nat.lt_or_ge q (textHead id).length with hlt | hge
  · -- only the last character of the head is a quote
    have hhead : textHead id = 't' :: ' ' :: (id ++ [' ']) ++ ['"'] := by simp [textHead]
    have hlen : ('t' :: ' ' :: (id ++ [' '])).length = id.length + 3 := by simp
    rw [List.getElem?_append_left hlt] at hq
    rw [List.take_append_of_le_length hlt.le]
    rw [hhead,List.length_append,hlen,List.length_singleton] at hlt
    obtain rfl | hlt' : q = id.length + 3 ∨ q < id.length + 3 := by omega
    · rw [hhead,← hlen,List.take_left]
      exact getLocDataLine_noText hid
    · rw [hhead,List.getElem?_append_left (by omega)] at hq
      have hmem := List.mem_of_getElem? hq
      simp only [List.mem_cons,List.mem_append,List.not_mem_nil,or_false] at hmem
      rcases hmem with h | h | h | h
      · exact absurd h (by decide)
      · exact absurd h (by decide)
      · exact absurd rfl (hid.word _ h).2.2
      · exact absurd h (by decide)
  · obtain ⟨m,rfl⟩ : ∃ m, q = (textHead id).length + m := ⟨q - (textHead id).length,by omega⟩
    rw [List.getElem?_append_right (by omega),Nat.add_sub_cancel_left] at hq
    obtain ⟨p₁,p₂,rfl,htake⟩ := stored_quote hq
    have hp₁ : nul ∉ p₁ := fun h => hp (by simp [h])
    rw [List.take_length_add_append,htake,getLocDataLine_text hid,textCommand_eq hp₁,run]
    have hstate : (parsedHead id ++ (p₁ ++ ['\\']),(parsedHead id).length + p₁.length) =
        ((parsedHead id ++ p₁) ++ '\\' :: [],(parsedHead id ++ p₁).length) := by simp
    have hnext : (parsedHead id ++ p₁ ++ ['\\'],(parsedHead id ++ p₁).length + 1) =
        (parsedHead id ++ p₁ ++ ['\\'],(parsedHead id ++ p₁ ++ ['\\']).length) := by simp [Nat.add_assoc]
    have hend : charAt (parsedHead id ++ p₁ ++ ['\\']) (parsedHead id ++ p₁ ++ ['\\']).length = nul :=
      charAt_of_drop_nil (by simp)
    rw [hstate,quoteStep_char (by decide) (by decide),hnext]
    dsimp only
    rw [List.length_singleton,run,quoteStep_end]
    simp only [Option.bind_some,hend,if_true]

end Broken

section Waiting
variable {e pos : ℕ} {rest content : List Char} {rd rd' rd'' : Reader} {c : Char} {line : Buf}

theorem grow_cases (hsize : ∃ k ≤ 5, rd.bufsize = 1024 * 2 ^ k) (h : rd.grow = some rd') :
    ∃ size, rd' = {rd with bufsize := size} ∧ rd.bufsize ≤ size ∧ ∃ k ≤ 5, size = 1024 * 2 ^ k := by
  obtain ⟨k,hk,hb⟩ := hsize
  unfold Reader.grow at h
  split at h
  · split at h
    · cases h
    next hlim =>
      obtain rfl := Option.some.inj h
      have hk5 : k ≠ 5 := by
        rintro rfl
        omega
      exact ⟨2 * rd.bufsize,rfl,by omega,k + 1,by omega,by rw [hb,pow_succ]; ring⟩
  · obtain rfl := Option.some.inj h
    exact ⟨rd.bufsize,rfl,le_rfl,k,hk,hb⟩

/-- A line is handed over whole at its end. -/
theorem Writing.lineEnd_head (hw : Writing rd content) (hnul : nul ∉ content) (hrest : NextLine rest)
    (h : (readLines e pos ('\r' :: '\n' :: rest) rd).1.head? = some line) : line = content := by
  have hescape : rd.newline.escape = false := rd.newline_escape.trans hw.escape
  obtain ⟨rd₁,hg,h⟩ := readLines_head (step_newline (Or.inl rfl) hw.escape) h
  obtain rfl := Option.some.inj (hw.newline_grow.symm.trans hg)
  obtain ⟨rd₂,hg,h⟩ := readLines_head (step_newline (Or.inr rfl) hescape) h
  obtain rfl := Option.some.inj (hw.newline_newline_grow.symm.trans hg)
  obtain ⟨hline,hline'⟩ := hw.line_at_end hnul
  cases rest with
  | nil =>
    rw [readLines,hline'] at h
    exact (Option.some.inj h).symm
  | cons c rest =>
    have hstep := step_dispatch (hrest c rfl) rd.newline.newline_eol
      (rd.newline.newline_escape.trans hescape)
    rw [readLines_dispatch hstep,hline] at h
    exact (Option.some.inj h).symm

/-- The line break behind `content` has been read, but the line not been handed over;
escape sequences may have been added to the buffer since. -/
structure Waiting (rd : Reader) (content : List Char) : Prop where
  eol : rd.eol = true
  agrees : ∀ p < content.length, content[p]? = some (rd.buf p)
  size : ∃ k ≤ 5, rd.bufsize = 1024 * 2 ^ k
  room : content.length + 2 < rd.bufsize
  mark : rd.r < content.length
  behind : rd.i = content.length ∧ rd.buf content.length = nul ∨
    content.length < rd.i ∧ rd.buf content.length = '\\' ∨
    content.length + 1 < rd.i ∧ rd.buf content.length = '\r' ∧ rd.buf (content.length + 1) = '\n'

theorem Waiting.grow (h : Waiting rd content) (hg : rd.grow = some rd') :
    Waiting rd' content ∧ rd'.escape = rd.escape := by
  obtain ⟨size,rfl,hle,hsize⟩ := grow_cases h.size hg
  exact ⟨⟨h.eol,h.agrees,hsize,by have := h.room; dsimp only; omega,h.mark,h.behind⟩,rfl⟩

theorem Waiting.escape_set (h : Waiting rd content) (b : Bool) : Waiting {rd with escape := b} content :=
  ⟨h.eol,h.agrees,h.size,h.room,h.mark,h.behind⟩

theorem Waiting.le (h : Waiting rd content) : content.length ≤ rd.i := by
  rcases h.behind with h | h | h <;> omega

/-- Characters written behind the line leave it as it is. -/
theorem Waiting.update (h : Waiting rd content) {i : ℕ} {f : ℕ → Char} (hi : rd.i ≤ i)
    (hf : ∀ p < rd.i, f p = rd.buf p)
    (hfirst : rd.i = content.length → i = content.length ∧ f content.length = nul ∨
      content.length < i ∧ f content.length = '\\' ∨
      content.length + 1 < i ∧ f content.length = '\r' ∧ f (content.length + 1) = '\n') :
    Waiting {rd with buf := f, i := i} content := by
  have hle := h.le
  refine ⟨h.eol,?_,h.size,h.room,h.mark,?_⟩
  · intro p hp
    dsimp only
    rw [h.agrees p hp,hf p (by omega)]
  · rcases h.behind with ⟨h1,-⟩ | ⟨h1,h2⟩ | ⟨h1,h2,h3⟩
    · exact hfirst h1
    · exact Or.inr (Or.inl ⟨by dsimp only; omega,(hf _ (by omega)).trans h2⟩)
    · exact Or.inr (Or.inr ⟨by dsimp only; omega,(hf _ (by omega)).trans h2,(hf _ (by omega)).trans h3⟩)

theorem Waiting.newline (h : Waiting rd content) : Waiting rd.newline content := by
  have hnl : rd.newline = {rd with buf := Function.update rd.buf rd.i nul, i := rd.i} := by
    simp [Reader.newline,Reader.terminate,h.eol]
  rw [hnl]
  refine h.update le_rfl (fun p hp => Function.update_of_ne (by omega) _ _) ?_
  intro hi
  exact Or.inl ⟨hi,by rw [hi,Function.update_self]⟩

theorem Waiting.put (h : Waiting rd content) : Waiting (rd.put '\\') content := by
  refine h.update (Nat.le_succ rd.i) (fun p hp => Function.update_of_ne (by omega) _ _) ?_
  intro hi
  exact Or.inr (Or.inl ⟨by omega,by rw [hi,Function.update_self]⟩)

theorem Waiting.put_two (h : Waiting rd content) {a b : Char}
    (hab : a = '\\' ∨ a = '\r' ∧ b = '\n') : Waiting ((rd.put a).put b) content := by
  have hbuf : ∀ p ≠ rd.i + 1, ((rd.put a).put b).buf p = Function.update rd.buf rd.i a p :=
    fun p hp => Function.update_of_ne hp _ _
  refine h.update (show rd.i ≤ rd.i + 1 + 1 by omega) ?_ ?_
  · intro p hp
    exact (hbuf p (by omega)).trans (Function.update_of_ne (by omega) _ _)
  · intro hi
    have ha : ((rd.put a).put b).buf content.length = a := by
      rw [hbuf _ (by omega),← hi,Function.update_self]
    have hb : ((rd.put a).put b).buf (content.length + 1) = b := by
      rw [← hi]
      exact Function.update_self ..
    rcases hab with rfl | ⟨rfl,rfl⟩
    · exact Or.inr (Or.inl ⟨show content.length < rd.i + 1 + 1 by omega,ha⟩)
    · exact Or.inr (Or.inr ⟨show content.length + 1 < rd.i + 1 + 1 by omega,ha,hb⟩)

/-- What the buffer holds is the line and something that does not belong to it. -/
theorem Waiting.line_bad (h : Waiting rd content) (hnul : nul ∉ content) :
    ∃ tail, rd.line = content ++ tail ∧ BadTail tail := by
  have hroom := h.room
  refine ⟨_,line_eq_append (by omega) hnul h.agrees,?_⟩
  rw [memory_cons (by omega),memory_cons (by omega)]
  rcases h.behind with ⟨-,h2⟩ | ⟨-,h2⟩ | ⟨-,h2,h3⟩
  · rw [h2]
    exact .nil
  · rw [h2]
    exact .backslash _
  · rw [h2,h3]
    exact .crlf _

/-- The first line handed over is the line with a bad tail, or the line cut off before
one of its quotes. -/
def Spoiled (content line : List Char) : Prop :=
  (∃ tail, line = content ++ tail ∧ BadTail tail) ∨
    ∃ q, content[q]? = some '"' ∧ line = content.take q

/-- The quote that ends the text is met before the line has been handed over. -/
theorem Waiting.closing (h : Waiting rd content) (hnul : nul ∉ content) (hescape : rd.escape = false)
    (hrest : NextLine rest) (hline : (readLines e pos ('"' :: '\r' :: '\n' :: rest) rd).1.head? = some line) :
    Spoiled content line := by
  by_cases hcollate : rd.buf rd.r = '"'
  · have hstep : rd.step '"' = (none,{rd with i := rd.r, eol := false}) := by
      simp [Reader.step,isBlank,hescape,h.eol,hcollate]
    have hmark := h.mark
    have hroom := h.room
    have hgrow : Reader.grow {rd with i := rd.r, eol := false} = some {rd with i := rd.r, eol := false} :=
      grow_eq_self (by dsimp only; omega)
    have hlen : (content.take rd.r).length = rd.r := by
      rw [List.length_take]
      omega
    have hw : Writing {rd with i := rd.r, eol := false} (content.take rd.r) := by
      refine ⟨⟨hlen.symm,?_⟩,rfl,hescape,h.size,by dsimp only; omega⟩
      intro p hp
      rw [List.getElem?_take,if_pos (by omega)]
      exact h.agrees p (by omega)
    have hnul' : nul ∉ content.take rd.r := fun hn => hnul (List.mem_of_mem_take hn)
    obtain ⟨rd₁,hg,hline⟩ := readLines_head hstep hline
    obtain rfl := Option.some.inj (hgrow.symm.trans hg)
    have hcut := hw.lineEnd_head hnul' hrest hline
    exact Or.inr ⟨rd.r,by rw [h.agrees _ hmark,hcollate],hcut⟩
  · have hstep : ∃ rd', rd.step '"' = (some rd.line,rd') := by
      simp [Reader.step,isBlank,hescape,h.eol,hcollate]
    obtain ⟨rd',hstep⟩ := hstep
    obtain ⟨tail,htail,hbad⟩ := h.line_bad hnul
    rw [readLines_dispatch hstep] at hline
    exact Or.inl ⟨tail,(Option.some.inj hline).symm.trans htail,hbad⟩

/-- One character that the reader takes up without handing the line over. -/
theorem Waiting.step_spoiled (hnext : ∀ (pos : ℕ) (rd : Reader), Waiting rd content → rd.escape = rd'.escape →
      (readLines e pos rest rd).1.head? = some line → Spoiled content line)
    (hstep : rd.step c = (none,rd')) (hw : Waiting rd' content)
    (h : (readLines e pos (c :: rest) rd).1.head? = some line) : Spoiled content line := by
  obtain ⟨rd'',hg,h⟩ := readLines_head hstep h
  obtain ⟨hw',hescape⟩ := hw.grow hg
  exact hnext (pos + 1) rd'' hw' hescape h

/-- An escape sequence read while the line waits. -/
theorem Waiting.escape_spoiled (hnext : ∀ (pos : ℕ) (rd : Reader), Waiting rd content → rd.escape = false →
      (readLines e pos rest rd).1.head? = some line → Spoiled content line)
    (hstep : ∀ rd : Reader, Waiting rd content → rd.escape = true →
      ∃ rd', rd.step c = (none,rd') ∧ Waiting rd' content ∧ rd'.escape = false)
    (hw : Waiting rd content) (hescape : rd.escape = false)
    (h : (readLines e pos ('\\' :: c :: rest) rd).1.head? = some line) : Spoiled content line := by
  have hfirst : rd.step '\\' = (none,{rd with escape := true}) := by
    simp [Reader.step,isBlank,hescape]
  refine Waiting.step_spoiled ?_ hfirst (hw.escape_set true) h
  intro pos rd₁ hw₁ hescape₁ h
  obtain ⟨rd₂,hstep₂,hw₂,hescape₂⟩ := hstep rd₁ hw₁ hescape₁
  refine Waiting.step_spoiled ?_ hstep₂ hw₂ h
  exact fun pos rd hw hescape h => hnext pos rd hw (hescape.trans hescape₂) h

/-- Whatever the rest of the text is, the line is spoiled. -/
theorem Waiting.spoiled {post : List Char} (hnul : nul ∉ content) (hrest : NextLine rest) :
    ∀ (pos : ℕ) (rd : Reader), Waiting rd content → rd.escape = false →
      (readLines e pos (encode post ++ '"' :: '\r' :: '\n' :: rest) rd).1.head? = some line →
        Spoiled content line := by
  induction post using units_induction with
  | nil => exact fun pos rd h hescape hline => h.closing hnul hescape hrest hline
  | crlf post ih =>
    intro pos rd h hescape hline
    refine Waiting.escape_spoiled ih ?_ h hescape hline
    intro rd h hescape
    refine ⟨({rd with escape := false}.put '\r').put '\n',?_,?_,rfl⟩
    · simp [Reader.step,Reader.unescape,isBlank,hescape]
    · exact (h.escape_set false).put_two (Or.inr ⟨rfl,rfl⟩)
  | char d post hd ih =>
    intro pos rd h hescape hline
    rw [encode_char hd] at hline
    by_cases hq : d = '"'
    · subst hq
      refine Waiting.escape_spoiled ih ?_ h hescape hline
      intro rd h hescape
      refine ⟨({rd with escape := false}.put '\\').put '"',?_,?_,rfl⟩
      · simp [Reader.step,Reader.unescape,isBlank,hescape]
      · exact (h.escape_set false).put_two (Or.inl rfl)
    by_cases hb : d = '\\'
    · subst hb
      refine Waiting.escape_spoiled ih ?_ h hescape hline
      intro rd h hescape
      refine ⟨{rd with escape := false}.put '\\',?_,(h.escape_set false).put,rfl⟩
      simp [Reader.step,Reader.unescape,isBlank,hescape]
    rw [if_neg (by simp [hq,hb])] at hline
    have hnext : ∀ {rd' : Reader}, rd'.escape = false → ∀ (pos : ℕ) (rd : Reader), Waiting rd content →
        rd.escape = rd'.escape →
        (readLines e pos (encode post ++ '"' :: '\r' :: '\n' :: rest) rd).1.head? = some line →
        Spoiled content line :=
      fun he pos rd h hescape hline => ih pos rd h (hescape.trans he) hline
    by_cases hnl : d = '\r' ∨ d = '\n'
    · have he : rd.newline.escape = false := rd.newline_escape.trans hescape
      exact Waiting.step_spoiled (hnext he) (step_newline hnl hescape) h.newline hline
    by_cases hblank : isBlank d = true
    · have hstep : rd.step d = (none,rd) := by
        simp [Reader.step,hnl,hblank,hescape,h.eol]
      exact Waiting.step_spoiled (hnext hescape) hstep h hline
    · -- any other character hands the line over
      have hstep : ∃ rd', rd.step d = (some rd.line,rd') := by
        simp [Reader.step,hnl,hblank,hescape,hb,hq,h.eol]
      obtain ⟨rd',hstep⟩ := hstep
      obtain ⟨tail,htail,hbad⟩ := h.line_bad hnul
      have hfirst := readLines_dispatch (e := e) hstep |>.symm.trans hline
      exact Or.inl ⟨tail,(Option.some.inj hfirst).symm.trans htail,hbad⟩

theorem lastNonBlank_le (buf : ℕ → Char) (r : ℕ) : lastNonBlank buf r ≤ r := by
  induction r with
  | zero => exact le_rfl
  | succ r ih =>
    rw [lastNonBlank]
    split <;> omega

theorem Writing.waiting (hw : Writing rd content) (hne : content ≠ []) : Waiting rd.newline content := by
  have hlen := hw.length
  have hpos := List.length_pos_iff.mpr hne
  have hr : rd.newline.r = lastNonBlank rd.terminate.buf (rd.i - 1) := by
    simp [Reader.newline,Reader.terminate,hw.eol]
  have hle := lastNonBlank_le rd.terminate.buf (rd.i - 1)
  refine ⟨rd.newline_eol,?_,by simpa using hw.size,?_,by omega,Or.inl ⟨?_,?_⟩⟩
  · intro p hp
    rw [hw.agrees p hp,Reader.newline_buf,Function.update_of_ne (by omega)]
  · have := hw.room
    rw [Reader.newline_bufsize]
    omega
  · rw [Reader.newline_i,hlen]
  · rw [Reader.newline_buf,hlen,Function.update_self]

end Waiting

end SecureWipeOut.Loc
