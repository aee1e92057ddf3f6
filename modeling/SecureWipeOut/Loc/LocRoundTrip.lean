import SecureWipeOut.Loc.LocBroken

/-! # The round trip of a localization string

A text that is written in the syntax of the localization file is read back unless it
ends in a backslash, holds a CR or LF that is not part of a CR LF, or makes the line
longer than the buffer may grow.
-/
namespace SecureWipeOut.Loc
open CText Loop

/-- The line of a text command, with its line break. -/
def textLine (id s : List Char) : List Char := textHead id ++ (encode s ++ ['"','\r','\n'])

/-- The reader stands at the beginning of a line: of the section, or behind the line
break of another line that is still to be handed over. -/
structure LineStart (rd : Reader) : Prop where
  escape : rd.escape = false
  size : ∃ k ≤ 5, rd.bufsize = 1024 * 2 ^ k
  start : rd.eol = false → rd.i = 0

/-- The line that the first character of the next one hands over. -/
def pendingLines (rd : Reader) : List Buf := if rd.eol then [rd.line] else []

section RoundTrip
variable {id s : List Char}

theorem encode_append {p t : List Char} (hp : Paired p) : encode (p ++ t) = encode p ++ encode t := by
  induction p using units_induction with
  | nil => rfl
  | crlf p ih =>
    rw [List.cons_append,List.cons_append,encode_crlf,encode_crlf,ih hp]
    rfl
  | char c p h ih =>
    obtain ⟨hcr,-,hp'⟩ := (paired_char h).mp hp
    have h' : ∀ u, c :: (p ++ t) ≠ '\r' :: '\n' :: u := fun u hu => hcr (List.cons.inj hu).1
    rw [List.cons_append,encode_char h',encode_char h,ih hp',List.append_assoc]

/-- The first CR or LF of a text that is not part of a CR LF. -/
theorem exists_unpaired (h : ¬ Paired s) :
    ∃ p c post, s = p ++ c :: post ∧ Paired p ∧ Unpaired c post := by
  induction s using units_induction with
  | nil => exact absurd trivial h
  | crlf s ih =>
    obtain ⟨p,c,post,rfl,hp,hc⟩ := ih h
    exact ⟨'\r' :: '\n' :: p,c,post,rfl,hp,hc⟩
  | char c s hc ih =>
    rw [paired_char hc] at h
    by_cases hlf : c = '\n'
    · exact ⟨[],c,s,rfl,trivial,Or.inl hlf⟩
    by_cases hcr : c = '\r'
    · refine ⟨[],c,s,rfl,trivial,Or.inr ⟨hcr,?_⟩⟩
      intro hhead
      cases s with
      | nil => simp at hhead
      | cons d s =>
        obtain rfl : d = '\n' := by simpa using hhead
        exact hc s (by rw [hcr])
    · obtain ⟨p,d,post,rfl,hp,hd⟩ := ih fun hs => h ⟨hcr,hlf,hs⟩
      have hcp : ∀ t, c :: p ≠ '\r' :: '\n' :: t := fun t ht => hcr (List.cons.inj ht).1
      exact ⟨c :: p,d,post,rfl,(paired_char hcp).mpr ⟨hcr,hlf,hp⟩,hd⟩

theorem encode_unpaired {c : Char} {post : List Char} (hc : Unpaired c post) :
    encode (c :: post) = c :: encode post := by
  have h : ∀ t, c :: post ≠ '\r' :: '\n' :: t := by
    rintro t ht
    obtain ⟨rfl,rfl⟩ := List.cons.inj ht
    rcases hc with h | ⟨-,h⟩
    · exact absurd h (by decide)
    · exact h rfl
  rw [encode_char h,if_neg (not_or.mpr hc.ne)]
  rfl

theorem emits_textTail (hid : ControlName id) : Emits (textHead id).tail (textHead id).tail := by
  apply emits_plain_list
  intro c hc
  simp only [textHead,List.tail_cons,List.mem_cons,List.mem_append,List.not_mem_nil,or_false] at hc
  rcases hc with rfl | h | rfl | rfl
  · exact ⟨by decide,by decide,by decide⟩
  · exact hid.plain c h
  · exact ⟨by decide,by decide,by decide⟩
  · exact ⟨by decide,by decide,by decide⟩

theorem nul_notMem_textHead (hid : ControlName id) : nul ∉ textHead id := by
  intro h
  simp only [textHead,List.mem_cons,List.mem_append,List.not_mem_nil,or_false] at h
  rcases h with h | h | h | h | h
  · exact absurd h (by decide)
  · exact absurd h (by decide)
  · exact (hid.word nul h).2.1 rfl
  · exact absurd h (by decide)
  · exact absurd h (by decide)

theorem nul_notMem_stored (hs : nul ∉ s) : nul ∉ stored s := by
  intro h
  obtain ⟨c,hc,hn⟩ := List.mem_flatMap.mp h
  split at hn
  · simp only [List.mem_cons,List.not_mem_nil,or_false] at hn
    rcases hn with hn | hn <;> exact absurd hn (by decide)
  · exact hs (List.mem_singleton.mp hn ▸ hc)

variable {e pos : ℕ} {rest : List Char} {rd : Reader}

theorem LineStart.init (garbage : ℕ → Char) : LineStart (Reader.init garbage) :=
  ⟨rfl,⟨0,by omega,rfl⟩,fun _ => rfl⟩

/-- The command letter hands the pending line over and begins the new one. -/
theorem LineStart.readLines_t (h : LineStart rd) (hpos : pos + 1 ≤ e) (cs : List Char) :
    ∃ rd', Writing rd' ['t'] ∧
      (readLines e pos ('t' :: cs) rd).1 = pendingLines rd ++ (readLines e (pos + 1) cs rd').1 := by
  obtain ⟨k,hk,hb⟩ := h.size
  have hone : 1 ≤ 2 ^ k := Nat.one_le_two_pow
  have hfilled : ∀ r, Filled (Reader.put {rd with i := 0, r := r, eol := false} 't') ['t'] := by
    intro r
    have hempty : Filled {rd with i := 0, r := r, eol := false} [] := ⟨rfl,by simp⟩
    exact hempty.put 't'
  have hw : ∀ r, Writing (Reader.put {rd with i := 0, r := r, eol := false} 't') ['t'] :=
    fun r => ⟨hfilled r,rfl,h.escape,⟨k,hk,hb⟩,show 0 + 1 + 2 < rd.bufsize by omega⟩
  have hgrow : ∀ r, (Reader.put {rd with i := 0, r := r, eol := false} 't').grow =
      some (Reader.put {rd with i := 0, r := r, eol := false} 't') :=
    fun r => grow_eq_self (hw r).room
  cases heol : rd.eol with
  | true =>
    have ht : Plain 't' ∧ isBlank 't' = false ∧ 't' ≠ '"' := ⟨⟨by decide,by decide,by decide⟩,rfl,by decide⟩
    have hstep := step_dispatch ht heol h.escape
    refine ⟨_,hw 0,?_⟩
    rw [readLines,hstep]
    simp [show ¬ e < pos + 1 by omega,hgrow 0,pendingLines,heol]
  | false =>
    have hrd : rd = {rd with i := 0, r := rd.r, eol := false} := by
      obtain ⟨buf,bufsize,i,r,eol,escape⟩ := rd
      obtain rfl : eol = false := heol
      obtain rfl : i = 0 := h.start rfl
      rfl
    have hstep : rd.step 't' = (none,Reader.put {rd with i := 0, r := rd.r, eol := false} 't') := by
      rw [← hrd]
      simp [Reader.step,isBlank,heol,h.escape]
    refine ⟨_,hw rd.r,?_⟩
    rw [readLines_cons hpos hstep (hgrow rd.r)]
    simp [pendingLines,heol]

/-- The first line handed over after the command letter, where CR and LF are paired. -/
theorem readLines_paired (hid : ControlName id) (hs : nul ∉ s) (hpaired : Paired s) (hrest : NextLine rest)
    (hw : Writing rd ['t']) (he : pos + ((textHead id).tail ++ encode s).length + 3 ≤ e) :
    (readLines e pos ((textHead id).tail ++ (encode s ++ '"' :: '\r' :: '\n' :: rest)) rd).1.head? =
      if (textHead id).length + (stored s).length + 1 < 32766 then
        some (textHead id ++ (stored s ++ ['"'])) else none := by
  have hquote : Emits ['"'] ['"'] := emits_plain ⟨by decide,by decide,by decide⟩
  have hemits := (emits_textTail hid).append ((emits_encode hpaired).append hquote)
  have hcs : (textHead id).tail ++ (encode s ++ '"' :: '\r' :: '\n' :: rest) =
      (textHead id).tail ++ (encode s ++ ['"']) ++ '\r' :: '\n' :: rest := by simp
  have hline : ['t'] ++ ((textHead id).tail ++ (stored s ++ ['"'])) = textHead id ++ (stored s ++ ['"']) := rfl
  have hlen : ['t'].length + ((textHead id).tail ++ (stored s ++ ['"'])).length =
      (textHead id).length + (stored s).length + 1 := by
    rw [← List.length_append,hline]
    simp only [List.length_append,List.length_singleton]
    omega
  have hpos : pos + ((textHead id).tail ++ (encode s ++ ['"'])).length + 2 ≤ e := by
    simp only [List.length_append,List.length_singleton] at he ⊢
    omega
  rw [hcs]
  rcases hemits e pos ('\r' :: '\n' :: rest) rd ['t'] (by omega) hw with ⟨hlt,rd',hw',heq⟩ | ⟨hge,heq⟩
  · rw [hline] at hw'
    have hnul : nul ∉ textHead id ++ (stored s ++ ['"']) := by
      simp only [List.mem_append,List.mem_singleton,not_or]
      exact ⟨nul_notMem_textHead hid,nul_notMem_stored hs,by decide⟩
    rw [heq,readLines_lineEnd (by omega) hw' hnul hrest,if_pos (by omega)]
  · rw [heq,if_neg (by omega)]
    rfl

/-- With an unpaired CR or LF no first line is the text command. -/
theorem readLines_unpaired (hid : ControlName id) (hs : nul ∉ s) (hpaired : ¬ Paired s) (hrest : NextLine rest)
    (hw : Writing rd ['t']) (he : pos + ((textHead id).tail ++ encode s).length + 3 ≤ e) :
    (readLines e pos ((textHead id).tail ++ (encode s ++ '"' :: '\r' :: '\n' :: rest)) rd).1.head?.bind
      getLocDataLine ≠ some ⟨.text,[id,s],[],[]⟩ := by
  obtain ⟨p,c,post,rfl,hp,hc⟩ := exists_unpaired hpaired
  have hnp : nul ∉ p := fun h => hs (by simp [h])
  have hnul : nul ∉ textHead id ++ stored p := by
    simp only [List.mem_append,not_or]
    exact ⟨nul_notMem_textHead hid,nul_notMem_stored hnp⟩
  have henc : encode (p ++ c :: post) = encode p ++ c :: encode post := by
    rw [encode_append hp,encode_unpaired hc]
  have hcs : (textHead id).tail ++ (encode (p ++ c :: post) ++ '"' :: '\r' :: '\n' :: rest) =
      (textHead id).tail ++ encode p ++ c :: (encode post ++ '"' :: '\r' :: '\n' :: rest) := by
    simp [henc]
  have hpos : pos + ((textHead id).tail ++ encode p).length ≤ e := by
    rw [henc] at he
    simp only [List.length_append] at he ⊢
    omega
  have hline : ['t'] ++ ((textHead id).tail ++ stored p) = textHead id ++ stored p := rfl
  have hemits := (emits_textTail hid).append (emits_encode hp)
  intro h
  obtain ⟨line,hhead,hcmd⟩ := Option.bind_eq_some_iff.mp h
  rw [hcs] at hhead
  rcases hemits e pos (c :: (encode post ++ '"' :: '\r' :: '\n' :: rest)) rd ['t'] hpos hw with
    ⟨-,rd',hw',heq⟩ | ⟨-,heq⟩
  · rw [heq] at hhead
    rw [hline] at hw'
    have hnl : c = '\r' ∨ c = '\n' := by
      rcases hc with h | ⟨h,-⟩
      · exact Or.inr h
      · exact Or.inl h
    obtain ⟨rd'',hg,hhead⟩ := readLines_head (step_newline hnl hw'.escape) hhead
    obtain rfl := Option.some.inj (hw'.newline_grow.symm.trans hg)
    have hwait := hw'.waiting (by simp [textHead])
    have hescape := rd'.newline_escape.trans hw'.escape
    rcases Waiting.spoiled hnul hrest _ _ hwait hescape hhead with ⟨tail,rfl,hbad⟩ | ⟨q,hq,rfl⟩
    · rw [List.append_assoc,getLocDataLine_text hid] at hcmd
      exact textCommand_badTail hnp hc hbad hcmd
    · rw [getLocDataLine_cut hid hnp hq] at hcmd
      cases hcmd
  · rw [heq] at hhead
    cases hhead

/-- The round trip of the string of a text command, anywhere in a section: it succeeds
exactly for the strings that do not end in a backslash, have CR and LF as CR LF only, and
keep the decoded line below the buffer limit. -/
theorem text_roundTrip_iff (hid : ControlName id) (hs : nul ∉ s) (hstart : LineStart rd)
    (hrest : NextLine rest) (hend : pos + (textLine id s).length ≤ e) :
    ((readLines e pos (textLine id s ++ rest) rd).1.drop (pendingLines rd).length).head?.bind
        getLocDataLine = some ⟨.text,[id,s],[],[]⟩ ↔
      s.getLast? ≠ some '\\' ∧ Paired s ∧ (textHead id).length + (stored s).length + 1 < 32766 := by
  have hcs : textLine id s ++ rest =
      't' :: ((textHead id).tail ++ (encode s ++ '"' :: '\r' :: '\n' :: rest)) := by
    simp [textLine,textHead]
  have hlen : (textLine id s).length = 1 + ((textHead id).tail ++ encode s).length + 3 := by
    simp only [textLine,textHead,List.tail_cons,List.length_append,List.length_cons,List.length_nil]
    omega
  obtain ⟨rd',hw,hlines⟩ := hstart.readLines_t (show pos + 1 ≤ e by omega)
    ((textHead id).tail ++ (encode s ++ '"' :: '\r' :: '\n' :: rest))
  have he : pos + 1 + ((textHead id).tail ++ encode s).length + 3 ≤ e := by omega
  rw [hcs,hlines,List.drop_left]
  by_cases hpaired : Paired s
  · rw [readLines_paired hid hs hpaired hrest hw he]
    split
    next hlt =>
      rw [Option.bind_some,getLocDataLine_text hid,textCommand_stored hs]
      split
      next hlast => simp [hlast]
      next hlast => simp [hlast,hpaired,hlt]
    next hge => simp [hge]
  · constructor
    · exact fun h => absurd h (readLines_unpaired hid hs hpaired hrest hw he)
    · exact fun h => absurd h.2.1 hpaired

theorem controlName_msg : ControlName "MSG_001".toList := by
  have hall : ∀ c ∈ "MSG_001".toList, (c ≠ '\r' ∧ c ≠ '\n' ∧ c ≠ '\\') ∧
      isBlank c = false ∧ c ≠ nul ∧ c ≠ '"' := by
    intro c hc
    fin_cases hc <;> decide
  exact ⟨by decide,fun c hc => (hall c hc).1,fun c hc => (hall c hc).2⟩

theorem text_roundTrip_quotes :
    ((readLines 40 0 (textLine "MSG_001".toList "\"a\"\r\n".toList) (Reader.init fun _ => nul)).1.drop
      (pendingLines (Reader.init fun _ => nul)).length).head?.bind getLocDataLine =
      some ⟨.text,["MSG_001".toList,"\"a\"\r\n".toList],[],[]⟩ := by
  have hnext : NextLine [] := by simp [NextLine]
  have h := text_roundTrip_iff controlName_msg (s := "\"a\"\r\n".toList) (by decide)
    (LineStart.init fun _ => nul) hnext (show 0 + _ ≤ 40 by decide)
  rw [List.append_nil] at h
  exact h.mpr ⟨by decide,⟨by decide,by decide,by decide,by decide,by decide,by decide,trivial⟩,by decide⟩

/-- A path that ends in a backslash is not read back. -/
theorem text_roundTrip_backslash :
    ((readLines 40 0 (textLine "MSG_001".toList "C:\\".toList) (Reader.init fun _ => nul)).1.drop
      (pendingLines (Reader.init fun _ => nul)).length).head?.bind getLocDataLine ≠
      some ⟨.text,["MSG_001".toList,"C:\\".toList],[],[]⟩ := by
  decide +kernel

end RoundTrip

end SecureWipeOut.Loc
