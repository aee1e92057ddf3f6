import SecureWipeOut.Loc.LocReader

/-! # The string argument of a text command

What `get_loc_cmd` makes of a line that begins a text command. Removing the backslash
of every escaped quote is the inverse of storing the text, and the characters before
the index of the search are final unless they are backslashes.
-/
namespace SecureWipeOut.Loc
open CText Loop

/-- A control ID as the source writes them. -/
structure ControlName (id : List Char) : Prop where
  ne_nil : id ≠ []
  plain : ∀ c ∈ id, Plain c
  word : ∀ c ∈ id, isBlank c = false ∧ c ≠ nul ∧ c ≠ '"'

/-- The beginning of a text command, up to the opening quote. -/
def textHead (id : List Char) : List Char := 't' :: ' ' :: (id ++ [' ','"'])

/-- What the argument parser has made of it when it comes to the text. -/
def parsedHead (id : List Char) : List Char := ' ' :: (id ++ [nul,'"'])

section Arguments
variable {id : List Char}

theorem ControlName.head_not_blank (hid : ControlName id) (t : List Char) :
    ∀ c ∈ (id ++ t).head?, (!isBlank c) = true ∧ c ≠ nul := by
  obtain ⟨d,id',rfl⟩ := List.exists_cons_of_ne_nil hid.ne_nil
  intro c hc
  obtain rfl : d = c := by simpa using hc
  have hword := hid.word d (by simp)
  exact ⟨by simpa using hword.1,hword.2.1⟩

theorem charAt_ne_nul_of_head {buf rest : Buf} {i : ℕ} (h : buf.drop i = rest) (hne : rest ≠ [])
    (hhead : ∀ c ∈ rest.head?, c ≠ nul) : charAt buf i ≠ nul := by
  obtain ⟨c,rest,rfl⟩ := List.exists_cons_of_ne_nil hne
  rw [charAt_of_drop h]
  exact hhead c rfl

/-- The control ID is cut off at the blank behind it. -/
theorem parse_control (hid : ControlName id) (t : List Char) (lcmd : LocCmd) :
    parseArg .control (' ' :: (id ++ ' ' :: t)) 0 lcmd =
      some (' ' :: (id ++ nul :: t),id.length + 2,{lcmd with txt := lcmd.txt ++ [id]}) := by
  have hne : id ++ ' ' :: t ≠ [] := by simp
  have h0 : (' ' :: (id ++ ' ' :: t)).drop 0 = [' '] ++ (id ++ ' ' :: t) := rfl
  have h1 : (' ' :: (id ++ ' ' :: t)).drop 1 = id ++ ' ' :: t := rfl
  have hscan : scan (fun c => !isBlank c) (' ' :: (id ++ ' ' :: t)) 0 = 1 :=
    scan_eq h0 (by simp [isBlank]) fun c hc => (hid.head_not_blank _ c hc).1
  have hc1 := charAt_ne_nul_of_head h1 hne fun c hc => (hid.head_not_blank _ c hc).2
  have hword : ∀ c ∈ id, (c == nul || isBlank c) = false := by
    intro c hc
    simp [hid.word c hc]
  have hscan' := scan_eq h1 hword (by simp [isBlank])
  have hc2 : charAt (' ' :: (id ++ ' ' :: t)) (1 + id.length) = ' ' := charAt_of_drop (drop_add h1)
  have hset : (' ' :: (id ++ ' ' :: t)).set (1 + id.length) nul = ' ' :: (id ++ nul :: t) := by
    rw [Nat.add_comm]
    simp
  have hid' : cstr (' ' :: (id ++ nul :: t)) 1 = id :=
    cstr_eq (show (' ' :: (id ++ nul :: t)).drop 1 = id ++ nul :: t from rfl)
      (fun h => (hid.word nul h).2.1 rfl) (by simp)
  have hsp : (' ' : Char) ≠ nul := by decide
  simp only [parseArg,hscan,if_neg hc1,hscan',hc2,if_pos hsp,hset,hid']
  simp [Nat.add_comm,Nat.add_left_comm]

/-- The text is searched for its ending quote. -/
theorem parse_string (pre body : List Char) (lcmd : LocCmd) :
    parseArg .string (pre ++ '"' :: body) pre.length lcmd =
      (run quoteStep ((pre ++ '"' :: body).length + 1) (pre ++ '"' :: body,pre.length + 1)).bind fun s =>
        if charAt s.1 s.2 = nul then none
        else some (s.1.set s.2 nul,s.2 + 1,
          {lcmd with txt := lcmd.txt ++ [cstr (s.1.set s.2 nul) (pre.length + 1)]}) := by
  have hdrop : (pre ++ '"' :: body).drop pre.length = [] ++ '"' :: body := by simp
  have hscan : scan (fun c => !isBlank c) (pre ++ '"' :: body) pre.length = pre.length :=
    scan_eq hdrop (by simp) (by simp [isBlank])
  have hc : charAt (pre ++ '"' :: body) pre.length = '"' := charAt_of_drop hdrop
  have hnul : ('"' : Char) ≠ nul := by decide
  simp only [parseArg,hscan,hc,if_neg hnul]
  rfl

/-- A line that ends behind the control ID has no text. -/
theorem parse_string_missing (pre : List Char) (lcmd : LocCmd) :
    parseArg .string pre pre.length lcmd = none := by
  have hdrop : pre.drop pre.length = [] ++ [] := by simp
  have hscan : scan (fun c => !isBlank c) pre pre.length = pre.length := scan_eq hdrop (by simp) (by simp)
  have hc : charAt pre pre.length = nul := charAt_of_drop_nil hdrop
  simp only [parseArg,hscan,hc,if_true]

theorem getLocDataLine_t (rest : List Char) :
    getLocDataLine ('t' :: ' ' :: rest) =
      (parseArgs [.control,.string] (' ' :: rest) 0 ⟨.text,[],[],[]⟩).bind fun lcmd =>
        if lcmd.command = .locale then none else some lcmd := by
  have hscan : scan (fun c => !isBlank c) ('t' :: ' ' :: rest) 0 = 0 :=
    scan_eq (show ('t' :: ' ' :: rest).drop 0 = [] ++ 't' :: ' ' :: rest from rfl) (by simp) (by simp [isBlank])
  have ht : charAt ('t' :: ' ' :: rest) 0 ≠ nul := by
    rw [charAt_of_drop (show ('t' :: ' ' :: rest).drop 0 = 't' :: ' ' :: rest from rfl)]
    decide
  rw [getLocDataLine,if_neg ht]
  simp only [hscan]
  rfl

/-- The command a text command's line is parsed to, from the text behind its quote on. -/
def textCommand (id body : List Char) : Option LocCmd :=
  (run quoteStep ((parsedHead id ++ body).length + 1) (parsedHead id ++ body,(parsedHead id).length)).bind
    fun s =>
      if charAt s.1 s.2 = nul then none
      else some ⟨.text,[id,cstr (s.1.set s.2 nul) (parsedHead id).length],[],[]⟩

theorem getLocDataLine_text (hid : ControlName id) (body : List Char) :
    getLocDataLine (textHead id ++ body) = textCommand id body := by
  have hline : textHead id ++ body = 't' :: ' ' :: (id ++ ' ' :: '"' :: body) := by simp [textHead]
  have hparsed : ' ' :: (id ++ nul :: '"' :: body) = (' ' :: (id ++ [nul])) ++ '"' :: body := by simp
  have hhead : (' ' :: (id ++ [nul])) ++ '"' :: body = parsedHead id ++ body := by simp [parsedHead]
  have hlen : (' ' :: (id ++ [nul])).length = id.length + 2 := by simp
  have hlen' : id.length + 2 + 1 = (parsedHead id).length := by simp [parsedHead]
  have hstring := parse_string (' ' :: (id ++ [nul])) body ⟨.text,[id],[],[]⟩
  rw [hlen,hhead,hlen'] at hstring
  rw [hline,getLocDataLine_t,parseArgs,parse_control hid,Option.bind_some]
  dsimp only
  rw [parseArgs,hparsed,hhead,List.nil_append,hstring,textCommand]
  cases run quoteStep ((parsedHead id ++ body).length + 1) (parsedHead id ++ body,(parsedHead id).length) with
  | none => rfl
  | some s =>
    simp only [Option.bind_some]
    split
    · rfl
    · simp [parseArgs]

theorem getLocDataLine_noText (hid : ControlName id) :
    getLocDataLine ('t' :: ' ' :: (id ++ [' '])) = none := by
  have hlen : (' ' :: (id ++ [nul])).length = id.length + 2 := by simp
  have hmissing := parse_string_missing (' ' :: (id ++ [nul])) ⟨.text,[id],[],[]⟩
  rw [hlen] at hmissing
  rw [getLocDataLine_t,parseArgs,parse_control hid,Option.bind_some]
  dsimp only
  rw [parseArgs,List.nil_append,hmissing]
  rfl

end Arguments

section Quotes

theorem quoteStep_char {pre rest : List Char} {c : Char} (hq : c ≠ '"') (hn : c ≠ nul) :
    quoteStep (pre ++ c :: rest,pre.length) = .inl (pre ++ c :: rest,pre.length + 1) := by
  have hc := charAt_append pre c rest
  simp [quoteStep,hc,hq,hn]

theorem quoteStep_escaped (pre rest : List Char) :
    quoteStep (pre ++ '\\' :: '"' :: rest,pre.length + 1) = .inl (pre ++ '"' :: rest,pre.length + 1) := by
  have hc : charAt (pre ++ '\\' :: '"' :: rest) (pre.length + 1) = '"' := by
    simpa using charAt_append (pre ++ ['\\']) '"' rest
  have hb := charAt_append pre '\\' ('"' :: rest)
  have hn : ('"' : Char) ≠ nul := by decide
  simp [quoteStep,hc,hb,hn]

/-- The search takes the backslashes of the escaped quotes out again. -/
theorem run_stored {s : List Char} (hs : nul ∉ s) (fuel : ℕ) (pre rest : List Char) :
    run quoteStep (fuel + (stored s).length) (pre ++ (stored s ++ rest),pre.length) =
      run quoteStep fuel (pre ++ (s ++ rest),pre.length + s.length) := by
  induction s generalizing pre with
  | nil => simp [stored]
  | cons c s ih =>
    rw [List.mem_cons,not_or] at hs
    have hnext := ih hs.2 (pre ++ [c])
    simp only [List.append_assoc,List.singleton_append,List.length_append,List.length_singleton] at hnext
    rw [stored_cons]
    by_cases hq : c = '"'
    · subst hq
      rw [if_pos rfl,List.length_append,show fuel + (['\\','"'].length + (stored s).length) =
        fuel + (stored s).length + 1 + 1 by simp; omega]
      simp only [List.cons_append,List.nil_append]
      rw [run,quoteStep_char (by decide) (by decide)]
      dsimp only
      rw [run,quoteStep_escaped]
      dsimp only
      rw [hnext,List.length_cons]
      congr 2
      omega
    · rw [if_neg hq,List.length_append,show fuel + ([c].length + (stored s).length) =
        fuel + (stored s).length + 1 by simp; omega]
      simp only [List.cons_append,List.nil_append]
      rw [run,quoteStep_char hq (Ne.symm hs.1)]
      dsimp only
      rw [hnext,List.length_cons]
      congr 2
      omega

theorem quoteStep_close {pre : List Char} (hne : pre ≠ []) (hlast : pre.getLast? ≠ some '\\') (rest : List Char) :
    quoteStep (pre ++ '"' :: rest,pre.length) = .inr (pre ++ '"' :: rest,pre.length) := by
  have hc := charAt_append pre '"' rest
  have hn : ('"' : Char) ≠ nul := by decide
  obtain ⟨q,d,rfl⟩ := List.eq_nil_or_concat pre |>.resolve_left hne
  rw [List.concat_eq_append] at hlast hc ⊢
  have hd : charAt (q ++ [d] ++ '"' :: rest) ((q ++ [d]).length - 1) = d := by
    simpa using charAt_append q d ('"' :: rest)
  have hdb : d ≠ '\\' := by simpa using hlast
  rw [quoteStep]
  dsimp only
  rw [hc,if_neg hn,if_pos rfl,hd,if_neg hdb]

theorem quoteStep_end (pre : List Char) : quoteStep (pre,pre.length) = .inr (pre,pre.length) := by
  have hc : charAt pre pre.length = nul := charAt_of_drop_nil (by simp)
  simp [quoteStep,hc]

variable {id s : List Char}

theorem textCommand_eq (hs : nul ∉ s) (rest : List Char) : textCommand id (stored s ++ rest) =
    (run quoteStep ((parsedHead id).length + rest.length + 1)
      (parsedHead id ++ (s ++ rest),(parsedHead id).length + s.length)).bind fun s =>
        if charAt s.1 s.2 = nul then none
        else some ⟨.text,[id,cstr (s.1.set s.2 nul) (parsedHead id).length],[],[]⟩ := by
  have hfuel : (parsedHead id ++ (stored s ++ rest)).length + 1 =
      (parsedHead id).length + rest.length + 1 + (stored s).length := by
    simp only [List.length_append]
    omega
  rw [textCommand,hfuel,run_stored hs]

/-- The text is read back if it does not end in a backslash; else the quote behind it
is taken for an escaped one. -/
theorem textCommand_stored (hs : nul ∉ s) : textCommand id (stored s ++ ['"']) =
    if s.getLast? = some '\\' then none else some ⟨.text,[id,s],[],[]⟩ := by
  have hassoc : parsedHead id ++ (s ++ ['"']) = parsedHead id ++ s ++ '"' :: [] := by simp
  have hlen : (parsedHead id).length + s.length = (parsedHead id ++ s).length := by simp
  rw [textCommand_eq hs]
  split
  next hlast =>
    obtain ⟨s',rfl⟩ : ∃ s', s = s' ++ ['\\'] := by
      obtain ⟨s',hs'⟩ := List.getLast?_eq_some_iff.mp hlast
      exact ⟨s',hs'⟩
    have hstate : (parsedHead id ++ (s' ++ ['\\'] ++ ['"']),(parsedHead id).length + (s' ++ ['\\']).length) =
        ((parsedHead id ++ s') ++ '\\' :: '"' :: [],(parsedHead id ++ s').length + 1) := by
      simp [Nat.add_assoc]
    have hnext : ((parsedHead id ++ s') ++ '"' :: [],(parsedHead id ++ s').length + 1) =
        (parsedHead id ++ s' ++ ['"'],(parsedHead id ++ s' ++ ['"']).length) := by
      simp [Nat.add_assoc]
    have hc : charAt (parsedHead id ++ s' ++ ['"']) (parsedHead id ++ s' ++ ['"']).length = nul :=
      charAt_of_drop_nil (by simp)
    rw [hstate,run,quoteStep_escaped,hnext]
    dsimp only
    rw [List.length_singleton,run,quoteStep_end]
    simp only [Option.bind_some,hc,if_true]
  next hlast =>
    have hlast' : (parsedHead id ++ s).getLast? ≠ some '\\' := by
      cases hs' : s.getLast? with
      | none =>
        rw [List.getLast?_eq_none_iff] at hs'
        have hhead : parsedHead id = (' ' :: (id ++ [nul])) ++ ['"'] := by simp [parsedHead]
        rw [hs',List.append_nil,hhead,List.getLast?_concat]
        decide
      | some d =>
        rw [List.getLast?_append,hs']
        simpa [hs'] using hlast
    have hc := charAt_append (parsedHead id ++ s) '"' []
    have hn : ('"' : Char) ≠ nul := by decide
    have hset : (parsedHead id ++ s ++ ['"']).set (parsedHead id ++ s).length nul =
        parsedHead id ++ (s ++ [nul]) := by simp
    have hcstr : cstr (parsedHead id ++ (s ++ [nul])) (parsedHead id).length = s :=
      cstr_eq (List.drop_left) hs (by simp)
    rw [hassoc,hlen,run,quoteStep_close (by simp [parsedHead]) hlast']
    simp only [Option.bind_some,hc,if_neg hn,hset,hcstr]

end Quotes

section Final

/-- Removing the backslash before a quote changes no other character before it. -/
theorem quoteStep_keeps {s s' : Buf × ℕ} (h : quoteStep s = .inl s') {j : ℕ} (hj : j < s.2) :
    s.2 ≤ s'.2 ∧ (charAt s'.1 j = charAt s.1 j ∨ charAt s.1 j = '\\' ∧ charAt s'.1 j = '"') := by
  obtain ⟨l,i⟩ := s
  unfold quoteStep at h
  dsimp only at h hj ⊢
  split at h
  next => cases h
  next hn =>
    have hlen := lt_length_of_charAt hn
    split at h
    next hq =>
      split at h
      next hb =>
        obtain rfl := Sum.inl.inj h
        refine ⟨le_rfl,?_⟩
        rcases Nat.lt_or_ge j (i - 1) with hlt | hge
        · exact Or.inl (charAt_take_append hlt (by omega))
        · obtain rfl : j = i - 1 := by omega
          right
          refine ⟨hb,?_⟩
          have hdrop : l.drop i = '"' :: l.drop (i + 1) := by
            rw [List.drop_eq_getElem_cons hlen,← hq,charAt_of_drop (List.drop_eq_getElem_cons hlen)]
          have htake : (l.take (i - 1)).length = i - 1 := by
            rw [List.length_take]
            omega
          have := charAt_append (l.take (i - 1)) '"' (l.drop (i + 1))
          rwa [htake,← hdrop] at this
      next => cases h
    next =>
      obtain rfl := Sum.inl.inj h
      exact ⟨Nat.le_succ i,Or.inl rfl⟩

theorem quoteStep_inr {s r : Buf × ℕ} (h : quoteStep s = .inr r) : s = r := by
  unfold quoteStep at h
  split at h
  next => exact Sum.inr.inj h
  next =>
    split at h
    next =>
      split at h
      next => cases h
      next => exact Sum.inr.inj h
    next => cases h

/-- What the search has passed is final, but for backslashes. -/
theorem run_keeps {fuel i j : ℕ} {l : Buf} {r : Buf × ℕ} {c : Char}
    (h : run quoteStep fuel (l,i) = some r) (hj : j < i) (hc : charAt l j = c) :
    i ≤ r.2 ∧ (charAt r.1 j = c ∨ c = '\\' ∧ charAt r.1 j = '"') := by
  let Kept (s : Buf × ℕ) : Prop := i ≤ s.2 ∧ (charAt s.1 j = c ∨ c = '\\' ∧ charAt s.1 j = '"')
  refine run_rule (I := Kept) (Q := Kept) ?_ ?_ ⟨le_rfl,Or.inl hc⟩ h
  · rintro s s' ⟨hi,hs⟩ hst
    obtain ⟨hle,hkeep⟩ := quoteStep_keeps hst (show j < s.2 by omega)
    refine ⟨hi.trans hle,?_⟩
    rcases hkeep with hkeep | ⟨hb,hq⟩
    · rwa [hkeep]
    · rcases hs with hs | ⟨-,hs⟩
      · exact Or.inr ⟨hs ▸ hb,hq⟩
      · rw [hs] at hb
        exact absurd hb (by decide)
  · rintro s q ⟨hi,hs⟩ hst
    obtain rfl := quoteStep_inr hst
    exact ⟨hi,hs⟩

end Final

end SecureWipeOut.Loc
