import SecureWipeOut.Lib.Jq

/-! # The layout of jq

In what jq prints the first element of an array never stands on the line of its bracket:
a bracket, a quotation mark and another character than those that follow a string are
never next to each other.
-/
namespace SecureWipeOut.Json

/-- How much of the three characters has just been read. -/
inductive Seen
  | nothing | bracket | quoted | found

variable {numeral : List Char → List Char} {x : Char} {σ : Seen}

def Seen.step (x : Char) : Seen → Char → Seen
  | .found, _ => .found
  | .quoted, c => if c = x then .found else if c = '[' then .bracket else .nothing
  | .bracket, c => if c = '[' then .bracket else if c = '"' then .quoted else .nothing
  | .nothing, c => if c = '[' then .bracket else .nothing

def look (x : Char) (σ : Seen) (t : List Char) : Seen := t.foldl (Seen.step x) σ

theorem look_append (σ : Seen) (s t : List Char) : look x σ (s ++ t) = look x (look x σ s) t :=
  List.foldl_append

theorem look_cons (σ : Seen) (c : Char) (t : List Char) : look x σ (c :: t) = look x (σ.step x c) t := rfl

theorem look_found (t : List Char) : look x .found t = .found := by
  induction t with
  | nil => rfl
  | cons c t ih => exact ih

theorem look_of_infix {t : List Char} (h : ['[','"',x] <:+: t) : look x σ t = .found := by
  obtain ⟨s,u,rfl⟩ := h
  have hbracket : look x .bracket ['"',x] = .found := by simp [look,Seen.step]
  have hthree : ∀ τ : Seen, look x τ ['[','"',x] = .found := by
    intro τ
    rw [look_cons]
    cases τ with
    | nothing => exact hbracket
    | bracket => exact hbracket
    | quoted =>
      rw [Seen.step]
      split
      · exact look_found _
      · exact hbracket
    | found => exact look_found _
  rw [look_append,look_append,hthree,look_found]

/-- Nothing, or what the end of a string leaves behind. -/
def Ended (σ : Seen) : Prop := σ = .nothing ∨ σ = .quoted

/-- Where text between quotation marks leaves off. -/
def Within (σ : Seen) : Prop := σ = .nothing ∨ σ = .bracket

theorem step_within {c : Char} (h : Within σ) (hc : c ≠ '"') : Within (σ.step x c) := by
  rcases h with rfl | rfl
  · rw [Seen.step]
    split
    · exact Or.inr rfl
    · exact Or.inl rfl
  · rw [Seen.step,if_neg hc]
    split
    · exact Or.inr rfl
    · exact Or.inl rfl

theorem look_within {t : List Char} (h : Within σ) (ht : '"' ∉ t) : Within (look x σ t) := by
  induction t generalizing σ with
  | nil => exact h
  | cons c t ih =>
    rw [List.mem_cons,not_or] at ht
    exact ih (step_within h (Ne.symm ht.1)) ht.2

theorem hexDigit_ne_quote (n : ℕ) : hexDigit n ≠ '"' := by
  have hall : ('0' :: "0123456789abcdef".toList).all (fun d => d != '"') = true := by decide
  refine bne_iff_ne.mp (List.all_eq_true.mp hall _ ?_)
  unfold hexDigit
  rw [List.getD_eq_getElem?_getD]
  cases h : "0123456789abcdef".toList[n]? with
  | none => exact List.mem_cons_self
  | some d => exact List.mem_cons_of_mem _ (List.mem_of_getElem? h)

/-- An escaped character shows no quotation mark that a backslash does not precede. -/
theorem look_escapeChar (c : Char) (h : Within σ) : Within (look x σ (escapeChar c)) := by
  by_cases hq : c = '"'
  · subst hq
    have hback : look x σ ['\\','"'] = look x .nothing ['"'] := by
      rcases h with rfl | rfl <;> rfl
    exact Or.inl hback
  · refine look_within h ?_
    rw [escapeChar,if_neg hq]
    repeat' split
    all_goals simp [Ne.symm (hexDigit_ne_quote _),Ne.symm hq]

theorem look_printString (s : List Char) : Ended (look x .nothing (printString s)) := by
  have hcontent : Within (look x .nothing (s.flatMap escapeChar)) := by
    suffices h : ∀ σ, Within σ → Within (look x σ (s.flatMap escapeChar)) from h _ (Or.inl rfl)
    induction s with
    | nil => exact fun _ h => h
    | cons c s ih =>
      intro σ h
      rw [List.flatMap_cons,look_append]
      exact ih _ (look_escapeChar c h)
  have hopen : look x .nothing (printString s) = look x (look x .nothing (s.flatMap escapeChar)) ['"'] := by
    rw [printString,look_cons,look_append]
    rfl
  rw [hopen]
  rcases hcontent with h | h
  · rw [h]
    exact Or.inl rfl
  · rw [h]
    exact Or.inr rfl

/-- What follows a string, and white space, shows nothing. -/
structure Follows (x : Char) : Prop where
  comma : x ≠ ','
  colon : x ≠ ':'
  newline : x ≠ '\n'

theorem look_lineBreak (hx : x ≠ '\n') (n : ℕ) (h : Ended σ ∨ σ = .bracket) :
    look x σ (lineBreak n) = .nothing := by
  have hnl : look x σ ['\n'] = .nothing := by
    rcases h with (rfl | rfl) | rfl
    · rfl
    · simp [look,Seen.step,Ne.symm hx]
    · rfl
  have hblank : ∀ m, look x .nothing (List.replicate m ' ') = .nothing := by
    intro m
    induction m with
    | zero => rfl
    | succ m ih => exact ih
  exact (look_append σ ['\n'] _).trans (by rw [hnl,hblank])

theorem look_comma (hx : Follows x) (n : ℕ) (h : Ended σ) : look x σ (',' :: lineBreak n) = .nothing := by
  have hcomma : σ.step x ',' = .nothing := by
    rcases h with rfl | rfl
    · rfl
    · simp [Seen.step,Ne.symm hx.comma]
  rw [look_cons,hcomma]
  exact look_lineBreak hx.newline n (Or.inl (Or.inl rfl))

theorem look_colon (hx : x ≠ ':') (h : Ended σ) : look x σ ": ".toList = .nothing := by
  rcases h with rfl | rfl
  · rfl
  · simp [look,Seen.step,Ne.symm hx]

theorem look_numeral {t : List Char} (ht : '[' ∉ t) : look x .nothing t = .nothing := by
  induction t with
  | nil => rfl
  | cons c t ih =>
    rw [List.mem_cons,not_or] at ht
    rw [look_cons,Seen.step,if_neg (Ne.symm ht.1)]
    exact ih ht.2

mutual

theorem look_print (hx : Follows x) (hn : ∀ t, '[' ∉ numeral t) (n : ℕ) :
    ∀ v : Value, Ended (look x .nothing (v.print numeral n))
  | .null => Or.inl rfl
  | .bool true => Or.inl rfl
  | .bool false => Or.inl rfl
  | .number t => Or.inl (look_numeral (hn t))
  | .string s => look_printString s
  | .array [] => Or.inl rfl
  | .array (v :: vs) => by
    have hv := look_print hx hn (n + 1) v
    have hvs := look_printElements hx hn (n + 1) vs hv
    have hopen : look x .nothing ('[' :: lineBreak (n + 1)) = .nothing :=
      look_lineBreak hx.newline (n + 1) (Or.inr rfl)
    have hclose := look_lineBreak hx.newline n (Or.inl hvs)
    rw [Value.print,look_append,look_append,look_append,look_append,hopen,hclose]
    exact Or.inl rfl
  | .object [] => Or.inl rfl
  | .object ((k,v) :: ms) => by
    have hv := look_print hx hn (n + 1) v
    have hms := look_printMembers hx hn (n + 1) ms hv
    have hopen : look x .nothing ('{' :: lineBreak (n + 1)) = .nothing :=
      look_lineBreak hx.newline (n + 1) (Or.inl (Or.inl rfl))
    have hclose := look_lineBreak hx.newline n (Or.inl hms)
    have hcolon := look_colon hx.colon (look_printString (x := x) k)
    rw [Value.print,look_append,look_append,look_append,look_append,look_append,look_append,hopen,hcolon,hclose]
    exact Or.inl rfl

theorem look_printElements (hx : Follows x) (hn : ∀ t, '[' ∉ numeral t) (n : ℕ) :
    ∀ (vs : List Value) {σ : Seen}, Ended σ → Ended (look x σ (printElements numeral n vs))
  | [], _, h => h
  | v :: vs, σ, h => by
    rw [printElements,look_append,look_append,look_comma hx n h]
    exact look_printElements hx hn n vs (look_print hx hn n v)

theorem look_printMembers (hx : Follows x) (hn : ∀ t, '[' ∉ numeral t) (n : ℕ) :
    ∀ (ms : List (List Char × Value)) {σ : Seen}, Ended σ → Ended (look x σ (printMembers numeral n ms))
  | [], _, h => h
  | (k,v) :: ms, σ, h => by
    have hcolon := look_colon hx.colon (look_printString (x := x) k)
    rw [printMembers,look_append,look_append,look_append,look_append,look_comma hx n h,hcolon]
    exact look_printMembers hx hn n ms (look_print hx hn n v)

end

/-- The first element of an array does not follow its bracket. -/
theorem runFilter_layout (hx : Follows x) (hn : ∀ t, '[' ∉ numeral t)
    (filter : Value → Option Value) (t : List Char) :
    ¬ ['[','"',x] <:+: runFilter (Value.print numeral 0) filter t := by
  intro h
  have hruns : ∀ vs : List Value, look x .nothing
      (vs.flatMap fun v => ((filter v).map fun y => y.print numeral 0 ++ ['\n']).getD []) = .nothing := by
    intro vs
    induction vs with
    | nil => rfl
    | cons v vs ih =>
      rw [List.flatMap_cons,look_append]
      cases filter v with
      | none => exact ih
      | some y =>
        have hline : look x .nothing (y.print numeral 0 ++ ['\n']) = .nothing :=
          (look_append _ _ _).trans (look_lineBreak hx.newline 0 (Or.inl (look_print hx hn 0 y)))
        rw [Option.map_some,Option.getD_some,hline]
        exact ih
  have hfound := look_of_infix (σ := .nothing) h
  rw [runFilter,hruns] at hfound
  cases hfound

end SecureWipeOut.Json
