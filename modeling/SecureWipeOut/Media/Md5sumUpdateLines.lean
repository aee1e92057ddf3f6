import SecureWipeOut.Media.Md5sumUpdate

/-! # The line that is updated

The sum of a modified file is written to the first line in which its name stands, be it as the
whole path or as a part of it.
-/
namespace SecureWipeOut.Md5sum
open CText Search

section Sum
variable (sum : Fin 16 → UInt8)

theorem hexDigits_succ (n : ℕ) : hexDigits sum (n + 1) = hexDigits sum n ++
    [hexDigit ((sum (Fin.ofNat 16 n)).toNat >>> 4),hexDigit ((sum (Fin.ofNat 16 n)).toNat &&& 15)] := by
  rw [hexDigits,List.range_succ,List.flatMap_append,List.flatMap_singleton]
  rfl

@[simp] theorem length_hexDigits (n : ℕ) : (hexDigits sum n).length = 2 * n := by
  induction n with
  | zero => rfl
  | succ n ih =>
    rw [hexDigits_succ,List.length_append,ih]
    rfl

theorem hexSum_hex : (hexSum sum).all isHexAscii = true := by
  have hdigit : ∀ n < 16, isHexAscii (hexDigit n) = true := by decide
  rw [List.all_eq_true]
  intro c hc
  rw [hexSum,hexDigits,List.mem_flatMap] at hc
  obtain ⟨j,-,hc⟩ := hc
  have hlt := (sum (Fin.ofNat 16 j)).toNat_lt
  simp only [List.mem_cons,List.not_mem_nil,or_false] at hc
  rcases hc with rfl | rfl
  · apply hdigit
    rw [Nat.shiftRight_eq_div_pow]
    omega
  · exact hdigit _ (Nat.and_le_right.trans_lt (by decide))

theorem set_append (pre : Buf) (c d : Char) (rest : Buf) : (pre ++ c :: rest).set pre.length d = pre ++ d :: rest := by
  rw [List.set_append_right _ _ le_rfl,Nat.sub_self,List.set_cons_zero]

theorem set_append_succ (pre : Buf) (b c d : Char) (rest : Buf) :
    (pre ++ b :: c :: rest).set (pre.length + 1) d = pre ++ b :: d :: rest := by
  rw [List.set_append_right _ _ (Nat.le_add_right _ 1),Nat.add_sub_cancel_left,List.set_cons_succ,List.set_cons_zero]

/-- The digits overwrite as many characters. -/
theorem writeSum_append {n : ℕ} (pre : Buf) {old : Buf} (post : Buf) (hold : 2 * n ≤ old.length) :
    writeSum sum pre.length n (pre ++ (old ++ post)) = pre ++ (hexDigits sum n ++ (old.drop (2 * n) ++ post)) := by
  induction n with
  | zero => rfl
  | succ n ih =>
    obtain ⟨a,b,rest,hrest⟩ : ∃ a b rest, old.drop (2 * n) = a :: b :: rest := by
      match hdrop : old.drop (2 * n) with
      | [] | [_] =>
        have hlen := congrArg List.length hdrop
        rw [List.length_drop] at hlen
        simp at hlen
        omega
      | a :: b :: rest => exact ⟨a,b,rest,rfl⟩
    have hnext : old.drop (2 * (n + 1)) = rest := by
      rw [Nat.mul_succ,← List.drop_drop,hrest]
      rfl
    have hlen : pre.length + 2 * n = (pre ++ hexDigits sum n).length := by
      rw [List.length_append,length_hexDigits]
    rw [writeSum,ih (by omega),hrest,hnext,hexDigits_succ,hlen,← List.append_assoc]
    dsimp only [List.cons_append]
    rw [set_append,set_append_succ]
    simp

end Sum

section Start

/-- Going back from a place of a line ends at the start of the line. -/
theorem lineStart_append {pre mid : Buf} (post : Buf) (hpre : pre = [] ∨ pre.getLast? = some '\n') (hmid : '\n' ∉ mid)
    {i : ℕ} (hi : i ≤ mid.length) : lineStart (pre ++ (mid ++ post)) (pre.length + i) = pre.length := by
  induction i with
  | zero =>
    rcases List.eq_nil_or_concat' pre with rfl | ⟨init,c,rfl⟩
    · rfl
    · have hc : c = '\n' := by simpa using hpre
      have hchar : charAt (init ++ [c] ++ (mid ++ post)) init.length = c := by
        rw [List.append_assoc]
        exact charAt_append init c _
      rw [Nat.add_zero,List.length_append,List.length_singleton,lineStart,hchar,if_pos hc]
  | succ i ih =>
    have hlt : i < mid.length := hi
    have hdrop : (pre ++ (mid ++ post)).drop (pre.length + i) = mid[i] :: (mid.drop (i + 1) ++ post) := by
      rw [← List.drop_drop,List.drop_left,List.drop_append_of_le_length hlt.le,List.drop_eq_getElem_cons hlt]
      rfl
    have hchar := charAt_of_drop hdrop
    rw [← Nat.add_assoc,lineStart,hchar,if_neg (show ¬mid[i] = '\n' from fun h => hmid (h ▸ List.getElem_mem hlt))]
    exact ih hlt.le

end Start

section Render
variable {closed : Bool}

/-- Lines that are followed by others. -/
def closedText (lines : List Line) : List Char := lines.flatMap fun l => l.body ++ ['\n']

def lineEnding (closed : Bool) (lines : List Line) : List Char := if closed || !lines.isEmpty then ['\n'] else []

theorem render_cons (l : Line) (ls : List Line) :
    render closed (l :: ls) = l.body ++ (lineEnding closed ls ++ render closed ls) := rfl

theorem render_append (pre : List Line) (l : Line) (post : List Line) :
    render closed (pre ++ l :: post) = closedText pre ++ render closed (l :: post) := by
  induction pre with
  | nil => rfl
  | cons x pre ih =>
    have hend : lineEnding closed (pre ++ l :: post) = ['\n'] := by
      unfold lineEnding
      rw [if_pos (by cases pre <;> simp)]
    rw [List.cons_append,render_cons,hend,ih,closedText,closedText,List.flatMap_cons]
    simp

theorem closedText_last (pre : List Line) : closedText pre = [] ∨ (closedText pre).getLast? = some '\n' := by
  rcases List.eq_nil_or_concat' pre with rfl | ⟨init,l,rfl⟩
  · exact Or.inl rfl
  · right
    rw [closedText,List.flatMap_append,List.flatMap_singleton,List.getLast?_append,List.getLast?_append]
    rfl

theorem Line.body_line (l : Line) : '\n' ∉ l.body := by
  intro h
  rcases List.mem_append.mp h with h | h
  · exact absurd (List.all_eq_true.mp l.hex_md5 _ h) (by decide)
  · simp [l.path_line] at h

theorem Line.body_text (l : Line) : nul ∉ l.body := by
  intro h
  rcases List.mem_append.mp h with h | h
  · exact absurd (List.all_eq_true.mp l.hex_md5 _ h) (by decide)
  · simp only [List.mem_cons,l.path_text,or_false] at h
    rcases h with h | h | h | h <;> exact absurd h (by decide)

theorem render_text (lines : List Line) : nul ∉ render closed lines := by
  induction lines with
  | nil => exact List.not_mem_nil
  | cons l ls ih =>
    rw [render_cons,List.mem_append,List.mem_append]
    rintro (h | h | h)
    · exact l.body_text h
    · unfold lineEnding at h
      split at h
      · exact absurd (List.mem_singleton.mp h) (by decide)
      · cases h
    · exact ih h

theorem cstr_render (lines : List Line) : cstr (render closed lines) 0 = render closed lines := by
  refine cstr_eq (by rw [List.drop_zero,List.append_nil]) (render_text lines) ?_
  simp

end Render

section Hits
variable {closed : Bool} {m : Modified}

def Modified.needle (m : Modified) : List Char := '/' :: m.path

theorem slashes_cons (c : Char) (s : List Char) : slashes (c :: s) = (if c = '\\' then '/' else c) :: slashes s := rfl

theorem slashes_name (m : Modified) : (slashes m.name).drop 2 = m.needle := by
  have hsep : (if m.separator = '\\' then '/' else m.separator) = '/' := by
    rcases m.separator_eq with h | h
    · rw [h]
      rfl
    · rw [h]
      rfl
  rw [Modified.name,slashes_cons,slashes_cons,slashes_cons,hsep]
  rfl

theorem needle_line (m : Modified) : '\n' ∉ m.needle := by
  intro h
  rcases List.mem_cons.mp h with h | h
  · exact absurd h (by decide)
  · obtain ⟨c,hc,hc'⟩ := List.mem_map.mp h
    split at hc'
    · exact absurd hc' (by decide)
    · exact m.rest_line (hc' ▸ hc)

/-- The place of the path in a line. -/
theorem Line.drop_body (l : Line) (i : ℕ) : l.body.drop (35 + i) = ('/' :: l.path).drop i := by
  have hsplit : l.body = (l.md5 ++ [' ',' ','.']) ++ '/' :: l.path := by
    rw [Line.body,List.append_assoc]
    rfl
  have hlen : (l.md5 ++ [' ',' ','.']).length = 35 := by
    rw [List.length_append,l.length_md5]
    rfl
  rw [hsplit,← List.drop_drop,← hlen,List.drop_left]

theorem Line.length_body (l : Line) : l.body.length = 36 + l.path.length := by
  rw [Line.body,List.length_append,l.length_md5]
  simp
  omega

/-- In a line, the name of a file stands in the path only. -/
theorem occurs_body {l : Line} {i : ℕ} (h : m.needle <+: l.body.drop i) : 35 ≤ i := by
  by_contra hlt
  have hbody := l.length_body
  have hslash : l.body[i]? = some '/' := by
    rw [← List.head?_drop]
    obtain ⟨t,ht⟩ := h
    rw [← ht]
    rfl
  have hpre : l.body = (l.md5 ++ [' ',' ','.']) ++ '/' :: l.path := by
    rw [Line.body,List.append_assoc]
    rfl
  have hlen : (l.md5 ++ [' ',' ','.']).length = 35 := by
    rw [List.length_append,l.length_md5]
    rfl
  rw [hpre,List.getElem?_append_left (by omega)] at hslash
  rcases List.mem_append.mp (List.mem_of_getElem? hslash) with hmem | hmem
  · exact absurd (List.all_eq_true.mp l.hex_md5 _ hmem) (by decide)
  · exact absurd hmem (by decide)

/-- What follows a line does not belong to an occurrence in it. -/
theorem occurs_line (closed : Bool) {l : Line} (ls : List Line) {i : ℕ} (hi : i ≤ l.body.length) :
    Occurs m.needle (l.body ++ (lineEnding closed ls ++ render closed ls)) i ↔ m.needle <+: l.body.drop i := by
  rw [Occurs,List.drop_append_of_le_length hi]
  unfold lineEnding
  split
  next => exact prefix_append_sep (needle_line m) _ _
  next h =>
    have hnil : ls = [] := by
      by_contra hne
      cases ls with
      | nil => exact hne rfl
      | cons => simp at h
    rw [hnil,render,List.append_nil,List.append_nil]

theorem infix_iff (l : Line) : m.needle <:+: '/' :: l.path ↔ ∃ i ≤ l.body.length, m.needle <+: l.body.drop i := by
  have hlen := l.length_body
  constructor
  · rintro ⟨a,b,hab⟩
    have hle := congrArg List.length hab
    simp only [List.length_append,List.length_cons] at hle
    refine ⟨35 + a.length,by omega,?_⟩
    rw [l.drop_body,← hab,List.append_assoc,List.drop_left]
    exact List.prefix_append _ _
  · rintro ⟨i,-,hocc⟩
    obtain ⟨k,rfl⟩ := Nat.exists_eq_add_of_le (occurs_body hocc)
    rw [l.drop_body] at hocc
    exact hocc.isInfix.trans (List.drop_suffix _ _).isInfix

theorem hit_cons (l : Line) (ls : List Line) :
    hit (l :: ls) m = if m.needle <:+: '/' :: l.path then some 0 else (hit ls m).map (· + 1) := by
  rw [hit,List.findIdx?_cons]
  by_cases h : m.needle <:+: '/' :: l.path
  · rw [if_pos h]
    exact if_pos (decide_eq_true h)
  · rw [if_neg h]
    exact if_neg (by rw [decide_eq_true_eq]; exact h)

/-- The search ends in the first line with the name of the file. -/
theorem find_render (closed : Bool) (m : Modified) (lines : List Line) :
    match hit lines m with
    | none => find m.needle (render closed lines) = none
    | some k => ∃ pre l post i, lines = pre ++ l :: post ∧ pre.length = k ∧ i ≤ l.body.length ∧
        find m.needle (render closed lines) = some ((closedText pre).length + i) := by
  induction lines with
  | nil => exact (find_eq_none_iff (List.cons_ne_nil _ _)).mpr fun i h => by simp [Occurs,render] at h
  | cons l ls ih =>
    rw [hit_cons]
    by_cases hinfix : m.needle <:+: '/' :: l.path
    · rw [if_pos hinfix]
      obtain ⟨i,hi,hocc⟩ := (infix_iff l).mp hinfix
      have hrender := (occurs_line closed ls hi).mpr hocc
      rw [← render_cons] at hrender
      obtain ⟨k,hk,hfind⟩ := find_isSome (by rw [render_cons,List.length_append]; omega) hrender
      exact ⟨[],l,ls,k,rfl,rfl,hk.trans hi,by rw [hfind]; simp [closedText]⟩
    · rw [if_neg hinfix]
      have hnone : ∀ i < (l.body ++ lineEnding closed ls).length,
          ¬Occurs m.needle ((l.body ++ lineEnding closed ls) ++ render closed ls) i := by
        intro i hi hocc
        have hle : i ≤ l.body.length := by
          have hend : (lineEnding closed ls).length ≤ 1 := by
            unfold lineEnding
            split <;> simp
          rw [List.length_append] at hi
          omega
        rw [List.append_assoc,occurs_line closed ls hle] at hocc
        exact hinfix ((infix_iff l).mpr ⟨i,hle,hocc⟩)
      have hfind := find_append hnone
      rw [List.append_assoc,← render_cons] at hfind
      cases hrest : hit ls m with
      | none =>
        rw [hrest] at ih
        dsimp only [Option.map_none] at ih ⊢
        rw [hfind,ih]
        rfl
      | some k =>
        rw [hrest] at ih
        dsimp only [Option.map_some] at ih ⊢
        obtain ⟨pre,l',post,i,hlines,hpre,hi,hfind'⟩ := ih
        have hend : lineEnding closed ls = ['\n'] := by
          unfold lineEnding
          rw [if_pos (by rw [hlines]; cases pre <;> simp)]
        refine ⟨l :: pre,l',post,i,by rw [hlines]; rfl,by rw [List.length_cons,hpre],hi,?_⟩
        rw [hfind,hfind',Option.map_some,hend,closedText,closedText,List.flatMap_cons,
          List.length_append,List.length_append,List.length_append,Nat.add_assoc,Nat.add_assoc,Nat.add_assoc]

end Hits

end SecureWipeOut.Md5sum
