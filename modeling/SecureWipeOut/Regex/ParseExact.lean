import SecureWipeOut.Regex.Parse

/-! # The patterns and what the parser makes of them

Which texts spell which syntax tree: quantifiers bind the tightest, alternatives the least, and a
backslash takes the meaning from any character. A text is read to the node it spells, whatever
stands behind it, unless there is no room in the buffer.
-/
namespace SecureWipeOut.Regex

def isAscii (c : UInt8) : Prop := 0 < c ∧ c < 128

instance : DecidablePred isAscii := fun c => inferInstanceAs (Decidable (0 < c ∧ c < 128))

/-- The characters that mean something outside of a class. -/
def specials : List UInt8 := [92,46,91,63,42,43,123,94,36,124,40,41]

def AllDigits (digits : List UInt8) : Prop := ∀ d ∈ digits, isDigit d = true

/-- A quantifier with its bounds, none being written as minus one. -/
inductive Quantifies : List UInt8 → ℕ → ℤ → Prop where
  | optional : Quantifies [63] 0 1
  | star : Quantifies [42] 0 (-1)
  | plus : Quantifies [43] 1 (-1)
  | exactly (digits : List UInt8) (hne : digits ≠ []) (hdigits : AllDigits digits) :
      Quantifies (123 :: digits ++ [125]) (decimal digits) (decimal digits)
  | atLeast (digits : List UInt8) (hne : digits ≠ []) (hdigits : AllDigits digits) :
      Quantifies (123 :: digits ++ [44,125]) (decimal digits) (-1)
  | between (least most : List UInt8) (hne : most ≠ []) (hleast : AllDigits least) (hmost : AllDigits most)
      (hle : decimal least ≤ decimal most) :
      Quantifies (123 :: least ++ 44 :: most ++ [125]) (decimal least) (decimal most)

/-- A character of a class; only the first one may be a closing bracket. -/
inductive ClassChar (first : Bool) : List UInt8 → UInt8 → Prop where
  | plain {c : UInt8} (hascii : isAscii c) (hne : c ≠ 92) (hclose : c = 93 → first = true) : ClassChar first [c] c
  | escaped {c : UInt8} (hascii : isAscii c) : ClassChar first [92,c] c

/-- The inside of a class with the ranges it lists. A dash that is the last character stands for itself. -/
inductive ClassText : Bool → List UInt8 → List (UInt8 × UInt8) → Prop where
  | nil : ClassText false [] []
  | single {first : Bool} {text more : List UInt8} {c : UInt8} {ranges : List (UInt8 × UInt8)}
      (hchar : ClassChar first text c) (hmore : ClassText false more ranges)
      (hdash : ∀ last rest, more ≠ 45 :: last :: rest) : ClassText first (text ++ more) ((c,c) :: ranges)
  | range {first : Bool} {text more : List UInt8} {c last : UInt8} {ranges : List (UInt8 × UInt8)}
      (hchar : ClassChar first text c) (hlast : isAscii last) (hclose : last ≠ 93) (hle : c ≤ last)
      (hmore : ClassText false more ranges) : ClassText first (text ++ 45 :: last :: more) ((c,last) :: ranges)

def Node.isGreedy : Node → Bool
  | .quantifier _ _ greedy _ => greedy
  | _ => false

/-- Two alternatives, of which an empty one makes the other one optional. -/
def alternative (left right : Node) : Node :=
  if left.isEpsilon && right.isEpsilon then left
  else if left.isEpsilon then .quantifier 0 1 true right
  else if right.isEpsilon then .quantifier 0 1 true left
  else .alternation left right

inductive Level where
  | item
  | sequence
  | pattern

/-- The texts of a syntax tree. -/
inductive Spells : Level → List UInt8 → Node → Prop where
  | character {ch : UInt8} (hascii : isAscii ch) (hplain : ch ∉ specials) : Spells .item [ch] (.character ch)
  | escaped {ch : UInt8} (hascii : isAscii ch) : Spells .item [92,ch] (.character ch)
  | anyCharacter : Spells .item [46] .anyCharacter
  | characterClass {text : List UInt8} {ranges : List (UInt8 × UInt8)} (htext : ClassText true text ranges)
      (hfirst : text.head? ≠ some 94) : Spells .item (91 :: text ++ [93]) (.characterClass (text ++ [93]))
  | characterClassNegated {text : List UInt8} {ranges : List (UInt8 × UInt8)} (htext : ClassText true text ranges) :
      Spells .item (91 :: 94 :: text ++ [93]) (.characterClassNegated (text ++ [93]))
  | anchorBegin : Spells .item [94] .anchorBegin
  | anchorEnd : Spells .item [36] .anchorEnd
  | capture {text : List UInt8} {captured : Node} (h : Spells .pattern text captured) :
      Spells .item (40 :: text ++ [41]) (.capture captured)
  | greedy {text q : List UInt8} {quantified : Node} {nmin : ℕ} {nmax : ℤ} (h : Spells .item text quantified)
      (hq : Quantifies q nmin nmax) (hlazy : quantified.isGreedy = true → q ≠ [63]) :
      Spells .item (text ++ q) (.quantifier nmin nmax true quantified)
  | lazy {text q : List UInt8} {quantified : Node} {nmin : ℕ} {nmax : ℤ} (h : Spells .item text quantified)
      (hq : Quantifies q nmin nmax) (hlazy : quantified.isGreedy = true → q ≠ [63]) :
      Spells .item (text ++ q ++ [63]) (.quantifier nmin nmax false quantified)
  | empty : Spells .sequence [] .epsilon
  | single {text : List UInt8} {node : Node} (h : Spells .item text node) : Spells .sequence text node
  | concatenation {text more : List UInt8} {left right : Node} (hleft : Spells .item text left)
      (hright : Spells .sequence more right) (hne : more ≠ []) :
      Spells .sequence (text ++ more) (.concatenation left right)
  | sequence {text : List UInt8} {node : Node} (h : Spells .sequence text node) : Spells .pattern text node
  | alternative {text more : List UInt8} {left right : Node} (hleft : Spells .sequence text left)
      (hright : Spells .pattern more right) :
      Spells .pattern (text ++ 124 :: more) (alternative left right)

section outcomes
variable {α β : Type} {size depth bottom : ℕ} {sp sp' sp'' : List UInt8} {stack stack' stack'' : List Node}

/-- What the parser comes to, as long as there is room. -/
def Gives (r : Except Failure Context) (sp : List UInt8) (stack : List Node) : Prop :=
  r = .error .overrun ∨ ∃ output, r = .ok ⟨sp,stack,output⟩

theorem Gives.bind {r : Except Failure Context} {f : Context → Except Failure Context}
    (h : Gives r sp stack) (hf : ∀ output, Gives (f ⟨sp,stack,output⟩) sp' stack') :
    Gives (r >>= f) sp' stack' := by
  rcases h with rfl | ⟨output,rfl⟩
  · exact Or.inl rfl
  · exact hf output

theorem push_gives (context : Context) (node : Node) :
    Gives (push size context node) context.sp (node :: context.stack) := by
  rw [push]
  split
  · exact Or.inr ⟨context.output,rfl⟩
  · exact Or.inl rfl

variable (size depth bottom) in
/-- The parser goes on from one text and stack to another. -/
def Turns (sp : List UInt8) (stack : List Node) (sp' : List UInt8) (stack' : List Node) : Prop :=
  ∀ fuel output, parseContext size fuel depth bottom ⟨sp,stack,output⟩ = .error .overrun ∨
    ∃ fuel' output', parseContext size fuel depth bottom ⟨sp,stack,output⟩ =
      parseContext size fuel' depth bottom ⟨sp',stack',output'⟩

variable (size depth bottom) in
/-- The parser returns. -/
def Ends (sp : List UInt8) (stack : List Node) (sp' : List UInt8) (stack' : List Node) : Prop :=
  ∀ fuel output, Gives (parseContext size fuel depth bottom ⟨sp,stack,output⟩) sp' stack'

theorem Turns.refl : Turns size depth bottom sp stack sp stack := fun fuel output =>
  Or.inr ⟨fuel,output,rfl⟩

theorem Turns.trans (h : Turns size depth bottom sp stack sp' stack')
    (h' : Turns size depth bottom sp' stack' sp'' stack'') :
    Turns size depth bottom sp stack sp'' stack'' := by
  intro fuel output
  rcases h fuel output with hover | ⟨fuel',output',heq⟩
  · exact Or.inl hover
  · rw [heq]
    exact h' fuel' output'

theorem Turns.ends (h : Turns size depth bottom sp stack sp' stack')
    (h' : Ends size depth bottom sp' stack' sp'' stack'') :
    Ends size depth bottom sp stack sp'' stack'' := by
  intro fuel output
  rcases h fuel output with hover | ⟨fuel',output',heq⟩
  · exact Or.inl hover
  · rw [heq]
    exact h' fuel' output'

/-- One character with what belongs to it. -/
theorem Turns.one {ch : UInt8} (hch : ch ≠ 124 ∧ ch ≠ 40 ∧ ch ≠ 41)
    (h : ∀ output, Gives (parseOne size bottom ch ⟨sp,stack,output⟩) sp' stack') :
    Turns size depth bottom (ch :: sp) stack sp' stack' := by
  intro fuel output
  cases fuel with
  | zero => exact Or.inl rfl
  | succ fuel =>
    rw [parseContext]
    dsimp only
    rw [if_neg hch.1,if_neg hch.2.1,if_neg hch.2.2]
    rcases h output with hover | ⟨output',hok⟩
    · rw [hover]
      exact Or.inl rfl
    · rw [hok]
      exact Or.inr ⟨fuel,output',rfl⟩

end outcomes

section tokens
variable {size depth bottom : ℕ} {sp : List UInt8} {stack : List Node} {quantified : Node}

theorem quantify_gives (context : Context) (hstack : context.stack = quantified :: stack) (nmin : ℕ)
    (nmax : ℤ) : Gives (quantify size context nmin nmax)
      (if charAt context.sp 0 ≠ 63 then context.sp else context.sp.drop 1)
      (.quantifier nmin nmax (decide (charAt context.sp 0 ≠ 63)) quantified :: stack) := by
  rw [quantify]
  dsimp only
  rw [consume,hstack]
  exact push_gives _ _

theorem digits_span {digits : List UInt8} (h : AllDigits digits) {c : UInt8} (hc : isDigit c = false)
    (rest : List UInt8) : (digits ++ c :: rest).takeWhile isDigit = digits ∧
      (digits ++ c :: rest).dropWhile isDigit = c :: rest := by
  rw [List.takeWhile_append_of_pos h,List.dropWhile_append_of_pos h,List.takeWhile_cons_of_neg (by simp [hc]),
    List.dropWhile_cons_of_neg (by simp [hc]),List.append_nil]
  exact ⟨rfl,rfl⟩

theorem charAt_append_of_ne_nil {digits : List UInt8} (h : digits ≠ []) (rest : List UInt8) :
    ∃ d ∈ digits, charAt (digits ++ rest) 0 = d := by
  cases digits with
  | nil => exact absurd rfl h
  | cons d digits => exact ⟨d,List.mem_cons_self,rfl⟩

theorem ne_of_isDigit {d c : UInt8} (hd : isDigit d = true) (hc : isDigit c = false) : d ≠ c := by
  rintro rfl
  cases hd.symm.trans hc

/-- What is behind an opening brace is read to its bounds. -/
theorem parseInterval_spelled {q rest : List UInt8} {nmin : ℕ} {nmax : ℤ}
    (hq : Quantifies (123 :: q) nmin nmax) : parseInterval (q ++ rest) = some (nmin,nmax,rest) := by
  have hcomma : isDigit 44 = false := by decide
  have hclose : isDigit 125 = false := by decide
  generalize hbrace : 123 :: q = text at hq
  cases hq with
  | optional | star | plus => cases hbrace
  | exactly digits hne hdigits =>
    obtain rfl : q = digits ++ [125] := (List.cons.inj hbrace).2
    obtain ⟨d,hd,hfirst⟩ := charAt_append_of_ne_nil hne (125 :: rest)
    obtain ⟨htake,hdrop⟩ := digits_span hdigits hclose rest
    have hne' := ne_of_isDigit (hdigits d hd) hclose
    rw [List.append_assoc,List.singleton_append,parseInterval]
    simp [htake,hdrop,hfirst,hne']
  | atLeast digits hne hdigits =>
    obtain rfl : q = digits ++ [44,125] := (List.cons.inj hbrace).2
    obtain ⟨d,hd,hfirst⟩ := charAt_append_of_ne_nil hne (44 :: 125 :: rest)
    obtain ⟨htake,hdrop⟩ := digits_span hdigits hcomma (125 :: rest)
    have hne' := ne_of_isDigit (hdigits d hd) hcomma
    rw [List.append_assoc,List.cons_append,List.singleton_append,parseInterval]
    simp [htake,hdrop,hfirst,hne']
  | between least most hne hleast hmost hle =>
    obtain rfl : q = least ++ 44 :: most ++ [125] := (List.cons.inj hbrace).2
    obtain ⟨d,hd,hfirst⟩ := charAt_append_of_ne_nil hne (125 :: rest)
    obtain ⟨htake,hdrop⟩ := digits_span hleast hcomma (most ++ 125 :: rest)
    obtain ⟨htake',hdrop'⟩ := digits_span hmost hclose rest
    have hne' := ne_of_isDigit (hmost d hd) hclose
    have hshape : least ++ 44 :: most ++ [125] ++ rest = least ++ 44 :: (most ++ 125 :: rest) := by simp
    rw [hshape,parseInterval]
    simp [htake,hdrop,htake',hdrop',hfirst,hne',hne,Nat.not_lt.mpr hle]

/-- Behind a character of a class, a dash that lists no range. -/
theorem not_dash {more : List UInt8} (h : ∀ last rest, more ≠ 45 :: last :: rest) (rest : List UInt8) :
    (charAt (more ++ 93 :: rest) 0 = 45 && charAt (more ++ 93 :: rest) 1 != 93) = false := by
  rcases more with _ | ⟨c,_ | ⟨last,more⟩⟩
  · rfl
  · simp
  · have hne : c ≠ 45 := fun heq => h last more (by rw [heq])
    simp [hne]

/-- One character of a class is read, and what follows it decides whether it begins a range. -/
theorem scanCharClass_char {first : Bool} {text : List UInt8} {c : UInt8} (hchar : ClassChar first text c)
    (more : List UInt8) (fuel : ℕ) : scanCharClass (fuel + 1) first (text ++ more) =
      if charAt more 0 = 45 && charAt more 1 != 93 then
        if charAt more 1 < c then .error .rejected else scanCharClass fuel false (more.drop 2)
      else scanCharClass fuel false more := by
  cases hchar with
  | plain hascii hne hclose =>
    rw [List.singleton_append,scanCharClass]
    have hopen : (c = 93 && !first) = false := by
      by_cases hc : c = 93
      · simp [hclose hc]
      · simp [hc]
    simp only [hopen,hne,Bool.false_eq_true,if_false,decide_false,Bool.false_and]
  | escaped hascii =>
    rw [List.cons_append,List.singleton_append,scanCharClass]
    simp

theorem scanCharClass_spelled {first : Bool} {text : List UInt8} {ranges : List (UInt8 × UInt8)}
    (h : ClassText first text ranges) (rest : List UInt8) (fuel : ℕ) :
    scanCharClass fuel first (text ++ 93 :: rest) = .error .overrun ∨
      scanCharClass fuel first (text ++ 93 :: rest) = .ok rest := by
  induction h generalizing fuel with
  | nil =>
    cases fuel with
    | zero => exact Or.inl rfl
    | succ fuel => exact Or.inr rfl
  | single hchar hmore hdash ih =>
    cases fuel with
    | zero => exact Or.inl rfl
    | succ fuel =>
      rw [List.append_assoc,scanCharClass_char hchar,not_dash hdash]
      exact ih fuel
  | range hchar hlast hclose hle hmore ih =>
    cases fuel with
    | zero => exact Or.inl rfl
    | succ fuel =>
      rw [List.append_assoc,scanCharClass_char hchar]
      rw [if_pos (by simp [hclose]),if_neg]
      · exact ih fuel
      · exact UInt8.not_lt.mpr hle

theorem take_class (text rest : List UInt8) :
    (text ++ 93 :: rest).take ((text ++ 93 :: rest).length - rest.length) = text ++ [93] := by
  have hshape : text ++ 93 :: rest = (text ++ [93]) ++ rest := by simp
  rw [hshape,List.length_append,Nat.add_sub_cancel,List.take_left]

theorem parseCharClass_gives {text : List UInt8} {ranges : List (UInt8 × UInt8)}
    (h : ClassText true text ranges) (hfirst : text.head? ≠ some 94) (rest : List UInt8) (output : ℕ) :
    Gives (parseCharClass size ⟨text ++ 93 :: rest,stack,output⟩) rest
      (.characterClass (text ++ [93]) :: stack) := by
  have hplain : charAt (text ++ 93 :: rest) 0 ≠ 94 := by
    cases text with
    | nil => simp
    | cons c text => exact fun heq => hfirst (congrArg some heq)
  rw [parseCharClass]
  simp only [hplain,if_false]
  rcases scanCharClass_spelled h rest ((text ++ 93 :: rest).length + 1) with hover | hok
  · rw [hover]
    exact Or.inl rfl
  · rw [hok,← take_class text rest]
    exact push_gives _ _

theorem parseCharClass_gives_negated {text : List UInt8} {ranges : List (UInt8 × UInt8)}
    (h : ClassText true text ranges) (rest : List UInt8) (output : ℕ) :
    Gives (parseCharClass size ⟨94 :: text ++ 93 :: rest,stack,output⟩) rest
      (.characterClassNegated (text ++ [93]) :: stack) := by
  rw [parseCharClass]
  simp only [List.cons_append,charAt_zero,if_true,List.drop_one,List.tail_cons]
  rcases scanCharClass_spelled h rest ((text ++ 93 :: rest).length + 1) with hover | hok
  · rw [hover]
    exact Or.inl rfl
  · rw [hok,← take_class text rest]
    exact push_gives _ _

/-- The top of the stack is quantified by the quantifier behind it. -/
theorem quantifier_turns {q : List UInt8} {nmin : ℕ} {nmax : ℤ} (hq : Quantifies q nmin nmax)
    (hbottom : bottom ≤ stack.length) (rest : List UInt8) :
    Turns size depth bottom (q ++ rest) (quantified :: stack)
      (if charAt rest 0 ≠ 63 then rest else rest.drop 1)
      (.quantifier nmin nmax (decide (charAt rest 0 ≠ 63)) quantified :: stack) := by
  have hlen : ∀ sp output, (Context.mk sp (quantified :: stack) output).stack.length ≠ bottom :=
    fun _ _ => (Nat.lt_succ_of_le hbottom).ne'
  have hquantifier : ∀ ch nmin nmax output,
      Gives (quantifier size bottom ⟨rest,quantified :: stack,output⟩ ch nmin nmax)
        (if charAt rest 0 ≠ 63 then rest else rest.drop 1)
        (.quantifier nmin nmax (decide (charAt rest 0 ≠ 63)) quantified :: stack) := by
    intro ch nmin nmax output
    rw [quantifier,if_neg (hlen _ _)]
    exact quantify_gives _ rfl nmin nmax
  have hinterval : ∀ q', q = 123 :: q' → Turns size depth bottom (123 :: (q' ++ rest)) (quantified :: stack)
      (if charAt rest 0 ≠ 63 then rest else rest.drop 1)
      (.quantifier nmin nmax (decide (charAt rest 0 ≠ 63)) quantified :: stack) := by
    rintro q' rfl
    refine .one (by decide) fun output => ?_
    change Gives (interval size bottom _) _ _
    rw [interval,if_neg (hlen _ _),parseInterval_spelled hq]
    exact quantify_gives _ rfl nmin nmax
  cases hq with
  | optional => exact .one (by decide) (hquantifier 63 0 1)
  | star => exact .one (by decide) (hquantifier 42 0 (-1))
  | plus => exact .one (by decide) (hquantifier 43 1 (-1))
  | exactly | atLeast | between => exact hinterval _ rfl

theorem Quantifies.head {q : List UInt8} {nmin : ℕ} {nmax : ℤ} (h : Quantifies q nmin nmax)
    (rest : List UInt8) : q = [63] ∨ charAt (q ++ rest) 0 ≠ 63 := by
  cases h with
  | optional => exact Or.inl rfl
  | star | plus | exactly | atLeast | between =>
    right
    simp

end tokens

section joins
variable {size : ℕ} {sp : List UInt8} {stack : List Node}

/-- The nodes above the bottom, the last one in front, as one. -/
def joined : List Node → Node
  | [] => .epsilon
  | top :: nodes => nodes.foldl (fun right left => .concatenation left right) top

theorem joined_append {nodes : List Node} (h : nodes ≠ []) (left : Node) :
    joined (nodes ++ [left]) = .concatenation left (joined nodes) := by
  cases nodes with
  | nil => exact absurd rfl h
  | cons top nodes => rw [List.cons_append,joined,List.foldl_append,List.foldl_cons,List.foldl_nil,joined]

theorem joinAll_gives (nodes : List Node) (top : Node) (output : ℕ) :
    Gives (joinAll size nodes.length ⟨sp,top :: nodes ++ stack,output⟩) sp (joined (top :: nodes) :: stack) := by
  induction nodes generalizing top output with
  | nil => exact Or.inr ⟨output,rfl⟩
  | cons next nodes ih =>
    rw [List.length_cons,joinAll]
    have hpush : Gives (push size ⟨sp,nodes ++ stack,output + 1 + 1⟩ (.concatenation next top)) sp
        (.concatenation next top :: (nodes ++ stack)) := push_gives _ _
    exact hpush.bind fun output' => ih (.concatenation next top) output'

theorem concatenate_gives (nodes : List Node) (output : ℕ) :
    Gives (concatenate size ⟨sp,nodes ++ stack,output⟩ stack.length) sp (joined nodes :: stack) := by
  rw [concatenate]
  dsimp only
  rw [List.length_append]
  cases nodes with
  | nil =>
    rw [if_pos (by rw [List.length_nil,Nat.zero_add])]
    exact push_gives _ _
  | cons top nodes =>
    have hcount : (top :: nodes).length + stack.length - 1 - stack.length = nodes.length := by
      rw [List.length_cons]
      omega
    rw [if_neg (by rw [List.length_cons]; omega),hcount]
    exact joinAll_gives nodes top output

theorem alternate_gives (left right : Node) (output : ℕ) :
    Gives (alternate size ⟨sp,right :: left :: stack,output⟩) sp (alternative left right :: stack) := by
  rw [alternate,alternative]
  dsimp only
  split_ifs
  · exact Or.inr ⟨output,rfl⟩
  · exact push_gives _ _
  · exact push_gives _ _
  · exact push_gives _ _

end joins

section grammar
variable {size depth : ℕ}

/-- What comes behind a sequence: the end, a closing parenthesis or another alternative. -/
def Behind (rest : List UInt8) : Prop := rest = [] ∨ ∃ r, rest = 41 :: r ∨ rest = 124 :: r

/-- What closes a pattern at a depth. -/
def Closes (depth : ℕ) (rest rest' : List UInt8) : Prop :=
  (depth = 0 ∧ rest = [] ∧ rest' = []) ∨ (0 < depth ∧ rest = 41 :: rest')

variable (size) in
/-- What the parser does with a text of each level. -/
def Reads : Level → List UInt8 → Node → Prop
  | .item,text,node => (text ≠ [] ∧ text.head? ≠ some 63) ∧ ∀ depth bottom rest (stack : List Node),
      bottom ≤ stack.length → (node.isGreedy = true → charAt rest 0 ≠ 63) →
      Turns size depth bottom (text ++ rest) stack rest (node :: stack)
  | .sequence,text,node => text.head? ≠ some 63 ∧ ∃ nodes, joined nodes = node ∧ (text ≠ [] → nodes ≠ []) ∧
      ∀ depth bottom rest (stack : List Node), bottom ≤ stack.length → Behind rest →
      Turns size depth bottom (text ++ rest) stack rest (nodes ++ stack)
  | .pattern,text,node => ∀ depth rest rest' (stack : List Node), Closes depth rest rest' →
      Ends size depth stack.length (text ++ rest) stack rest' (node :: stack)

theorem Behind.charAt {rest : List UInt8} (h : Behind rest) : charAt rest 0 ≠ 63 := by
  rcases h with rfl | ⟨r,rfl | rfl⟩ <;> simp

theorem Closes.behind {rest rest' : List UInt8} (h : Closes depth rest rest') : Behind rest := by
  rcases h with ⟨-,h,-⟩ | ⟨-,h⟩
  · exact Or.inl h
  · exact Or.inr ⟨rest',Or.inl h⟩

theorem charAt_append_ne {text : List UInt8} (hne : text ≠ []) (h : text.head? ≠ some 63) (rest : List UInt8) :
    charAt (text ++ rest) 0 ≠ 63 := by
  cases text with
  | nil => exact absurd rfl hne
  | cons c text => exact fun heq => h (congrArg some heq)

theorem head_append {text : List UInt8} (hne : text ≠ []) (rest : List UInt8) :
    (text ++ rest).head? = text.head? := by
  cases text with
  | nil => exact absurd rfl hne
  | cons c text => rfl

theorem push_turns {ch : UInt8} {node : Node} {text : List UInt8} (hch : ch ≠ 124 ∧ ch ≠ 40 ∧ ch ≠ 41)
    (h : ∀ bottom sp (stack : List Node) output,
      Gives (parseOne size bottom ch ⟨text ++ sp,stack,output⟩) sp (node :: stack))
    (hne : ch ≠ 63) : Reads size .item (ch :: text) node :=
  ⟨⟨List.cons_ne_nil _ _,fun heq => hne (Option.some.inj heq)⟩,fun _ bottom rest stack _ _ =>
    .one hch (h bottom rest stack)⟩

theorem reads_capture {text : List UInt8} {captured : Node} (h : Reads size .pattern text captured) :
    Reads size .item (40 :: text ++ [41]) (.capture captured) := by
  refine ⟨⟨List.cons_ne_nil _ _,by simp⟩,fun depth bottom rest stack _ _ fuel output => ?_⟩
  cases fuel with
  | zero => exact Or.inl rfl
  | succ fuel =>
    have hinner := h (depth + 1) (41 :: rest) rest stack (Or.inr ⟨Nat.succ_pos depth,rfl⟩) fuel output
    have hshape : 40 :: text ++ [41] ++ rest = 40 :: (text ++ 41 :: rest) := by simp
    rw [hshape,parseContext]
    dsimp only
    rw [if_neg (by decide),if_pos rfl]
    rcases hinner with hover | ⟨output',hok⟩
    · rw [hover]
      exact Or.inl rfl
    rw [hok]
    change (push size ⟨rest,stack,output' + 1⟩ (.capture captured) >>= parseContext size fuel depth bottom) =
      _ ∨ ∃ _ _, (push size ⟨rest,stack,output' + 1⟩ (.capture captured) >>=
        parseContext size fuel depth bottom) = _
    have hpush : Gives (push size ⟨rest,stack,output' + 1⟩ (.capture captured)) rest (.capture captured :: stack) :=
      push_gives _ _
    rcases hpush with hover | ⟨output'',hok'⟩
    · rw [hover]
      exact Or.inl rfl
    · rw [hok']
      exact Or.inr ⟨fuel,output'',rfl⟩

theorem reads_quantified {text q : List UInt8} {quantified : Node} {nmin : ℕ} {nmax : ℤ} (greedy : Bool)
    (h : Reads size .item text quantified) (hq : Quantifies q nmin nmax)
    (hlazy : quantified.isGreedy = true → q ≠ [63]) :
    Reads size .item (text ++ q ++ if greedy then [] else [63]) (.quantifier nmin nmax greedy quantified) := by
  obtain ⟨⟨hne,hhead⟩,hturns⟩ := h
  refine ⟨⟨by simp [hne],?_⟩,fun depth bottom rest stack hbottom hgreedy => ?_⟩
  · rw [List.append_assoc,head_append hne]
    exact hhead
  have hitem := hturns depth bottom (q ++ ((if greedy then [] else [63]) ++ rest)) stack hbottom
    fun h => (hq.head _).resolve_left (hlazy h)
  have hall := hitem.trans (quantifier_turns hq hbottom ((if greedy then [] else [63]) ++ rest))
  rw [List.append_assoc,List.append_assoc]
  cases greedy with
  | true =>
    have hbehind := hgreedy rfl
    simpa [hbehind] using hall
  | false => simpa using hall

theorem reads_alternative {text more : List UInt8} {left right : Node} (hleft : Reads size .sequence text left)
    (hright : Reads size .pattern more right) :
    Reads size .pattern (text ++ 124 :: more) (alternative left right) := by
  intro depth rest rest' stack hcloses
  obtain ⟨-,nodes,rfl,-,hturns⟩ := hleft
  rw [List.append_assoc,List.cons_append]
  refine (hturns depth stack.length (124 :: (more ++ rest)) stack le_rfl (Or.inr ⟨_,Or.inr rfl⟩)).ends ?_
  intro fuel output
  cases fuel with
  | zero => exact Or.inl rfl
  | succ fuel =>
    rw [parseContext]
    dsimp only
    rw [if_pos rfl]
    refine (concatenate_gives nodes output).bind fun output' => ?_
    refine (hright depth rest rest' (joined nodes :: stack) hcloses fuel output').bind fun output'' => ?_
    exact alternate_gives _ _ output''

/-- Whatever is spelled is read. -/
theorem Spells.reads {level : Level} {text : List UInt8} {node : Node} (h : Spells level text node) :
    Reads size level text node := by
  induction h with
  | @character ch hascii hplain =>
    have hch : ∀ c ∈ specials, ch ≠ c := fun c hc heq => hplain (heq ▸ hc)
    simp only [specials,List.forall_mem_cons] at hch
    obtain ⟨h92,h46,h91,h63,h42,h43,h123,h94,h36,h124,h40,h41,-⟩ := hch
    refine push_turns ⟨h124,h40,h41⟩ (fun bottom sp stack output => ?_) h63
    rw [parseOne,if_neg h92,if_neg h46,if_neg h91,if_neg h63,if_neg h42,if_neg h43,if_neg h123,if_neg h94,
      if_neg h36]
    exact push_gives _ _
  | escaped hascii => exact push_turns (by decide) (fun bottom sp stack output => push_gives _ _) (by decide)
  | anyCharacter => exact push_turns (by decide) (fun bottom sp stack output => push_gives _ _) (by decide)
  | @characterClass text ranges htext hfirst =>
    refine push_turns (by decide) (fun bottom sp stack output => ?_) (by decide)
    change Gives (parseCharClass size ⟨text ++ [93] ++ sp,stack,output⟩) _ _
    rw [List.append_assoc]
    exact parseCharClass_gives htext hfirst sp output
  | @characterClassNegated text ranges htext =>
    refine push_turns (by decide) (fun bottom sp stack output => ?_) (by decide)
    change Gives (parseCharClass size ⟨94 :: text ++ [93] ++ sp,stack,output⟩) _ _
    rw [List.append_assoc]
    exact parseCharClass_gives_negated htext sp output
  | anchorBegin => exact push_turns (by decide) (fun bottom sp stack output => push_gives _ _) (by decide)
  | anchorEnd => exact push_turns (by decide) (fun bottom sp stack output => push_gives _ _) (by decide)
  | capture _ ih => exact reads_capture ih
  | greedy _ hq hlazy ih => simpa using reads_quantified true ih hq hlazy
  | lazy _ hq hlazy ih => simpa using reads_quantified false ih hq hlazy
  | empty => exact ⟨by simp,[],rfl,fun h => absurd rfl h,fun _ _ _ _ _ _ => .refl⟩
  | @single text node _ ih =>
    obtain ⟨⟨hne,hhead⟩,hturns⟩ := ih
    exact ⟨hhead,[node],rfl,fun _ => List.cons_ne_nil _ _,fun depth bottom rest stack hbottom hrest =>
      hturns depth bottom rest stack hbottom fun _ => hrest.charAt⟩
  | @concatenation text more left right _ _ hne ihl ihr =>
    obtain ⟨⟨hne',hhead⟩,hturns⟩ := ihl
    obtain ⟨hhead',nodes,rfl,hnodes,hturns'⟩ := ihr
    refine ⟨by rwa [head_append hne'],nodes ++ [left],joined_append (hnodes hne) left,fun _ => by simp,
      fun depth bottom rest stack hbottom hrest => ?_⟩
    rw [List.append_assoc,List.append_assoc]
    refine (hturns depth bottom (more ++ rest) stack hbottom fun _ => charAt_append_ne hne hhead' rest).trans ?_
    exact hturns' depth bottom rest (left :: stack) (hbottom.trans (Nat.le_succ _)) hrest
  | sequence _ ih =>
    obtain ⟨-,nodes,rfl,-,hturns⟩ := ih
    intro depth rest rest' stack hcloses
    refine (hturns depth stack.length rest stack le_rfl hcloses.behind).ends ?_
    intro fuel output
    cases fuel with
    | zero => exact Or.inl rfl
    | succ fuel =>
      rcases hcloses with ⟨rfl,rfl,rfl⟩ | ⟨hdepth,rfl⟩
      · exact concatenate_gives nodes output
      · rw [parseContext]
        dsimp only
        rw [if_neg (by decide),if_neg (by decide),if_pos rfl,if_pos hdepth]
        exact concatenate_gives nodes output
  | alternative _ _ ihl ihr => exact reads_alternative ihl ihr

end grammar

end SecureWipeOut.Regex
