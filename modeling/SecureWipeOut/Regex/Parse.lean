import SecureWipeOut.Regex.Compile

/-! # The parser of regular expressions

The nodes of a pattern are built in one buffer, with the stack at its front and the output,
which only grows, at its back. The parser looks at the pattern one character at a time.
-/
namespace SecureWipeOut.Regex

/-- The rest of the pattern, the stack with its top in front, and how many nodes are in the output. -/
structure Context where
  sp : List UInt8
  stack : List Node
  output : ℕ

/-- A pattern is rejected, a node is written where there is no room for it, or the pattern is
read behind its end. Out of fuel counts as the second. -/
inductive Failure where
  | rejected
  | overrun
  | overread
deriving DecidableEq

section buffer
variable (size : ℕ)

def push (context : Context) (node : Node) : Except Failure Context :=
  if context.stack.length + context.output < size then .ok { context with stack := node :: context.stack }
  else .error .overrun

def drop (context : Context) : Context := { context with stack := context.stack.tail }

/-- The top of the stack goes to the output. -/
def consume (context : Context) : Except Failure (Node × Context) :=
  match context.stack with
  | [] => .error .overrun
  | node :: stack => .ok (node,{ context with stack := stack, output := context.output + 1 })

/-- The nodes on the top of the stack, joined from the right. -/
def joinAll : ℕ → Context → Except Failure Context
  | 0,context => .ok context
  | n + 1,context => do
    let (right,context) ← consume context
    let (left,context) ← consume context
    let context ← push size context (.concatenation left right)
    joinAll n context

def concatenate (context : Context) (bottom : ℕ) : Except Failure Context :=
  if context.stack.length = bottom then push size context .epsilon
  else joinAll size (context.stack.length - 1 - bottom) context

end buffer

section classes

/-- From a character of the class on to what is behind the end of the class. -/
def scanCharClass : ℕ → Bool → List UInt8 → Except Failure (List UInt8)
  | 0,_,_ => .error .overrun
  | _ + 1,_,[] => .error .rejected
  | fuel + 1,first,c :: sp =>
    if c = 93 && !first then .ok sp
    else if c = 92 && sp = [] then .error .overread
    else
      let ch := if c = 92 then charAt sp 0 else c
      let sp := if c = 92 then sp.drop 1 else sp
      if charAt sp 0 = 45 && charAt sp 1 != 93 then
        if charAt sp 1 < ch then .error .rejected else scanCharClass fuel false (sp.drop 2)
      else scanCharClass fuel false sp

def parseCharClass (size : ℕ) (context : Context) : Except Failure Context := do
  let negated := charAt context.sp 0 = 94
  let start := if negated then context.sp.drop 1 else context.sp
  let sp ← scanCharClass (start.length + 1) true start
  let klass := start.take (start.length - sp.length)
  push size { context with sp := sp }
    (if negated then .characterClassNegated klass else .characterClass klass)

end classes

section quantifiers

def isDigit (c : UInt8) : Bool := 48 ≤ c && c ≤ 57

def decimal (digits : List UInt8) : ℕ := digits.foldl (fun n c => n * 10 + (c.toNat - 48)) 0

/-- The bounds behind an opening brace, with what follows the closing one. -/
def parseInterval (start : List UInt8) : Option (ℕ × ℤ × List UInt8) :=
  let nmin := decimal (start.takeWhile isDigit)
  let sp := start.dropWhile isDigit
  if charAt sp 0 = 44 then
    let sp := sp.drop 1
    if charAt start 0 ≠ 44 ∧ charAt sp 0 = 125 then some (nmin,-1,sp.drop 1)
    else
      let digits := sp.takeWhile isDigit
      let sp := sp.dropWhile isDigit
      if digits = [] ∨ charAt sp 0 ≠ 125 ∨ decimal digits < nmin then none
      else some (nmin,decimal digits,sp.drop 1)
  else if charAt start 0 ≠ 125 ∧ charAt sp 0 = 125 then some (nmin,nmin,sp.drop 1)
  else none

/-- The top of the stack is quantified; a question mark behind makes that not greedy. -/
def quantify (size : ℕ) (context : Context) (nmin : ℕ) (nmax : ℤ) : Except Failure Context := do
  let greedy := charAt context.sp 0 ≠ 63
  let context := { context with sp := if greedy then context.sp else context.sp.drop 1 }
  let (quantified,context) ← consume context
  push size context (.quantifier nmin nmax greedy quantified)

/-- A quantifier with nothing in front of it stands for itself. -/
def quantifier (size bottom : ℕ) (context : Context) (ch : UInt8) (nmin : ℕ) (nmax : ℤ) :
    Except Failure Context :=
  if context.stack.length = bottom then push size context (.character ch)
  else quantify size context nmin nmax

def interval (size bottom : ℕ) (context : Context) : Except Failure Context :=
  if context.stack.length = bottom then push size context (.character 123)
  else
    match parseInterval context.sp with
    | none => push size context (.character 123)
    | some (nmin,nmax,sp) => quantify size { context with sp := sp } nmin nmax

end quantifiers

section patterns
variable (size : ℕ)

def Node.isEpsilon : Node → Bool
  | .epsilon => true
  | _ => false

/-- The two alternatives on the top of the stack; one that is empty makes the other one optional. -/
def alternate (context : Context) : Except Failure Context :=
  match context.stack with
  | right :: left :: _ =>
    if left.isEpsilon && right.isEpsilon then .ok (drop context)
    else if left.isEpsilon then do
      let (right,context) ← consume context
      push size (drop context) (.quantifier 0 1 true right)
    else if right.isEpsilon then do
      let (left,context) ← consume (drop context)
      push size context (.quantifier 0 1 true left)
    else do
      let (right,context) ← consume context
      let (left,context) ← consume context
      push size context (.alternation left right)
  | _ => .error .overrun

/-- A character with what belongs to it, where that is not a group or an alternative. -/
def parseOne (bottom : ℕ) (ch : UInt8) (context : Context) : Except Failure Context :=
  if ch = 92 then
    match context.sp with
    | [] => .error .overread
    | ch :: sp => push size { context with sp := sp } (.character ch)
  else if ch = 46 then push size context .anyCharacter
  else if ch = 91 then parseCharClass size context
  else if ch = 63 then quantifier size bottom context ch 0 1
  else if ch = 42 then quantifier size bottom context ch 0 (-1)
  else if ch = 43 then quantifier size bottom context ch 1 (-1)
  else if ch = 123 then interval size bottom context
  else if ch = 94 then push size context .anchorBegin
  else if ch = 36 then push size context .anchorEnd
  else push size context (.character ch)

/-- The pattern up to its end or to the end of the group, which leave one node above the bottom. -/
def parseContext : ℕ → ℕ → ℕ → Context → Except Failure Context
  | 0,_,_,_ => .error .overrun
  | fuel + 1,depth,bottom,context =>
    match context.sp with
    | [] => if depth = 0 then concatenate size context bottom else .error .rejected
    | ch :: sp =>
      let context := { context with sp := sp }
      if ch = 124 then do
        let context ← concatenate size context bottom
        let context ← parseContext fuel depth context.stack.length context
        alternate size context
      else if ch = 40 then do
        let context ← parseContext fuel (depth + 1) context.stack.length context
        let (captured,context) ← consume context
        let context ← push size context (.capture captured)
        parseContext fuel depth bottom context
      else if ch = 41 then if 0 < depth then concatenate size context bottom else .error .rejected
      else do
        let context ← parseOne size bottom ch context
        parseContext fuel depth bottom context

end patterns

def estimateNodes (pattern : List UInt8) : ℕ := pattern.length * 2

/-- The root is the first node of the buffer. -/
def cregexParse (pattern : List UInt8) : Except Failure Node := do
  let context ← parseContext (estimateNodes pattern) (pattern.length + 1) 0 0 ⟨pattern,[],0⟩
  match context.stack.getLast? with
  | none => .error .overrun
  | some root => .ok root

end SecureWipeOut.Regex
