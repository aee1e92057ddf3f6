import Mathlib.Tactic

/-! # JSON texts

The parser of RFC 8259 over a list of characters. Of members with one name the last one
counts. The fuel bounds the number of calls, each of which takes a character away.
-/
namespace SecureWipeOut.Json

inductive Value
  | null
  | bool (b : Bool)
  | number (text : List Char)
  | string (s : List Char)
  | array (values : List Value)
  | object (members : List (List Char × Value))

def isBlank (c : Char) : Bool := c == ' ' || c == '\t' || c == '\n' || c == '\r'

def skip (t : List Char) : List Char := t.dropWhile isBlank

section Strings

/-- A character of a string, or a unit of 16 bits given by its number. -/
abbrev Piece := Char ⊕ ℕ

def escapeOf : Char → Option Char
  | '"' => some '"'
  | '\\' => some '\\'
  | '/' => some '/'
  | 'b' => some (Char.ofNat 8)
  | 'f' => some (Char.ofNat 12)
  | 'n' => some '\n'
  | 'r' => some '\r'
  | 't' => some '\t'
  | _ => none

def hexValue (c : Char) : Option ℕ :=
  if '0' ≤ c ∧ c ≤ '9' then some (c.toNat - '0'.toNat)
  else if 'a' ≤ c ∧ c ≤ 'f' then some (c.toNat - 'a'.toNat + 10)
  else if 'A' ≤ c ∧ c ≤ 'F' then some (c.toNat - 'A'.toNat + 10)
  else none

def hexUnit (a b c d : Char) : Option ℕ :=
  (hexValue a).bind fun a => (hexValue b).bind fun b => (hexValue c).bind fun c =>
    (hexValue d).map fun d => ((a * 16 + b) * 16 + c) * 16 + d

/-- The pieces of a string up to its closing quotation mark, and what follows it. -/
def pieces : List Char → Option (List Piece × List Char)
  | [] => none
  | '"' :: t => some ([],t)
  | '\\' :: 'u' :: h₁ :: h₂ :: h₃ :: h₄ :: t =>
    (hexUnit h₁ h₂ h₃ h₄).bind fun n => (pieces t).map fun r => (.inr n :: r.1,r.2)
  | '\\' :: e :: t => (escapeOf e).bind fun x => (pieces t).map fun r => (.inl x :: r.1,r.2)
  | c :: t =>
    if c = '\\' ∨ c.toNat < 32 then none else (pieces t).map fun r => (.inl c :: r.1,r.2)

/-- The character of a single unit; half of a pair stands for none. -/
def unitChar (n : ℕ) : Char := if 0xD800 ≤ n ∧ n < 0xE000 then Char.ofNat 0xFFFD else Char.ofNat n

/-- Two units may form one character. -/
def join : List Piece → List Char
  | [] => []
  | .inl c :: ps => c :: join ps
  | .inr n :: .inr m :: ps =>
    if (0xD800 ≤ n ∧ n < 0xDC00) ∧ 0xDC00 ≤ m ∧ m < 0xE000 then
      Char.ofNat (0x10000 + (n - 0xD800) * 0x400 + (m - 0xDC00)) :: join ps
    else unitChar n :: join (.inr m :: ps)
  | .inr n :: ps => unitChar n :: join ps

/-- A string behind its opening quotation mark. -/
def stringBody (t : List Char) : Option (List Char × List Char) :=
  (pieces t).map fun r => (join r.1,r.2)

end Strings

section Numbers

def digitRun (t : List Char) : List Char × List Char := (t.takeWhile Char.isDigit,t.dropWhile Char.isDigit)

def sign : List Char → List Char × List Char
  | '-' :: t => (['-'],t)
  | t => ([],t)

def integer : List Char → Option (List Char × List Char)
  | '0' :: t => some (['0'],t)
  | t => if (digitRun t).1 = [] then none else some (digitRun t)

def fraction : List Char → Option (List Char × List Char)
  | '.' :: t => if (digitRun t).1 = [] then none else some ('.' :: (digitRun t).1,(digitRun t).2)
  | t => some ([],t)

def anySign : List Char → List Char × List Char
  | '+' :: t => (['+'],t)
  | t => sign t

def exponent : List Char → Option (List Char × List Char)
  | c :: t =>
    if c = 'e' ∨ c = 'E' then
      if (digitRun (anySign t).2).1 = [] then none
      else some (c :: (anySign t).1 ++ (digitRun (anySign t).2).1,(digitRun (anySign t).2).2)
    else some ([],c :: t)
  | [] => some ([],[])

def number (t : List Char) : Option (List Char × List Char) :=
  (integer (sign t).2).bind fun i => (fraction i.2).bind fun f => (exponent f.2).map fun e =>
    ((sign t).1 ++ i.1 ++ f.1 ++ e.1,e.2)

end Numbers

section Values

/-- A member replaces one of the same name. -/
def insertMember (ms : List (List Char × Value)) (m : List Char × Value) : List (List Char × Value) :=
  if ms.any (fun x => x.1 == m.1) then ms.map fun x => if x.1 == m.1 then m else x
  else ms ++ [m]

def collapse (ms : List (List Char × Value)) : List (List Char × Value) := ms.foldl insertMember []

def literal (name : List Char) (v : Value) (t : List Char) : Option (Value × List Char) :=
  if name.isPrefixOf t then some (v,t.drop name.length) else none

/-- The values that begin with neither a bracket nor a quotation mark. -/
def scalar (t : List Char) : Option (Value × List Char) :=
  (literal "null".toList .null t).or <| (literal "true".toList (.bool true) t).or <|
    (literal "false".toList (.bool false) t).or <| (number t).map fun r => (.number r.1,r.2)

mutual

def parseValue : ℕ → List Char → Option (Value × List Char)
  | 0, _ => none
  | fuel + 1, t =>
    match skip t with
    | '{' :: t =>
      match skip t with
      | '}' :: t => some (.object [],t)
      | t => (parseMembers fuel t).map fun r => (.object (collapse r.1),r.2)
    | '[' :: t =>
      match skip t with
      | ']' :: t => some (.array [],t)
      | t => (parseElements fuel t).map fun r => (.array r.1,r.2)
    | '"' :: t => (stringBody t).map fun r => (.string r.1,r.2)
    | t => scalar t

def parseMembers : ℕ → List Char → Option (List (List Char × Value) × List Char)
  | 0, _ => none
  | fuel + 1, t =>
    match skip t with
    | '"' :: t => (stringBody t).bind fun k =>
      match skip k.2 with
      | ':' :: t => (parseValue fuel t).bind fun v =>
        match skip v.2 with
        | ',' :: t => (parseMembers fuel t).map fun r => ((k.1,v.1) :: r.1,r.2)
        | '}' :: t => some ([(k.1,v.1)],t)
        | _ => none
      | _ => none
    | _ => none

def parseElements : ℕ → List Char → Option (List Value × List Char)
  | 0, _ => none
  | fuel + 1, t => (parseValue fuel t).bind fun v =>
    match skip v.2 with
    | ',' :: t => (parseElements fuel t).map fun r => (v.1 :: r.1,r.2)
    | ']' :: t => some ([v.1],t)
    | _ => none

end

def parseJson (t : List Char) : Option Value :=
  (parseValue (t.length + 1) t).bind fun r => if skip r.2 = [] then some r.1 else none

end Values

end SecureWipeOut.Json
