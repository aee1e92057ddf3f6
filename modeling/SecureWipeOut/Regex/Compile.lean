import SecureWipeOut.Lib.CodeBlock

/-! # Regular expressions and their programs

The syntax trees of the regular expressions with which labels and the output of commands are
searched, the stretches of a text that each of them matches, and the instructions that they are
compiled to. The targets of splits and jumps are given as indices of instructions.
-/
namespace SecureWipeOut.Regex
open Relation CodeBlock

/-- A string with its terminator. Behind that there may be anything. -/
structure Text where
  bytes : ℕ → UInt8
  length : ℕ
  nul : bytes length = 0
  inside : ∀ i < length, bytes i ≠ 0 ∧ bytes i < 128

/-- A set of characters, one bit for each. -/
abbrev CharClass := Vector UInt8 32

/-- The byte of a class that a character has its bit in. -/
def charCell (ch : UInt8) : Fin 32 := ⟨ch.toNat / 8,by
  have := ch.toNat_lt
  omega⟩

def CharClass.contains (klass : CharClass) (ch : UInt8) : Bool :=
  klass.get (charCell ch) &&& (1 <<< (ch % 8)) != 0

def CharClass.add (klass : CharClass) (ch : UInt8) : CharClass :=
  klass.set (charCell ch) (klass.get (charCell ch) ||| (1 <<< (ch % 8))) (charCell ch).isLt

/-- Up to the second character in a row, that one included. -/
def CharClass.addRange : ℕ → CharClass → UInt8 → UInt8 → CharClass
  | 0,klass,_,_ => klass
  | fuel + 1,klass,ch,last => if ch ≤ last then addRange fuel (klass.add ch) (ch + 1) last else klass

/-- A character of a pattern, or the terminator behind it. -/
def charAt (sp : List UInt8) (k : ℕ) : UInt8 := sp.getD k 0

@[simp] theorem charAt_nil (k : ℕ) : charAt [] k = 0 := rfl

@[simp] theorem charAt_zero (c : UInt8) (sp : List UInt8) : charAt (c :: sp) 0 = c := rfl

@[simp] theorem charAt_one (c : UInt8) (sp : List UInt8) : charAt (c :: sp) 1 = charAt sp 0 := rfl

/-- The pattern from the first character of the class on; true while that is the next one. -/
def compileCharClass : ℕ → Bool → List UInt8 → CharClass → CharClass
  | 0,_,_,klass => klass
  | _ + 1,_,[],klass => klass
  | fuel + 1,first,c :: sp,klass =>
    if c = 93 && !first then klass
    else
      let ch := if c = 92 then charAt sp 0 else c
      let sp := if c = 92 then sp.drop 1 else sp
      if charAt sp 0 = 45 && charAt sp 1 != 93 then
        compileCharClass fuel false (sp.drop 2) (klass.addRange 256 ch (charAt sp 1))
      else compileCharClass fuel false sp (klass.add ch)

/-- The class that begins at this place of a pattern. -/
def charClass (start : List UInt8) : CharClass :=
  compileCharClass start.length true start (Vector.replicate 32 0)

inductive Node where
  | epsilon
  | character (ch : UInt8)
  | anyCharacter
  | characterClass (start : List UInt8)
  | characterClassNegated (start : List UInt8)
  | concatenation (left right : Node)
  | alternation (left right : Node)
  | quantifier (nmin : ℕ) (nmax : ℤ) (greedy : Bool) (quantified : Node)
  | anchorBegin
  | anchorEnd
  | capture (captured : Node)

/-- Every upper bound is none, or no less than the lower one. -/
def Node.Valid : Node → Prop
  | .concatenation left right => left.Valid ∧ right.Valid
  | .alternation left right => left.Valid ∧ right.Valid
  | .quantifier nmin nmax _ quantified => (nmax = -1 ∨ (nmin : ℤ) ≤ nmax) ∧ quantified.Valid
  | .capture captured => captured.Valid
  | _ => True

/-- The number of captures after those of a node. -/
def Node.ncaptures : Node → ℕ → ℕ
  | .concatenation left right,n => right.ncaptures (left.ncaptures n)
  | .alternation left right,n => right.ncaptures (left.ncaptures n)
  | .quantifier nmin nmax _ quantified,n =>
    if 0 < nmin ∨ (nmin : ℤ) < nmax ∨ nmax = -1 then quantified.ncaptures n else n
  | .capture captured,n => captured.ncaptures (n + 1)
  | _,n => n

/-- The offsets saved, where there are any. -/
abbrev Matches := ℕ → Option ℕ

/-- An offset in the text and what is saved so far. -/
abbrev Data := ℕ × Matches

def vmMaxMatches : ℕ := 64

def Matches.save (nmatches : ℕ) (m : Matches) (k sp : ℕ) : Matches :=
  if k < nmatches ∧ k < vmMaxMatches then Function.update m k (some sp) else m

/-- The next character is there and passes the test. -/
def Consumes (t : Text) (test : UInt8 → Bool) (x y : Data) : Prop :=
  x.1 < t.length ∧ test (t.bytes x.1) = true ∧ y = (x.1 + 1,x.2)

def Allowed (nmin : ℕ) (nmax : ℤ) (k : ℕ) : Prop := nmin ≤ k ∧ (nmax = -1 ∨ (k : ℤ) ≤ nmax)

/-- What a node matches from one offset to another, the given number of captures being in front. -/
def Node.Runs (t : Text) (nmatches : ℕ) : Node → ℕ → Data → Data → Prop
  | .epsilon,_ => Eq
  | .character ch,_ => Consumes t (· == ch)
  | .anyCharacter,_ => Consumes t fun _ => true
  | .characterClass start,_ => Consumes t (charClass start).contains
  | .characterClassNegated start,_ => Consumes t fun c => !(charClass start).contains c
  | .concatenation left right,n =>
    Comp (left.Runs t nmatches n) (right.Runs t nmatches (left.ncaptures n))
  | .alternation left right,n => fun x y =>
    left.Runs t nmatches n x y ∨ right.Runs t nmatches (left.ncaptures n) x y
  | .quantifier nmin nmax _ quantified,n => fun x y =>
    ∃ k, Allowed nmin nmax k ∧ iter (quantified.Runs t nmatches n) k x y
  | .anchorBegin,_ => fun x y => x.1 = 0 ∧ x = y
  | .anchorEnd,_ => fun x y => x.1 = t.length ∧ x = y
  | .capture captured,n => fun x y =>
    ∃ z, captured.Runs t nmatches (n + 1) (x.1,x.2.save nmatches (2 * n) x.1) z ∧
      y = (z.1,z.2.save nmatches (2 * n + 1) z.1)

/-- The stretches that a node matches, without the captures. -/
def Node.Spans (t : Text) : Node → ℕ → ℕ → Prop
  | .epsilon => Eq
  | .character ch => fun i j => i < t.length ∧ t.bytes i = ch ∧ j = i + 1
  | .anyCharacter => fun i j => i < t.length ∧ j = i + 1
  | .characterClass start => fun i j =>
    i < t.length ∧ (charClass start).contains (t.bytes i) = true ∧ j = i + 1
  | .characterClassNegated start => fun i j =>
    i < t.length ∧ (charClass start).contains (t.bytes i) = false ∧ j = i + 1
  | .concatenation left right => Comp (left.Spans t) (right.Spans t)
  | .alternation left right => fun i j => left.Spans t i j ∨ right.Spans t i j
  | .quantifier nmin nmax _ quantified => fun i j =>
    ∃ k, Allowed nmin nmax k ∧ iter (quantified.Spans t) k i j
  | .anchorBegin => fun i j => i = 0 ∧ i = j
  | .anchorEnd => fun i j => i = t.length ∧ i = j
  | .capture captured => captured.Spans t

inductive Instr where
  | matched
  | character (ch : UInt8)
  | anyCharacter
  | characterClass (klass : CharClass)
  | characterClassNegated (klass : CharClass)
  | split (first second : ℕ)
  | jump (target : ℕ)
  | assertBegin
  | assertEnd
  | save (k : ℕ)

abbrev Program := List Instr

def Node.countInstructions : Node → ℕ
  | .epsilon => 0
  | .character _ => 1
  | .anyCharacter => 1
  | .characterClass _ => 1
  | .characterClassNegated _ => 1
  | .concatenation left right => left.countInstructions + right.countInstructions
  | .alternation left right => 2 + left.countInstructions + right.countInstructions
  | .quantifier nmin nmax _ quantified =>
    let num := quantified.countInstructions
    if (nmin : ℤ) ≤ nmax then nmin * num + (nmax - nmin).toNat * (num + 1)
    else 1 + if nmin ≠ 0 then nmin * num else num + 1
  | .anchorBegin => 1
  | .anchorEnd => 1
  | .capture captured => 2 + captured.countInstructions

def Node.isAnchored : Node → Bool
  | .concatenation left _ => left.isAnchored
  | .alternation left right => left.isAnchored && right.isAnchored
  | .quantifier _ _ _ quantified => quantified.isAnchored
  | .anchorBegin => true
  | .capture captured => captured.isAnchored
  | _ => false

/-- Code compiled a number of times in a row. -/
def copies (code : ℕ → Program) : ℕ → ℕ → Program
  | 0,_ => []
  | n + 1,pc => code pc ++ copies code n (pc + (code pc).length)

def splitTo (greedy : Bool) (first second : ℕ) : Instr :=
  if greedy then .split first second else .split second first

/-- Code that may be left out. -/
def optional (greedy : Bool) (code : ℕ → Program) (pc : ℕ) : Program :=
  splitTo greedy (pc + 1) (pc + 1 + (code (pc + 1)).length) :: code (pc + 1)

/-- The instructions of a node from pc on, with the given number of captures in front. -/
def compileContext : Node → ℕ → ℕ → Program
  | .epsilon,_,_ => []
  | .character ch,_,_ => [.character ch]
  | .anyCharacter,_,_ => [.anyCharacter]
  | .characterClass start,_,_ => [.characterClass (charClass start)]
  | .characterClassNegated start,_,_ => [.characterClassNegated (charClass start)]
  | .concatenation left right,ncaptures,pc =>
    let l := compileContext left ncaptures pc
    l ++ compileContext right (left.ncaptures ncaptures) (pc + l.length)
  | .alternation left right,ncaptures,pc =>
    let l := compileContext left ncaptures (pc + 1)
    let second := pc + 1 + l.length + 1
    let r := compileContext right (left.ncaptures ncaptures) second
    .split (pc + 1) second :: l ++ .jump (second + r.length) :: r
  | .quantifier nmin nmax greedy quantified,ncaptures,pc =>
    let code := compileContext quantified ncaptures
    let least := copies code nmin pc
    let split := pc + least.length
    if (nmin : ℤ) < nmax then least ++ copies (optional greedy code) (nmax - nmin).toNat split
    else if nmax = -1 then
      if nmin = 0 then
        let body := code (split + 1)
        splitTo greedy (split + 1) (split + 1 + body.length + 1) :: body ++ [.jump split]
      else
        let last := pc + (copies code (nmin - 1) pc).length
        least ++ [splitTo greedy last (split + 1)]
    else least
  | .anchorBegin,_,_ => [.assertBegin]
  | .anchorEnd,_,_ => [.assertEnd]
  | .capture captured,ncaptures,pc =>
    .save (2 * ncaptures) :: compileContext captured (ncaptures + 1) (pc + 1) ++
      [.save (2 * ncaptures + 1)]

/-- The whole match is the first capture, and may begin anywhere unless the pattern is anchored. -/
def Node.searched (root : Node) : Node :=
  if root.isAnchored then .capture root
  else .concatenation (.quantifier 0 (-1) false .anyCharacter) (.capture root)

def compileNode (root : Node) : Program := compileContext root.searched 0 0 ++ [.matched]

def estimateInstructions (root : Node) : ℕ :=
  root.countInstructions + (if root.isAnchored then 0 else 3) + 2 + 1

section Semantics
variable (t : Text) (nmatches : ℕ)

/-- Where an instruction at pc goes on. -/
def Instr.Goes : Instr → ℕ → Data → ℕ × Data → Prop
  | .matched,_,_,_ => False
  | .character ch,pc,x,s => ∃ y, Consumes t (· == ch) x y ∧ s = (pc + 1,y)
  | .anyCharacter,pc,x,s => ∃ y, Consumes t (fun _ => true) x y ∧ s = (pc + 1,y)
  | .characterClass klass,pc,x,s => ∃ y, Consumes t klass.contains x y ∧ s = (pc + 1,y)
  | .characterClassNegated klass,pc,x,s =>
    ∃ y, Consumes t (fun c => !klass.contains c) x y ∧ s = (pc + 1,y)
  | .split first second,_,x,s => s = (first,x) ∨ s = (second,x)
  | .jump target,_,x,s => s = (target,x)
  | .assertBegin,pc,x,s => ∃ y, (x.1 = 0 ∧ x = y) ∧ s = (pc + 1,y)
  | .assertEnd,pc,x,s => ∃ y, (x.1 = t.length ∧ x = y) ∧ s = (pc + 1,y)
  | .save k,pc,x,s => s = (pc + 1,(x.1,x.2.save nmatches k x.1))

def Step (p : Program) (s s' : ℕ × Data) : Prop :=
  ∃ instr, p[s.1]? = some instr ∧ instr.Goes t nmatches s.1 s.2 s'

def Final (p : Program) (s : ℕ × Data) : Prop := p[s.1]? = some .matched

end Semantics

/-- Where an instruction at pc goes on, whether it is followed or takes a character. -/
def Instr.targets : Instr → ℕ → List ℕ
  | .matched,_ => []
  | .split first second,_ => [first,second]
  | .jump target,_ => [target]
  | _,pc => [pc + 1]

/-- No instruction goes on outside of the program. -/
def Program.Closed (p : Program) : Prop :=
  0 < p.length ∧ ∀ pc (instr : Instr), p[pc]? = some instr → ∀ target ∈ instr.targets pc, target < p.length

end SecureWipeOut.Regex
