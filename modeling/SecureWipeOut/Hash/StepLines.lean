import SecureWipeOut.Hash.Transform
import SecureWipeOut.Lib.Loop

/-! # The step macros line by line

The transforms name their local variables in a different order in every line, and change
them in place. Here each line is written with the names it has in the source. The names
go around in a circle, so that the lines are the shifts of a tuple in `Hash.Transform`.
-/
namespace SecureWipeOut.Hash

local instance slotIndex : NeZero 16 := ⟨by decide⟩

inductive Reg where
  | a
  | b
  | c
  | d
  | e
  | f
  | g
  | h
  deriving DecidableEq

section sha1

inductive Sha1Function where
  | f1
  | f2
  | f3
  | f4

def Sha1Function.eval : Sha1Function → UInt32 → UInt32 → UInt32 → UInt32
  | .f1, x, y, z => ch x y z
  | .f2, x, y, z => x ^^^ y ^^^ z
  | .f3, x, y, z => ma x y z
  | .f4, x, y, z => x ^^^ y ^^^ z

def k1 : UInt32 := 0x5a827999
def k2 : UInt32 := 0x6ed9eba1
def k3 : UInt32 := 0x8f1bbcdc
def k4 : UInt32 := 0xca62c1d6

/-- A word of the schedule, or the macro M. -/
inductive Sha1Word where
  | x (i : Fin 16)
  | m (i : ℕ)

structure Sha1Line where
  a : Reg
  b : Reg
  c : Reg
  d : Reg
  e : Reg
  f : Sha1Function
  k : UInt32
  m : Sha1Word

/-- The macro M stores the word in its slot. -/
def Sha1Word.eval (x : Vector UInt32 16) : Sha1Word → UInt32 × Vector UInt32 16
  | .x i => (x.get i,x)
  | .m i =>
    let tm := slot x i ^^^ slot x (i - 14) ^^^ slot x (i - 8) ^^^ slot x (i - 3)
    (rol32 tm 1,setSlot x i (rol32 tm 1))

/-- The macro SHA1STEP. -/
def Sha1Line.step (s : Vector UInt32 16 × (Reg → UInt32)) (l : Sha1Line) :
    Vector UInt32 16 × (Reg → UInt32) :=
  let m := l.m.eval s.1
  let r := s.2
  let r := Function.update r l.e
    (r l.e + (rol32 (r l.a) 5 + l.f.eval (r l.b) (r l.c) (r l.d) + l.k + m.1))
  let r := Function.update r l.b (rol32 (r l.b) 30)
  (m.2,r)

def sha1Lines : List Sha1Line :=
  [
   ⟨.a,.b,.c,.d,.e,.f1,k1,.x 0⟩,⟨.e,.a,.b,.c,.d,.f1,k1,.x 1⟩,⟨.d,.e,.a,.b,.c,.f1,k1,.x 2⟩,
   ⟨.c,.d,.e,.a,.b,.f1,k1,.x 3⟩,⟨.b,.c,.d,.e,.a,.f1,k1,.x 4⟩,⟨.a,.b,.c,.d,.e,.f1,k1,.x 5⟩,
   ⟨.e,.a,.b,.c,.d,.f1,k1,.x 6⟩,⟨.d,.e,.a,.b,.c,.f1,k1,.x 7⟩,⟨.c,.d,.e,.a,.b,.f1,k1,.x 8⟩,
   ⟨.b,.c,.d,.e,.a,.f1,k1,.x 9⟩,⟨.a,.b,.c,.d,.e,.f1,k1,.x 10⟩,⟨.e,.a,.b,.c,.d,.f1,k1,.x 11⟩,
   ⟨.d,.e,.a,.b,.c,.f1,k1,.x 12⟩,⟨.c,.d,.e,.a,.b,.f1,k1,.x 13⟩,⟨.b,.c,.d,.e,.a,.f1,k1,.x 14⟩,
   ⟨.a,.b,.c,.d,.e,.f1,k1,.x 15⟩,⟨.e,.a,.b,.c,.d,.f1,k1,.m 16⟩,⟨.d,.e,.a,.b,.c,.f1,k1,.m 17⟩,
   ⟨.c,.d,.e,.a,.b,.f1,k1,.m 18⟩,⟨.b,.c,.d,.e,.a,.f1,k1,.m 19⟩,⟨.a,.b,.c,.d,.e,.f2,k2,.m 20⟩,
   ⟨.e,.a,.b,.c,.d,.f2,k2,.m 21⟩,⟨.d,.e,.a,.b,.c,.f2,k2,.m 22⟩,⟨.c,.d,.e,.a,.b,.f2,k2,.m 23⟩,
   ⟨.b,.c,.d,.e,.a,.f2,k2,.m 24⟩,⟨.a,.b,.c,.d,.e,.f2,k2,.m 25⟩,⟨.e,.a,.b,.c,.d,.f2,k2,.m 26⟩,
   ⟨.d,.e,.a,.b,.c,.f2,k2,.m 27⟩,⟨.c,.d,.e,.a,.b,.f2,k2,.m 28⟩,⟨.b,.c,.d,.e,.a,.f2,k2,.m 29⟩,
   ⟨.a,.b,.c,.d,.e,.f2,k2,.m 30⟩,⟨.e,.a,.b,.c,.d,.f2,k2,.m 31⟩,⟨.d,.e,.a,.b,.c,.f2,k2,.m 32⟩,
   ⟨.c,.d,.e,.a,.b,.f2,k2,.m 33⟩,⟨.b,.c,.d,.e,.a,.f2,k2,.m 34⟩,⟨.a,.b,.c,.d,.e,.f2,k2,.m 35⟩,
   ⟨.e,.a,.b,.c,.d,.f2,k2,.m 36⟩,⟨.d,.e,.a,.b,.c,.f2,k2,.m 37⟩,⟨.c,.d,.e,.a,.b,.f2,k2,.m 38⟩,
   ⟨.b,.c,.d,.e,.a,.f2,k2,.m 39⟩,⟨.a,.b,.c,.d,.e,.f3,k3,.m 40⟩,⟨.e,.a,.b,.c,.d,.f3,k3,.m 41⟩,
   ⟨.d,.e,.a,.b,.c,.f3,k3,.m 42⟩,⟨.c,.d,.e,.a,.b,.f3,k3,.m 43⟩,⟨.b,.c,.d,.e,.a,.f3,k3,.m 44⟩,
   ⟨.a,.b,.c,.d,.e,.f3,k3,.m 45⟩,⟨.e,.a,.b,.c,.d,.f3,k3,.m 46⟩,⟨.d,.e,.a,.b,.c,.f3,k3,.m 47⟩,
   ⟨.c,.d,.e,.a,.b,.f3,k3,.m 48⟩,⟨.b,.c,.d,.e,.a,.f3,k3,.m 49⟩,⟨.a,.b,.c,.d,.e,.f3,k3,.m 50⟩,
   ⟨.e,.a,.b,.c,.d,.f3,k3,.m 51⟩,⟨.d,.e,.a,.b,.c,.f3,k3,.m 52⟩,⟨.c,.d,.e,.a,.b,.f3,k3,.m 53⟩,
   ⟨.b,.c,.d,.e,.a,.f3,k3,.m 54⟩,⟨.a,.b,.c,.d,.e,.f3,k3,.m 55⟩,⟨.e,.a,.b,.c,.d,.f3,k3,.m 56⟩,
   ⟨.d,.e,.a,.b,.c,.f3,k3,.m 57⟩,⟨.c,.d,.e,.a,.b,.f3,k3,.m 58⟩,⟨.b,.c,.d,.e,.a,.f3,k3,.m 59⟩,
   ⟨.a,.b,.c,.d,.e,.f4,k4,.m 60⟩,⟨.e,.a,.b,.c,.d,.f4,k4,.m 61⟩,⟨.d,.e,.a,.b,.c,.f4,k4,.m 62⟩,
   ⟨.c,.d,.e,.a,.b,.f4,k4,.m 63⟩,⟨.b,.c,.d,.e,.a,.f4,k4,.m 64⟩,⟨.a,.b,.c,.d,.e,.f4,k4,.m 65⟩,
   ⟨.e,.a,.b,.c,.d,.f4,k4,.m 66⟩,⟨.d,.e,.a,.b,.c,.f4,k4,.m 67⟩,⟨.c,.d,.e,.a,.b,.f4,k4,.m 68⟩,
   ⟨.b,.c,.d,.e,.a,.f4,k4,.m 69⟩,⟨.a,.b,.c,.d,.e,.f4,k4,.m 70⟩,⟨.e,.a,.b,.c,.d,.f4,k4,.m 71⟩,
   ⟨.d,.e,.a,.b,.c,.f4,k4,.m 72⟩,⟨.c,.d,.e,.a,.b,.f4,k4,.m 73⟩,⟨.b,.c,.d,.e,.a,.f4,k4,.m 74⟩,
   ⟨.a,.b,.c,.d,.e,.f4,k4,.m 75⟩,⟨.e,.a,.b,.c,.d,.f4,k4,.m 76⟩,⟨.d,.e,.a,.b,.c,.f4,k4,.m 77⟩,
   ⟨.c,.d,.e,.a,.b,.f4,k4,.m 78⟩,⟨.b,.c,.d,.e,.a,.f4,k4,.m 79⟩]

end sha1

section sha2

/-- The macro R, with the order of the names as its arguments. -/
structure Sha2Line where
  regs : Regs8 Reg
  i : ℕ

def sha2StepLine {α : Type} [Add α] [XorOp α] [AndOp α] [OrOp α] (bigS0 bigS1 : α → α)
    (kw : α → α) (l : Regs8 Reg) (r : Reg → α) : Reg → α :=
  let r := Function.update r l.h (r l.h + kw (bigS1 (r l.e) + ch (r l.e) (r l.f) (r l.g)))
  let r := Function.update r l.d (r l.d + r l.h)
  Function.update r l.h (r l.h + (bigS0 (r l.a) + ma (r l.a) (r l.b) (r l.c)))

/-- The macro RX_8, which is also the body of the loop of SHA-512. -/
def rx8 (i : ℕ) : List Sha2Line :=
  [⟨⟨.a,.b,.c,.d,.e,.f,.g,.h⟩,i⟩,
   ⟨⟨.h,.a,.b,.c,.d,.e,.f,.g⟩,i + 1⟩,
   ⟨⟨.g,.h,.a,.b,.c,.d,.e,.f⟩,i + 2⟩,
   ⟨⟨.f,.g,.h,.a,.b,.c,.d,.e⟩,i + 3⟩,
   ⟨⟨.e,.f,.g,.h,.a,.b,.c,.d⟩,i + 4⟩,
   ⟨⟨.d,.e,.f,.g,.h,.a,.b,.c⟩,i + 5⟩,
   ⟨⟨.c,.d,.e,.f,.g,.h,.a,.b⟩,i + 6⟩,
   ⟨⟨.b,.c,.d,.e,.f,.g,.h,.a⟩,i + 7⟩]

/-- The macro BLK2 from the second pass on, BLK0 in the first. -/
def blk (j : ℕ) (i : ℕ) (x : Vector UInt32 16) : Vector UInt32 16 :=
  if j = 0 then x
  else
    setSlot x i (slot x i + (smallS1 (slot x (i + 16 - 2)) + slot x (i + 16 - 7) +
      smallS0 (slot x (i + 16 - 15))))

def sha256StepLine (j : ℕ) (s : Vector UInt32 16 × (Reg → UInt32)) (l : Sha2Line) :
    Vector UInt32 16 × (Reg → UInt32) :=
  let x := blk j l.i s.1
  (x,sha2StepLine bigS0 bigS1 (fun t => t + k256[l.i + j]?.getD 0 + slot x l.i) l.regs s.2)

/-- One pass for each sixteen words. -/
def sha256Passes (s : Vector UInt32 16 × (Reg → UInt32)) : Vector UInt32 16 × (Reg → UInt32) :=
  [0,16,32,48].foldl (fun s j => (rx8 0 ++ rx8 8).foldl (sha256StepLine j) s) s

def sha512Passes (w : Array UInt64) (r : Reg → UInt64) : Reg → UInt64 :=
  [0,8,16,24,32,40,48,56,64,72].foldl (fun r i => (rx8 i).foldl (fun r l =>
    sha2StepLine bigS0w bigS1w (fun t => t + k512[l.i]?.getD 0 + w.getD l.i 0) l.regs r) r) r

end sha2

section md5

structure Md5Line where
  f : Md5Function
  w : Reg
  x : Reg
  y : Reg
  z : Reg
  data : Fin 16
  t : UInt32
  s : UInt32

/-- The macro MD5STEP. -/
def Md5Line.step (x : Vector UInt32 16) (r : Reg → UInt32) (l : Md5Line) : Reg → UInt32 :=
  let r := Function.update r l.w
    (r l.w + (l.f.eval (r l.x) (r l.y) (r l.z) + (x.get l.data + l.t)))
  let r := Function.update r l.w (r l.w <<< l.s ||| r l.w >>> (32 - l.s))
  Function.update r l.w (r l.w + r l.x)

def md5Lines : List Md5Line :=
  [
   ⟨.f1,.a,.b,.c,.d,0,0xd76aa478,7⟩,⟨.f1,.d,.a,.b,.c,1,0xe8c7b756,12⟩,
   ⟨.f1,.c,.d,.a,.b,2,0x242070db,17⟩,⟨.f1,.b,.c,.d,.a,3,0xc1bdceee,22⟩,
   ⟨.f1,.a,.b,.c,.d,4,0xf57c0faf,7⟩,⟨.f1,.d,.a,.b,.c,5,0x4787c62a,12⟩,
   ⟨.f1,.c,.d,.a,.b,6,0xa8304613,17⟩,⟨.f1,.b,.c,.d,.a,7,0xfd469501,22⟩,
   ⟨.f1,.a,.b,.c,.d,8,0x698098d8,7⟩,⟨.f1,.d,.a,.b,.c,9,0x8b44f7af,12⟩,
   ⟨.f1,.c,.d,.a,.b,10,0xffff5bb1,17⟩,⟨.f1,.b,.c,.d,.a,11,0x895cd7be,22⟩,
   ⟨.f1,.a,.b,.c,.d,12,0x6b901122,7⟩,⟨.f1,.d,.a,.b,.c,13,0xfd987193,12⟩,
   ⟨.f1,.c,.d,.a,.b,14,0xa679438e,17⟩,⟨.f1,.b,.c,.d,.a,15,0x49b40821,22⟩,
   ⟨.f2,.a,.b,.c,.d,1,0xf61e2562,5⟩,⟨.f2,.d,.a,.b,.c,6,0xc040b340,9⟩,
   ⟨.f2,.c,.d,.a,.b,11,0x265e5a51,14⟩,⟨.f2,.b,.c,.d,.a,0,0xe9b6c7aa,20⟩,
   ⟨.f2,.a,.b,.c,.d,5,0xd62f105d,5⟩,⟨.f2,.d,.a,.b,.c,10,0x02441453,9⟩,
   ⟨.f2,.c,.d,.a,.b,15,0xd8a1e681,14⟩,⟨.f2,.b,.c,.d,.a,4,0xe7d3fbc8,20⟩,
   ⟨.f2,.a,.b,.c,.d,9,0x21e1cde6,5⟩,⟨.f2,.d,.a,.b,.c,14,0xc33707d6,9⟩,
   ⟨.f2,.c,.d,.a,.b,3,0xf4d50d87,14⟩,⟨.f2,.b,.c,.d,.a,8,0x455a14ed,20⟩,
   ⟨.f2,.a,.b,.c,.d,13,0xa9e3e905,5⟩,⟨.f2,.d,.a,.b,.c,2,0xfcefa3f8,9⟩,
   ⟨.f2,.c,.d,.a,.b,7,0x676f02d9,14⟩,⟨.f2,.b,.c,.d,.a,12,0x8d2a4c8a,20⟩,
   ⟨.f3,.a,.b,.c,.d,5,0xfffa3942,4⟩,⟨.f3,.d,.a,.b,.c,8,0x8771f681,11⟩,
   ⟨.f3,.c,.d,.a,.b,11,0x6d9d6122,16⟩,⟨.f3,.b,.c,.d,.a,14,0xfde5380c,23⟩,
   ⟨.f3,.a,.b,.c,.d,1,0xa4beea44,4⟩,⟨.f3,.d,.a,.b,.c,4,0x4bdecfa9,11⟩,
   ⟨.f3,.c,.d,.a,.b,7,0xf6bb4b60,16⟩,⟨.f3,.b,.c,.d,.a,10,0xbebfbc70,23⟩,
   ⟨.f3,.a,.b,.c,.d,13,0x289b7ec6,4⟩,⟨.f3,.d,.a,.b,.c,0,0xeaa127fa,11⟩,
   ⟨.f3,.c,.d,.a,.b,3,0xd4ef3085,16⟩,⟨.f3,.b,.c,.d,.a,6,0x04881d05,23⟩,
   ⟨.f3,.a,.b,.c,.d,9,0xd9d4d039,4⟩,⟨.f3,.d,.a,.b,.c,12,0xe6db99e5,11⟩,
   ⟨.f3,.c,.d,.a,.b,15,0x1fa27cf8,16⟩,⟨.f3,.b,.c,.d,.a,2,0xc4ac5665,23⟩,
   ⟨.f4,.a,.b,.c,.d,0,0xf4292244,6⟩,⟨.f4,.d,.a,.b,.c,7,0x432aff97,10⟩,
   ⟨.f4,.c,.d,.a,.b,14,0xab9423a7,15⟩,⟨.f4,.b,.c,.d,.a,5,0xfc93a039,21⟩,
   ⟨.f4,.a,.b,.c,.d,12,0x655b59c3,6⟩,⟨.f4,.d,.a,.b,.c,3,0x8f0ccc92,10⟩,
   ⟨.f4,.c,.d,.a,.b,10,0xffeff47d,15⟩,⟨.f4,.b,.c,.d,.a,1,0x85845dd1,21⟩,
   ⟨.f4,.a,.b,.c,.d,8,0x6fa87e4f,6⟩,⟨.f4,.d,.a,.b,.c,15,0xfe2ce6e0,10⟩,
   ⟨.f4,.c,.d,.a,.b,6,0xa3014314,15⟩,⟨.f4,.b,.c,.d,.a,13,0x4e0811a1,21⟩,
   ⟨.f4,.a,.b,.c,.d,4,0xf7537e82,6⟩,⟨.f4,.d,.a,.b,.c,11,0xbd3af235,10⟩,
   ⟨.f4,.c,.d,.a,.b,2,0x2ad7d2bb,15⟩,⟨.f4,.b,.c,.d,.a,9,0xeb86d391,21⟩]

end md5

section transforms
variable (s : Words)

/-- The chaining words cut down to 32 bits, as the variables start. -/
def locals32 : Reg → UInt32
  | .a => (wordsOf s).a.toUInt32
  | .b => (wordsOf s).b.toUInt32
  | .c => (wordsOf s).c.toUInt32
  | .d => (wordsOf s).d.toUInt32
  | .e => (wordsOf s).e.toUInt32
  | .f => (wordsOf s).f.toUInt32
  | .g => (wordsOf s).g.toUInt32
  | .h => (wordsOf s).h.toUInt32

def locals64 : Reg → UInt64
  | .a => (wordsOf s).a
  | .b => (wordsOf s).b
  | .c => (wordsOf s).c
  | .d => (wordsOf s).d
  | .e => (wordsOf s).e
  | .f => (wordsOf s).f
  | .g => (wordsOf s).g
  | .h => (wordsOf s).h

/-- The variables in the order of their names. -/
def regs4 (r : Reg → UInt32) : Regs4 := ⟨r .a,r .b,r .c,r .d⟩
def regs5 (r : Reg → UInt32) : Regs5 := ⟨r .a,r .b,r .c,r .d,r .e⟩
def regs8 {α : Type} (r : Reg → α) : Regs8 α := ⟨r .a,r .b,r .c,r .d,r .e,r .f,r .g,r .h⟩

/-- Only the first five variables are there. -/
def sha1TransformLines (data : Vector UInt8 64) : Words :=
  let w := wordsOf s
  let r := regs5 (sha1Lines.foldl Sha1Line.step (Vector.ofFn (readSwap32 data),locals32 s)).2
  #v[w.a + r.a.toUInt64,w.b + r.b.toUInt64,w.c + r.c.toUInt64,w.d + r.d.toUInt64,
    w.e + r.e.toUInt64,w.f,w.g,w.h]

def sha256TransformLines (data : Vector UInt8 64) : Words :=
  let w := wordsOf s
  let r := regs8 (sha256Passes (Vector.ofFn (readSwap32 data),locals32 s)).2
  #v[w.a + r.a.toUInt64,w.b + r.b.toUInt64,w.c + r.c.toUInt64,w.d + r.d.toUInt64,
    w.e + r.e.toUInt64,w.f + r.f.toUInt64,w.g + r.g.toUInt64,w.h + r.h.toUInt64]

def sha512TransformLines (data : Vector UInt8 128) : Words :=
  let w := wordsOf s
  let r := regs8 (sha512Passes (sha512Schedule data) (locals64 s))
  #v[w.a + r.a,w.b + r.b,w.c + r.c,w.d + r.d,w.e + r.e,w.f + r.f,w.g + r.g,w.h + r.h]

/-- Only the first four variables are there. -/
def md5TransformLines (data : Vector UInt8 64) : Words :=
  let w := wordsOf s
  let r := regs4 (md5Lines.foldl (Md5Line.step (Vector.ofFn (read32 data))) (locals32 s))
  #v[w.a + r.a.toUInt64,w.b + r.b.toUInt64,w.c + r.c.toUInt64,w.d + r.d.toUInt64,w.e,w.f,w.g,w.h]

end transforms

section names

def Reg.inOrder : ℕ → Reg
  | 0 => .a
  | 1 => .b
  | 2 => .c
  | 3 => .d
  | 4 => .e
  | 5 => .f
  | 6 => .g
  | _ => .h

/-- The name that stands at place k in line i, where n names go around. -/
def name (n i k : ℕ) : Reg := Reg.inOrder ((k + (n - 1) * i) % n)

theorem inOrder_inj : ∀ m < 8, ∀ k < 8, Reg.inOrder m = Reg.inOrder k ↔ m = k := by
  decide

variable {n : ℕ}

theorem name_inj (hn : n ≤ 8) {i k m : ℕ} (hk : k < n) (hm : m < n) :
    name n i k = name n i m ↔ k = m := by
  have hpos : 0 < n := by omega
  rw [name,name,inOrder_inj _ ((Nat.mod_lt _ hpos).trans_le hn) _ ((Nat.mod_lt _ hpos).trans_le hn)]
  constructor
  · intro h
    have hmod : k % n = m % n := Nat.ModEq.add_right_cancel' _ h
    rwa [Nat.mod_eq_of_lt hk,Nat.mod_eq_of_lt hm] at hmod
  · rintro rfl
    rfl

/-- The names move on by one place. -/
theorem name_succ (n i k : ℕ) : name (n + 1) (i + 1) (k + 1) = name (n + 1) i k := by
  rw [name,name]
  congr 1
  rw [show k + 1 + (n + 1 - 1) * (i + 1) = k + (n + 1 - 1) * i + (n + 1) by
    simp only [Nat.add_sub_cancel]; ring,Nat.add_mod_right]

theorem name_zero (n i : ℕ) : name (n + 1) (i + 1) 0 = name (n + 1) i n := by
  rw [name,name]
  congr 2
  simp only [Nat.add_sub_cancel]
  ring

end names

end SecureWipeOut.Hash
