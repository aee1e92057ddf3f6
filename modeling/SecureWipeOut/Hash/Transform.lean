import Mathlib.Tactic

/-! # Block transforms

The compression steps of the four digests on the eight 64-bit chaining words of a
context. Each transform takes the block it reads as a vector; the rotation of the
register names in the step macros is the shift of a tuple. The accelerated versions
are given by what one pass of their loop does to the packed 32-bit words.
-/
namespace SecureWipeOut.Hash

abbrev Words := Vector UInt64 8

/-- The block of the given length that starts at a position in memory. -/
def block (n : ℕ) (p : ℕ → UInt8) : Vector UInt8 n := Vector.ofFn fun i => p i

def rol32 (a : UInt32) (n : UInt32) : UInt32 := a <<< n ||| a >>> (32 - n)
def ror32 (a : UInt32) (n : UInt32) : UInt32 := a >>> n ||| a <<< (32 - n)
def ror64 (a : UInt64) (n : UInt64) : UInt64 := a >>> n ||| a <<< (64 - n)

/-- Ch and Ma, the two choice functions that the digests share. -/
def ch {α : Type*} [XorOp α] [AndOp α] (x y z : α) : α := z ^^^ (x &&& (y ^^^ z))
def ma {α : Type*} [AndOp α] [OrOp α] (x y z : α) : α := (x &&& y) ||| (z &&& (x ||| y))

def readSwap32 (data : Vector UInt8 64) (k : Fin 16) : UInt32 :=
  data[4 * k.val].toUInt32 <<< 24 ||| data[4 * k.val + 1].toUInt32 <<< 16 |||
    data[4 * k.val + 2].toUInt32 <<< 8 ||| data[4 * k.val + 3].toUInt32

def read32 (data : Vector UInt8 64) (k : Fin 16) : UInt32 :=
  data[4 * k.val].toUInt32 ||| data[4 * k.val + 1].toUInt32 <<< 8 |||
    data[4 * k.val + 2].toUInt32 <<< 16 ||| data[4 * k.val + 3].toUInt32 <<< 24

def readSwap64 (data : Vector UInt8 128) (k : Fin 16) : UInt64 :=
  (List.finRange 8).foldl (fun w j => w <<< 8 ||| data[8 * k.val + j.val].toUInt64) 0

section Sha1

structure Regs5 where
  a : UInt32
  b : UInt32
  c : UInt32
  d : UInt32
  e : UInt32

/-- The function and constant of a round: F1 to F4 with K1 to K4. -/
def sha1Round (i : ℕ) (b c d : UInt32) : UInt32 :=
  if i < 20 then ch b c d + 0x5a827999
  else if i < 40 then (b ^^^ c ^^^ d) + 0x6ed9eba1
  else if i < 60 then ma b c d + 0x8f1bbcdc
  else (b ^^^ c ^^^ d) + 0xca62c1d6

def sha1Step (i : ℕ) (m : UInt32) (r : Regs5) : Regs5 :=
  ⟨r.e + (rol32 r.a 5 + sha1Round i r.b r.c r.d + m),r.a,rol32 r.b 30,r.c,r.d⟩

/-- The macro M: the word of round i in the circular schedule, stored in its slot. -/
def sha1Schedule (i : ℕ) (x : Vector UInt32 16) : Vector UInt32 16 :=
  if i < 16 then x
  else
    let tm := x[i % 16] ^^^ x[(i - 14) % 16] ^^^ x[(i - 8) % 16] ^^^ x[(i - 3) % 16]
    x.set (i % 16) (rol32 tm 1)

def sha1Rounds (x : Vector UInt32 16) (r : Regs5) : Regs5 :=
  ((List.range 80).foldl (fun (s : Vector UInt32 16 × Regs5) i =>
    let x := sha1Schedule i s.1
    (x,sha1Step i x[i % 16] s.2)) (x,r)).2

def sha1TransformCc (s : Words) (data : Vector UInt8 64) : Words :=
  let r := sha1Rounds (Vector.ofFn (readSwap32 data))
    ⟨s[0].toUInt32,s[1].toUInt32,s[2].toUInt32,s[3].toUInt32,s[4].toUInt32⟩
  #v[s[0] + r.a.toUInt64,s[1] + r.b.toUInt64,s[2] + r.c.toUInt64,s[3] + r.d.toUInt64,
    s[4] + r.e.toUInt64,s[5],s[6],s[7]]

end Sha1

section Sha2

structure Regs8 (α : Type*) where
  a : α
  b : α
  c : α
  d : α
  e : α
  f : α
  g : α
  h : α

/-- The macro R, with the round's constant and schedule word added up in kw. -/
def sha2Step {α : Type*} [Add α] [XorOp α] [AndOp α] [OrOp α] (bigS0 bigS1 : α → α) (kw : α → α)
    (r : Regs8 α) : Regs8 α :=
  let h := r.h + kw (bigS1 r.e + ch r.e r.f r.g)
  ⟨h + (bigS0 r.a + ma r.a r.b r.c),r.a,r.b,r.c,r.d + h,r.e,r.f,r.g⟩

def k256 : Vector UInt32 64 :=
  #v[
   0x428a2f98,0x71374491,0xb5c0fbcf,0xe9b5dba5,0x3956c25b,0x59f111f1,0x923f82a4,0xab1c5ed5,
   0xd807aa98,0x12835b01,0x243185be,0x550c7dc3,0x72be5d74,0x80deb1fe,0x9bdc06a7,0xc19bf174,
   0xe49b69c1,0xefbe4786,0x0fc19dc6,0x240ca1cc,0x2de92c6f,0x4a7484aa,0x5cb0a9dc,0x76f988da,
   0x983e5152,0xa831c66d,0xb00327c8,0xbf597fc7,0xc6e00bf3,0xd5a79147,0x06ca6351,0x14292967,
   0x27b70a85,0x2e1b2138,0x4d2c6dfc,0x53380d13,0x650a7354,0x766a0abb,0x81c2c92e,0x92722c85,
   0xa2bfe8a1,0xa81a664b,0xc24b8b70,0xc76c51a3,0xd192e819,0xd6990624,0xf40e3585,0x106aa070,
   0x19a4c116,0x1e376c08,0x2748774c,0x34b0bcb5,0x391c0cb3,0x4ed8aa4a,0x5b9cca4f,0x682e6ff3,
   0x748f82ee,0x78a5636f,0x84c87814,0x8cc70208,0x90befffa,0xa4506ceb,0xbef9a3f7,0xc67178f2]

def bigS0 (x : UInt32) : UInt32 := ror32 (ror32 (ror32 x 9 ^^^ x) 11 ^^^ x) 2
def bigS1 (x : UInt32) : UInt32 := ror32 (ror32 (ror32 x 14 ^^^ x) 5 ^^^ x) 6
def smallS0 (x : UInt32) : UInt32 := ror32 (ror32 x 11 ^^^ x) 7 ^^^ (x >>> 3)
def smallS1 (x : UInt32) : UInt32 := ror32 (ror32 x 2 ^^^ x) 17 ^^^ (x >>> 10)

/-- BLK0 in the first sixteen rounds, BLK2 in the others. -/
def sha256Schedule (i : ℕ) (x : Vector UInt32 16) : Vector UInt32 16 :=
  if i < 16 then x
  else
    x.set (i % 16) (x[i % 16] + (smallS1 x[(i - 2) % 16] + x[(i - 7) % 16] +
      smallS0 x[(i - 15) % 16]))

def sha256Rounds (x : Vector UInt32 16) (r : Regs8 UInt32) : Regs8 UInt32 :=
  ((List.finRange 64).foldl (fun (s : Vector UInt32 16 × Regs8 UInt32) (i : Fin 64) =>
    let x := sha256Schedule i s.1
    (x,sha2Step bigS0 bigS1 (fun t => t + k256[i] + x[i.val % 16]) s.2)) (x,r)).2

def sha256TransformCc (s : Words) (data : Vector UInt8 64) : Words :=
  let r := sha256Rounds (Vector.ofFn (readSwap32 data))
    ⟨s[0].toUInt32,s[1].toUInt32,s[2].toUInt32,s[3].toUInt32,s[4].toUInt32,s[5].toUInt32,
      s[6].toUInt32,s[7].toUInt32⟩
  #v[s[0] + r.a.toUInt64,s[1] + r.b.toUInt64,s[2] + r.c.toUInt64,s[3] + r.d.toUInt64,
    s[4] + r.e.toUInt64,s[5] + r.f.toUInt64,s[6] + r.g.toUInt64,s[7] + r.h.toUInt64]

def k512 : Vector UInt64 80 :=
  #v[
   0x428a2f98d728ae22,0x7137449123ef65cd,0xb5c0fbcfec4d3b2f,0xe9b5dba58189dbbc,
   0x3956c25bf348b538,0x59f111f1b605d019,0x923f82a4af194f9b,0xab1c5ed5da6d8118,
   0xd807aa98a3030242,0x12835b0145706fbe,0x243185be4ee4b28c,0x550c7dc3d5ffb4e2,
   0x72be5d74f27b896f,0x80deb1fe3b1696b1,0x9bdc06a725c71235,0xc19bf174cf692694,
   0xe49b69c19ef14ad2,0xefbe4786384f25e3,0x0fc19dc68b8cd5b5,0x240ca1cc77ac9c65,
   0x2de92c6f592b0275,0x4a7484aa6ea6e483,0x5cb0a9dcbd41fbd4,0x76f988da831153b5,
   0x983e5152ee66dfab,0xa831c66d2db43210,0xb00327c898fb213f,0xbf597fc7beef0ee4,
   0xc6e00bf33da88fc2,0xd5a79147930aa725,0x06ca6351e003826f,0x142929670a0e6e70,
   0x27b70a8546d22ffc,0x2e1b21385c26c926,0x4d2c6dfc5ac42aed,0x53380d139d95b3df,
   0x650a73548baf63de,0x766a0abb3c77b2a8,0x81c2c92e47edaee6,0x92722c851482353b,
   0xa2bfe8a14cf10364,0xa81a664bbc423001,0xc24b8b70d0f89791,0xc76c51a30654be30,
   0xd192e819d6ef5218,0xd69906245565a910,0xf40e35855771202a,0x106aa07032bbd1b8,
   0x19a4c116b8d2d0c8,0x1e376c085141ab53,0x2748774cdf8eeb99,0x34b0bcb5e19b48a8,
   0x391c0cb3c5c95a63,0x4ed8aa4ae3418acb,0x5b9cca4f7763e373,0x682e6ff3d6b2b8a3,
   0x748f82ee5defb2fc,0x78a5636f43172f60,0x84c87814a1f0ab72,0x8cc702081a6439ec,
   0x90befffa23631e28,0xa4506cebde82bde9,0xbef9a3f7b2c67915,0xc67178f2e372532b,
   0xca273eceea26619c,0xd186b8c721c0c207,0xeada7dd6cde0eb1e,0xf57d4f7fee6ed178,
   0x06f067aa72176fba,0x0a637dc5a2c898a6,0x113f9804bef90dae,0x1b710b35131c471b,
   0x28db77f523047d84,0x32caab7b40c72493,0x3c9ebe0a15c9bebc,0x431d67c49c100d4c,
   0x4cc5d4becb3e42b6,0x597f299cfc657e2a,0x5fcb6fab3ad6faec,0x6c44198c4a475817]

def bigS0w (x : UInt64) : UInt64 := ror64 (ror64 (ror64 x 5 ^^^ x) 6 ^^^ x) 28
def bigS1w (x : UInt64) : UInt64 := ror64 (ror64 (ror64 x 23 ^^^ x) 4 ^^^ x) 14
def smallS0w (x : UInt64) : UInt64 := ror64 (ror64 x 7 ^^^ x) 1 ^^^ (x >>> 7)
def smallS1w (x : UInt64) : UInt64 := ror64 (ror64 x 42 ^^^ x) 19 ^^^ (x >>> 6)

/-- The array W of 80 words, filled from the front. -/
def sha512Schedule (data : Vector UInt8 128) : Array UInt64 :=
  (List.range 80).foldl (fun w i =>
    w.push (if h : i < 16 then readSwap64 data ⟨i,h⟩
      else smallS1w (w.getD (i - 2) 0) + w.getD (i - 7) 0 + smallS0w (w.getD (i - 15) 0) +
        w.getD (i - 16) 0)) #[]

def sha512Rounds (w : Array UInt64) (r : Regs8 UInt64) : Regs8 UInt64 :=
  (List.finRange 80).foldl (fun r (i : Fin 80) =>
    sha2Step bigS0w bigS1w (fun t => t + k512[i] + w.getD i 0) r) r

def sha512Transform (s : Words) (data : Vector UInt8 128) : Words :=
  let r := sha512Rounds (sha512Schedule data) ⟨s[0],s[1],s[2],s[3],s[4],s[5],s[6],s[7]⟩
  #v[s[0] + r.a,s[1] + r.b,s[2] + r.c,s[3] + r.d,s[4] + r.e,s[5] + r.f,s[6] + r.g,s[7] + r.h]

end Sha2

section Md5

structure Regs4 where
  a : UInt32
  b : UInt32
  c : UInt32
  d : UInt32

inductive Md5Function where
  | f1
  | f2
  | f3
  | f4

def Md5Function.eval : Md5Function → UInt32 → UInt32 → UInt32 → UInt32
  | .f1, x, y, z => z ^^^ (x &&& (y ^^^ z))
  | .f2, x, y, z => y ^^^ (z &&& (x ^^^ y))
  | .f3, x, y, z => x ^^^ y ^^^ z
  | .f4, x, y, z => y ^^^ (x ||| ~~~z)

/-- The 64 steps: function, word of the block, constant and rotation. -/
def md5Steps : List (Md5Function × Fin 16 × UInt32 × UInt32) :=
  [
   (.f1,0,0xd76aa478,7),(.f1,1,0xe8c7b756,12),(.f1,2,0x242070db,17),(.f1,3,0xc1bdceee,22),
   (.f1,4,0xf57c0faf,7),(.f1,5,0x4787c62a,12),(.f1,6,0xa8304613,17),(.f1,7,0xfd469501,22),
   (.f1,8,0x698098d8,7),(.f1,9,0x8b44f7af,12),(.f1,10,0xffff5bb1,17),(.f1,11,0x895cd7be,22),
   (.f1,12,0x6b901122,7),(.f1,13,0xfd987193,12),(.f1,14,0xa679438e,17),(.f1,15,0x49b40821,22),
   (.f2,1,0xf61e2562,5),(.f2,6,0xc040b340,9),(.f2,11,0x265e5a51,14),(.f2,0,0xe9b6c7aa,20),
   (.f2,5,0xd62f105d,5),(.f2,10,0x02441453,9),(.f2,15,0xd8a1e681,14),(.f2,4,0xe7d3fbc8,20),
   (.f2,9,0x21e1cde6,5),(.f2,14,0xc33707d6,9),(.f2,3,0xf4d50d87,14),(.f2,8,0x455a14ed,20),
   (.f2,13,0xa9e3e905,5),(.f2,2,0xfcefa3f8,9),(.f2,7,0x676f02d9,14),(.f2,12,0x8d2a4c8a,20),
   (.f3,5,0xfffa3942,4),(.f3,8,0x8771f681,11),(.f3,11,0x6d9d6122,16),(.f3,14,0xfde5380c,23),
   (.f3,1,0xa4beea44,4),(.f3,4,0x4bdecfa9,11),(.f3,7,0xf6bb4b60,16),(.f3,10,0xbebfbc70,23),
   (.f3,13,0x289b7ec6,4),(.f3,0,0xeaa127fa,11),(.f3,3,0xd4ef3085,16),(.f3,6,0x04881d05,23),
   (.f3,9,0xd9d4d039,4),(.f3,12,0xe6db99e5,11),(.f3,15,0x1fa27cf8,16),(.f3,2,0xc4ac5665,23),
   (.f4,0,0xf4292244,6),(.f4,7,0x432aff97,10),(.f4,14,0xab9423a7,15),(.f4,5,0xfc93a039,21),
   (.f4,12,0x655b59c3,6),(.f4,3,0x8f0ccc92,10),(.f4,10,0xffeff47d,15),(.f4,1,0x85845dd1,21),
   (.f4,8,0x6fa87e4f,6),(.f4,15,0xfe2ce6e0,10),(.f4,6,0xa3014314,15),(.f4,13,0x4e0811a1,21),
   (.f4,4,0xf7537e82,6),(.f4,11,0xbd3af235,10),(.f4,2,0x2ad7d2bb,15),(.f4,9,0xeb86d391,21)]

def md5Step (x : Vector UInt32 16) (r : Regs4) (t : Md5Function × Fin 16 × UInt32 × UInt32) : Regs4 :=
  let w := r.a + (t.1.eval r.b r.c r.d + (x[t.2.1] + t.2.2.1))
  ⟨r.d,rol32 w t.2.2.2 + r.b,r.b,r.c⟩

def md5Transform (s : Words) (data : Vector UInt8 64) : Words :=
  let x := Vector.ofFn (read32 data)
  let r := md5Steps.foldl (md5Step x)
    ⟨s[0].toUInt32,s[1].toUInt32,s[2].toUInt32,s[3].toUInt32⟩
  #v[s[0] + r.a.toUInt64,s[1] + r.b.toUInt64,s[2] + r.c.toUInt64,s[3] + r.d.toUInt64,s[4],s[5],
    s[6],s[7]]

end Md5

section Slots
variable {x : Vector UInt32 16} {i k : ℕ}

/-- The word in the slot of a round. -/
def slot (x : Vector UInt32 16) (i : ℕ) : UInt32 := x[i % 16]

def setSlot (x : Vector UInt32 16) (i : ℕ) (v : UInt32) : Vector UInt32 16 := x.set (i % 16) v

theorem slot_congr (h : i % 16 = k % 16) : slot x i = slot x k := by
  simp only [slot,h]

theorem setSlot_congr (h : i % 16 = k % 16) (v : UInt32) : setSlot x i v = setSlot x k v := by
  simp only [setSlot,h]

theorem slot_eq_get (k : Fin 16) : slot x k = x.get k := by
  simp only [slot,Nat.mod_eq_of_lt k.isLt]
  rfl

theorem slot_setSlot_self (v : UInt32) : slot (setSlot x i v) i = v :=
  Vector.getElem_set_self _

theorem slot_setSlot_ne (v : UInt32) (h : i % 16 ≠ k % 16) : slot (setSlot x i v) k = slot x k :=
  Vector.getElem_set_ne _ _ h

theorem sha1Schedule_of_le (h : ¬i < 16) : sha1Schedule i x =
    setSlot x i (rol32 (slot x i ^^^ slot x (i - 14) ^^^ slot x (i - 8) ^^^ slot x (i - 3)) 1) :=
  if_neg h

theorem sha256Schedule_of_le (h : ¬i < 16) : sha256Schedule i x =
    setSlot x i (slot x i + (smallS1 (slot x (i - 2)) + slot x (i - 7) + smallS0 (slot x (i - 15)))) :=
  if_neg h

theorem sha1Rounds_slot (x : Vector UInt32 16) (r : Regs5) : sha1Rounds x r =
    ((List.range 80).foldl (fun (s : Vector UInt32 16 × Regs5) i =>
      (sha1Schedule i s.1,sha1Step i (slot (sha1Schedule i s.1) i) s.2)) (x,r)).2 := rfl

theorem sha256Rounds_slot (x : Vector UInt32 16) (r : Regs8 UInt32) : sha256Rounds x r =
    ((List.finRange 64).foldl (fun (s : Vector UInt32 16 × Regs8 UInt32) (i : Fin 64) =>
      (sha256Schedule i s.1,sha2Step bigS0 bigS1
        (fun t => t + k256.get i + slot (sha256Schedule i s.1) i) s.2)) (x,r)).2 := rfl

theorem sha512Rounds_get (w : Array UInt64) (r : Regs8 UInt64) : sha512Rounds w r =
    (List.finRange 80).foldl (fun r (i : Fin 80) =>
      sha2Step bigS0w bigS1w (fun t => t + k512.get i + w.getD i 0) r) r := rfl

theorem md5Step_get (x : Vector UInt32 16) (r : Regs4) (t : Md5Function × Fin 16 × UInt32 × UInt32) :
    md5Step x r t = ⟨r.d,rol32 (r.a + (t.1.eval r.b r.c r.d + (x.get t.2.1 + t.2.2.1))) t.2.2.2 +
      r.b,r.b,r.c⟩ := rfl

/-- The chaining words by their names. -/
def wordsOf (s : Words) : Regs8 UInt64 := ⟨s[0],s[1],s[2],s[3],s[4],s[5],s[6],s[7]⟩

/-- A step of MD5 by its number. -/
def md5StepAt (i : ℕ) : Md5Function × Fin 16 × UInt32 × UInt32 := md5Steps[i]?.getD (.f1,0,0,0)

theorem md5Steps_eq : md5Steps = (List.range 64).map md5StepAt := rfl

end Slots

section Acceleration

/-- The first n chaining words cut down to 32 bits. -/
def pack (n : ℕ) (s : Words) : Vector UInt32 n := Vector.ofFn fun i => (s[i.val]?.getD 0).toUInt32

def unpack {n : ℕ} (s : Words) (w : Vector UInt32 n) : Words :=
  Vector.ofFn fun i => if h : i.val < n then w[i.val].toUInt64 else s[i]

/-- What the loop of an accelerated transform does with one block. -/
abbrev X86Block (n : ℕ) := Vector UInt32 n → Vector UInt8 64 → Vector UInt32 n

def x86Loop {n : ℕ} (body : X86Block n) (w : Vector UInt32 n) (p : ℕ → UInt8) (length : ℕ) :
    Vector UInt32 n :=
  if 64 ≤ length then x86Loop body (body w (block 64 p)) (fun i => p (i + 64)) (length - 64) else w
  termination_by length

def transformX86 {n : ℕ} (body : X86Block n) (s : Words) (p : ℕ → UInt8) (length : ℕ) : Words :=
  unpack s (x86Loop body (pack n s) p length)

/-- The processor's accelerated loop bodies, where it has them. -/
structure Cpu where
  sha1 : Option (X86Block 5)
  sha256 : Option (X86Block 8)

def sha1Transform (cpu : Cpu) (s : Words) (data : Vector UInt8 64) : Words :=
  match cpu.sha1 with
  | some body => transformX86 body s (fun i => data[i]?.getD 0) 64
  | none => sha1TransformCc s data

def sha256Transform (cpu : Cpu) (s : Words) (data : Vector UInt8 64) : Words :=
  match cpu.sha256 with
  | some body => transformX86 body s (fun i => data[i]?.getD 0) 64
  | none => sha256TransformCc s data

end Acceleration

end SecureWipeOut.Hash
