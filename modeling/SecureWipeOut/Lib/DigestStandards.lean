import Mathlib.Analysis.SpecialFunctions.Pow.NthRootLemmas
import Mathlib.Analysis.SpecialFunctions.Trigonometric.Basic
import Mathlib.Data.Nat.Prime.Nth
import Mathlib.Tactic

/-! # The compression functions of the digest standards

SHA-1, SHA-256, SHA-512 and MD5 as their standards describe them, on words of bits: the
whole message schedule is written out, the working variables are shifted in each round,
and the constants are what they are the digits of.
-/
namespace SecureWipeOut.DigestStandards

section words
variable {w : ℕ}

def bigEndianValue (l : List UInt8) : ℕ := l.foldl (fun n b => 256 * n + b.toNat) 0
def littleEndianValue (l : List UInt8) : ℕ := l.foldr (fun b n => b.toNat + 256 * n) 0

/-- Word t of a block. -/
def word (w : ℕ) (value : List UInt8 → ℕ) (data : List UInt8) (t : ℕ) : BitVec w :=
  BitVec.ofNat w (value ((data.drop (w / 8 * t)).take (w / 8)))

def Ch (x y z : BitVec w) : BitVec w := (x &&& y) ^^^ (~~~x &&& z)
def Maj (x y z : BitVec w) : BitVec w := (x &&& y) ^^^ (x &&& z) ^^^ (y &&& z)
def Parity (x y z : BitVec w) : BitVec w := x ^^^ y ^^^ z

end words

section sha1
variable (m : ℕ → BitVec 32)

/-- The message schedule. -/
def sha1W (t : ℕ) : BitVec 32 :=
  if t < 16 then m t
  else (sha1W (t - 3) ^^^ sha1W (t - 8) ^^^ sha1W (t - 14) ^^^ sha1W (t - 16)).rotateLeft 1
  termination_by t

def sha1F (t : ℕ) (x y z : BitVec 32) : BitVec 32 :=
  if t < 20 then Ch x y z
  else if t < 40 then Parity x y z
  else if t < 60 then Maj x y z
  else Parity x y z

def sha1K (t : ℕ) : BitVec 32 :=
  if t < 20 then 0x5a827999
  else if t < 40 then 0x6ed9eba1
  else if t < 60 then 0x8f1bbcdc
  else 0xca62c1d6

/-- The working variables a to e. -/
def sha1Round (v : Vector (BitVec 32) 5) (t : ℕ) : Vector (BitVec 32) 5 :=
  #v[v[0].rotateLeft 5 + sha1F t v[1] v[2] v[3] + v[4] + sha1K t + sha1W m t,v[0],
    v[1].rotateLeft 30,v[2],v[3]]

def sha1Compress (h : Vector (BitVec 32) 5) (data : List UInt8) : Vector (BitVec 32) 5 :=
  h.zipWith (· + ·) ((List.range 80).foldl (sha1Round (word 32 bigEndianValue data)) h)

end sha1

section sha2
variable {w : ℕ}

local instance variableIndex : NeZero 8 := ⟨by decide⟩

/-- What distinguishes the digests of one family. -/
structure Sha2 (w : ℕ) where
  rounds : ℕ
  bigSigma0 : BitVec w → BitVec w
  bigSigma1 : BitVec w → BitVec w
  smallSigma0 : BitVec w → BitVec w
  smallSigma1 : BitVec w → BitVec w

def sha256Functions : Sha2 32 where
  rounds := 64
  bigSigma0 x := x.rotateRight 2 ^^^ x.rotateRight 13 ^^^ x.rotateRight 22
  bigSigma1 x := x.rotateRight 6 ^^^ x.rotateRight 11 ^^^ x.rotateRight 25
  smallSigma0 x := x.rotateRight 7 ^^^ x.rotateRight 18 ^^^ x >>> 3
  smallSigma1 x := x.rotateRight 17 ^^^ x.rotateRight 19 ^^^ x >>> 10

def sha512Functions : Sha2 64 where
  rounds := 80
  bigSigma0 x := x.rotateRight 28 ^^^ x.rotateRight 34 ^^^ x.rotateRight 39
  bigSigma1 x := x.rotateRight 14 ^^^ x.rotateRight 18 ^^^ x.rotateRight 41
  smallSigma0 x := x.rotateRight 1 ^^^ x.rotateRight 8 ^^^ x >>> 7
  smallSigma1 x := x.rotateRight 19 ^^^ x.rotateRight 61 ^^^ x >>> 6

/-- The first w bits of the fractional part of the cube root of a prime. -/
noncomputable def sha2K (w t : ℕ) : BitVec w :=
  BitVec.ofNat w (Nat.nthRoot 3 (Nat.nth Nat.Prime t * 2 ^ (3 * w)))

variable (s : Sha2 w) (m : ℕ → BitVec w)

def Sha2.W (t : ℕ) : BitVec w :=
  if t < 16 then m t
  else s.smallSigma1 (Sha2.W (t - 2)) + Sha2.W (t - 7) + s.smallSigma0 (Sha2.W (t - 15)) +
    Sha2.W (t - 16)
  termination_by t

/-- The working variables a to h. -/
noncomputable def Sha2.round (v : Vector (BitVec w) 8) (t : ℕ) : Vector (BitVec w) 8 :=
  let t1 := v.get 7 + s.bigSigma1 (v.get 4) + Ch (v.get 4) (v.get 5) (v.get 6) + sha2K w t + s.W m t
  let t2 := s.bigSigma0 (v.get 0) + Maj (v.get 0) (v.get 1) (v.get 2)
  #v[t1 + t2,v.get 0,v.get 1,v.get 2,v.get 3 + t1,v.get 4,v.get 5,v.get 6]

noncomputable def Sha2.compress (h : Vector (BitVec w) 8) (data : List UInt8) :
    Vector (BitVec w) 8 :=
  h.zipWith (· + ·) ((List.range s.rounds).foldl (s.round (word w bigEndianValue data)) h)

end sha2

section md5
variable (m : ℕ → BitVec 32)

def md5F (t : ℕ) (x y z : BitVec 32) : BitVec 32 :=
  if t < 16 then (x &&& y) ||| (~~~x &&& z)
  else if t < 32 then (x &&& z) ||| (y &&& ~~~z)
  else if t < 48 then x ^^^ y ^^^ z
  else y ^^^ (x ||| ~~~z)

/-- The word of the block a step uses. -/
def md5X (t : ℕ) : ℕ :=
  if t < 16 then t
  else if t < 32 then (5 * t + 1) % 16
  else if t < 48 then (3 * t + 5) % 16
  else 7 * t % 16

/-- How far a step rotates. -/
def md5S (t : ℕ) : ℕ :=
  ([[7,12,17,22],[5,9,14,20],[4,11,16,23],[6,10,15,21]].getD (t / 16) []).getD (t % 4) 0

/-- The integer part of 2 ^ 32 times a sine. -/
noncomputable def md5T (t : ℕ) : BitVec 32 := BitVec.ofNat 32 ⌊2 ^ 32 * |Real.sin (t + 1)|⌋₊

/-- The working variables, in the order the step names them. -/
noncomputable def md5Round (v : Vector (BitVec 32) 4) (t : ℕ) : Vector (BitVec 32) 4 :=
  #v[v[3],v[1] + (v[0] + md5F t v[1] v[2] v[3] + m (md5X t) + md5T t).rotateLeft (md5S t),
    v[1],v[2]]

noncomputable def md5Compress (h : Vector (BitVec 32) 4) (data : List UInt8) :
    Vector (BitVec 32) 4 :=
  h.zipWith (· + ·) ((List.range 64).foldl (md5Round (word 32 littleEndianValue data)) h)

end md5

end SecureWipeOut.DigestStandards
