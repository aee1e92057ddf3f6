import SecureWipeOut.Lib.DigestStandards

/-! # The vector instructions for SHA-1 and SHA-256

The 128-bit registers of an x86 processor as four words of bits, and straight-line code on
registers with the instructions for the two digests. What the instructions do with four
rounds, or with four words of a schedule, is stated in the terms of the standards.
-/
namespace SecureWipeOut.ShaInstructions
open DigestStandards

section registers

/-- A register as its four words, the lowest one first. -/
@[ext] structure M128 where
  x0 : BitVec 32
  x1 : BitVec 32
  x2 : BitVec 32
  x3 : BitVec 32
  deriving DecidableEq

def M128.lane (v : M128) (j : ℕ) : BitVec 32 :=
  match j % 4 with
  | 0 => v.x0
  | 1 => v.x1
  | 2 => v.x2
  | _ => v.x3

def M128.byte (v : M128) (i : ℕ) : BitVec 8 := (v.lane (i / 4)).extractLsb' (8 * (i % 4)) 8

/-- The word of four bytes, the lowest one first. -/
def fourBytes (f : ℕ → BitVec 8) (j : ℕ) : BitVec 32 :=
  f (4 * j + 3) ++ f (4 * j + 2) ++ f (4 * j + 1) ++ f (4 * j)

def ofBytes (f : ℕ → BitVec 8) : M128 :=
  ⟨fourBytes f 0,fourBytes f 1,fourBytes f 2,fourBytes f 3⟩

def map2 (op : BitVec 32 → BitVec 32 → BitVec 32) (a b : M128) : M128 :=
  ⟨op a.x0 b.x0,op a.x1 b.x1,op a.x2 b.x2,op a.x3 b.x3⟩

def setEpi64x (e1 e0 : BitVec 64) : M128 :=
  ⟨e0.extractLsb' 0 32,e0.extractLsb' 32 32,e1.extractLsb' 0 32,e1.extractLsb' 32 32⟩

theorem append_bytes (x : BitVec 32) :
    x.extractLsb' 24 8 ++ x.extractLsb' 16 8 ++ x.extractLsb' 8 8 ++ x.extractLsb' 0 8 = x := by
  apply BitVec.eq_of_getLsbD_eq
  intro i hi
  simp only [BitVec.getLsbD_append,BitVec.getLsbD_extractLsb']
  have h32 : i < 32 := hi
  by_cases h8 : i < 8
  · simp [h8]
  · by_cases h16 : i < 16
    · simp [h8,show i - 8 < 8 by omega,show 8 + (i - 8) = i by omega]
    · by_cases h24 : i < 24
      · simp [h8,show ¬ i - 8 < 8 by omega,show i - 8 - 8 < 8 by omega,
          show 16 + (i - 8 - 8) = i by omega]
      · simp [h8,show ¬ i - 8 < 8 by omega,show ¬ i - 8 - 8 < 8 by omega,
          show i - 8 - 8 - 8 < 8 by omega,show 24 + (i - 8 - 8 - 8) = i by omega]

theorem extract_append (a b c d : BitVec 8) :
    (a ++ b ++ c ++ d).extractLsb' 0 8 = d ∧ (a ++ b ++ c ++ d).extractLsb' 8 8 = c ∧
      (a ++ b ++ c ++ d).extractLsb' 16 8 = b ∧ (a ++ b ++ c ++ d).extractLsb' 24 8 = a := by
  refine ⟨?_,?_,?_,?_⟩ <;> apply BitVec.eq_of_getLsbD_eq <;> intro i hi <;>
    simp (disch := omega) only [BitVec.getLsbD_extractLsb',BitVec.getLsbD_append,hi,decide_true,
      Bool.true_and,if_pos,if_neg] <;>
    exact congrArg _ (by omega)

theorem byte_ofBytes (f : ℕ → BitVec 8) {i : ℕ} (h : i < 16) : (ofBytes f).byte i = f i := by
  have hword : ∀ j, (fourBytes f j).extractLsb' 0 8 = f (4 * j) ∧
      (fourBytes f j).extractLsb' 8 8 = f (4 * j + 1) ∧
      (fourBytes f j).extractLsb' 16 8 = f (4 * j + 2) ∧
      (fourBytes f j).extractLsb' 24 8 = f (4 * j + 3) := fun j => extract_append _ _ _ _
  interval_cases i <;> simp [M128.byte,M128.lane,ofBytes,hword]

/-- The bytes of a word in their order make the word. -/
theorem fourBytes_byte (v : M128) {j : ℕ} (h : j < 4) : fourBytes v.byte j = v.lane j := by
  have hbytes := append_bytes (v.lane j)
  interval_cases j <;> exact hbytes

end registers

section instructions

local instance fiveVariables : NeZero 5 := ⟨by decide⟩
local instance eightVariables : NeZero 8 := ⟨by decide⟩

def addEpi32 : M128 → M128 → M128 := map2 (· + ·)
def xorSi128 : M128 → M128 → M128 := map2 (· ^^^ ·)

def shuffleEpi32 (v : M128) (imm : ℕ) : M128 :=
  ⟨v.lane (imm % 4),v.lane (imm / 4 % 4),v.lane (imm / 16 % 4),v.lane (imm / 64 % 4)⟩

/-- A byte of the mask with its top bit set clears the byte. -/
def shuffleEpi8 (v mask : M128) : M128 := ofBytes fun i =>
  if (mask.byte i).msb then 0 else v.byte ((mask.byte i).toNat % 16)

def alignrEpi8 (a b : M128) (n : ℕ) : M128 := ofBytes fun i =>
  if i + n < 16 then b.byte (i + n) else if i + n < 32 then a.byte (i + n - 16) else 0

def blendEpi16 (a b : M128) (imm : ℕ) : M128 := ofBytes fun i =>
  if imm.testBit (i / 2) then b.byte i else a.byte i

/-- One round of SHA-1 with the function and constant that the operand chooses. -/
def sha1Quarter (imm : ℕ) (v : Vector (BitVec 32) 5) (w : BitVec 32) : Vector (BitVec 32) 5 :=
  #v[(v.get 0).rotateLeft 5 + sha1F (20 * imm) (v.get 1) (v.get 2) (v.get 3) + v.get 4 +
    sha1K (20 * imm) + w,v.get 0,(v.get 1).rotateLeft 30,v.get 2,v.get 3]

/-- The words of b with the variable e added to the first of them. -/
def sha1rnds4 (a b : M128) (imm : ℕ) : M128 :=
  let v := [b.x3,b.x2,b.x1,b.x0].foldl (sha1Quarter imm) #v[a.x3,a.x2,a.x1,a.x0,0]
  ⟨v.get 3,v.get 2,v.get 1,v.get 0⟩

def sha1nexte (a b : M128) : M128 := ⟨b.x0,b.x1,b.x2,b.x3 + a.x3.rotateLeft 30⟩

def sha1msg1 (a b : M128) : M128 := ⟨b.x2 ^^^ a.x0,b.x3 ^^^ a.x1,a.x0 ^^^ a.x2,a.x1 ^^^ a.x3⟩

def sha1msg2 (a b : M128) : M128 :=
  let w16 := (a.x3 ^^^ b.x2).rotateLeft 1
  ⟨(a.x0 ^^^ w16).rotateLeft 1,(a.x1 ^^^ b.x0).rotateLeft 1,(a.x2 ^^^ b.x1).rotateLeft 1,w16⟩

/-- One round of SHA-256 with the sum of the constant and the word of the schedule. -/
def sha256Half (v : Vector (BitVec 32) 8) (wk : BitVec 32) : Vector (BitVec 32) 8 :=
  let t1 := Ch (v.get 4) (v.get 5) (v.get 6) + sha256Functions.bigSigma1 (v.get 4) + wk + v.get 7
  #v[t1 + Maj (v.get 0) (v.get 1) (v.get 2) + sha256Functions.bigSigma0 (v.get 0),v.get 0,v.get 1,
    v.get 2,t1 + v.get 3,v.get 4,v.get 5,v.get 6]

/-- The first operand holds c, d, g and h, the second one a, b, e and f. -/
def sha256rnds2 (a b k : M128) : M128 :=
  let v := [k.x0,k.x1].foldl sha256Half #v[b.x3,b.x2,a.x3,a.x2,b.x1,b.x0,a.x1,a.x0]
  ⟨v.get 5,v.get 4,v.get 1,v.get 0⟩

def sha256msg1 (a b : M128) : M128 :=
  ⟨a.x0 + sha256Functions.smallSigma0 a.x1,a.x1 + sha256Functions.smallSigma0 a.x2,
    a.x2 + sha256Functions.smallSigma0 a.x3,a.x3 + sha256Functions.smallSigma0 b.x0⟩

def sha256msg2 (a b : M128) : M128 :=
  let w16 := a.x0 + sha256Functions.smallSigma1 b.x2
  let w17 := a.x1 + sha256Functions.smallSigma1 b.x3
  ⟨w16,w17,a.x2 + sha256Functions.smallSigma1 w16,a.x3 + sha256Functions.smallSigma1 w17⟩

end instructions

section bytes
variable {p : ℕ → UInt8} {data : List UInt8} {t : ℕ}

theorem ofBytes_congr {f g : ℕ → BitVec 8} (h : ∀ i < 16, f i = g i) : ofBytes f = ofBytes g := by
  have hword : ∀ j < 4, fourBytes f j = fourBytes g j := by
    intro j hj
    rw [fourBytes,h _ (by omega),h _ (by omega),h _ (by omega),h _ (by omega)]
    rfl
  rw [ofBytes,hword 0 (by norm_num),hword 1 (by norm_num),hword 2 (by norm_num),
    hword 3 (by norm_num)]
  rfl

/-- A mask whose bytes are places moves the bytes there. -/
theorem shuffleEpi8_ofBytes (f : ℕ → BitVec 8) {mask : M128} {place : ℕ → ℕ}
    (h : ∀ i < 16, (mask.byte i).msb = false ∧ (mask.byte i).toNat % 16 = place i) :
    shuffleEpi8 (ofBytes f) mask = ofBytes fun i => f (place i) := by
  refine ofBytes_congr fun i hi => ?_
  obtain ⟨hmsb,hplace⟩ := h i hi
  rw [hmsb,hplace]
  exact byte_ofBytes f (hplace ▸ Nat.mod_lt _ (by norm_num))

theorem fourBytes_eq_lane {f : ℕ → BitVec 8} {v : M128} {j k : ℕ} (hk : k < 4)
    (h : ∀ i < 4, f (4 * j + i) = v.byte (4 * k + i)) : fourBytes f j = v.lane k := by
  rw [← fourBytes_byte v hk,fourBytes,fourBytes,h 3 (by norm_num),h 2 (by norm_num),
    h 1 (by norm_num)]
  exact congrArg _ (h 0 (by norm_num))

/-- Shifting by whole words takes the upper words of b, and the lower ones of a behind them. -/
theorem alignr_lane (a b : M128) {j s : ℕ} (hj : j < 4) (hs : s ≤ 4) :
    fourBytes (fun i => if i + 4 * s < 16 then b.byte (i + 4 * s)
      else if i + 4 * s < 32 then a.byte (i + 4 * s - 16) else 0) j =
      if j + s < 4 then b.lane (j + s) else a.lane (j + s - 4) := by
  split
  · refine fourBytes_eq_lane (by omega) fun i hi => ?_
    rw [if_pos (by omega)]
    congr 1
    omega
  · refine fourBytes_eq_lane (by omega) fun i hi => ?_
    rw [if_neg (by omega),if_pos (by omega)]
    congr 1
    omega

theorem alignrEpi8_four (a b : M128) : alignrEpi8 a b 4 = ⟨b.x1,b.x2,b.x3,a.x0⟩ :=
  have hlane := fun j (hj : j < 4) => alignr_lane a b (s := 1) hj (by norm_num)
  M128.ext (hlane 0 (by norm_num)) (hlane 1 (by norm_num)) (hlane 2 (by norm_num))
    (hlane 3 (by norm_num))

theorem alignrEpi8_eight (a b : M128) : alignrEpi8 a b 8 = ⟨b.x2,b.x3,a.x0,a.x1⟩ :=
  have hlane := fun j (hj : j < 4) => alignr_lane a b (s := 2) hj (by norm_num)
  M128.ext (hlane 0 (by norm_num)) (hlane 1 (by norm_num)) (hlane 2 (by norm_num))
    (hlane 3 (by norm_num))

theorem blendEpi16_upper (a b : M128) : blendEpi16 a b 0xF0 = ⟨a.x0,a.x1,b.x2,b.x3⟩ := by
  have hbit : ∀ i < 16, (0xF0).testBit (i / 2) = decide (8 ≤ i) := by decide
  have hlower : ∀ j < 2, fourBytes (fun i => if (0xF0).testBit (i / 2) then b.byte i else a.byte i) j =
      a.lane j := by
    intro j hj
    refine fourBytes_eq_lane (by omega) fun i hi => ?_
    rw [hbit _ (by omega),if_neg (by simp; omega)]
  have hupper : ∀ j < 4, 2 ≤ j →
      fourBytes (fun i => if (0xF0).testBit (i / 2) then b.byte i else a.byte i) j = b.lane j := by
    intro j hj hle
    refine fourBytes_eq_lane hj fun i hi => ?_
    rw [hbit _ (by omega),if_pos (by simp; omega)]
  exact M128.ext (hlower 0 (by norm_num)) (hlower 1 (by norm_num))
    (hupper 2 (by norm_num) (by norm_num)) (hupper 3 (by norm_num) (by norm_num))

theorem append_eq_ofNat (a b c d : UInt8) :
    a.toBitVec ++ b.toBitVec ++ c.toBitVec ++ d.toBitVec =
      BitVec.ofNat 32 (bigEndianValue [a,b,c,d]) := by
  have hshift : ∀ (n : ℕ) (b : UInt8), n <<< 8 ||| b.toNat = 256 * n + b.toNat := by
    intro n b
    rw [← Nat.shiftLeft_add_eq_or_of_lt b.toNat_lt,Nat.shiftLeft_eq]
    ring
  apply BitVec.eq_of_toNat_eq
  rw [BitVec.toNat_append,BitVec.toNat_append,BitVec.toNat_append,BitVec.toNat_ofNat]
  simp only [UInt8.toNat_toBitVec,hshift,bigEndianValue,List.foldl_cons,List.foldl_nil]
  have ha := a.toNat_lt
  have hb := b.toNat_lt
  have hc := c.toNat_lt
  have hd := d.toNat_lt
  omega

/-- A word of a block by the bytes in memory. -/
theorem word_eq_append (h : ∀ i < 4, data[4 * t + i]? = some (p (4 * t + i))) :
    word 32 bigEndianValue data t = (p (4 * t)).toBitVec ++ (p (4 * t + 1)).toBitVec ++
      (p (4 * t + 2)).toBitVec ++ (p (4 * t + 3)).toBitVec := by
  have hbytes : (data.drop (4 * t)).take 4 =
      [p (4 * t),p (4 * t + 1),p (4 * t + 2),p (4 * t + 3)] := by
    refine List.ext_getElem? fun i => ?_
    rw [List.getElem?_take,List.getElem?_drop]
    by_cases hi : i < 4
    · rw [if_pos hi,h i hi]
      interval_cases i <;> rfl
    · rw [if_neg hi]
      exact (List.getElem?_eq_none (by simpa using hi)).symm
  rw [append_eq_ofNat,word,hbytes]

end bytes

section sha1

local instance sha1Variables : NeZero 5 := ⟨by decide⟩

variable {m : ℕ → BitVec 32}

/-- The rounds 4k to 4k + 3. -/
def fourRounds {σ : Type} (round : σ → ℕ → σ) (v : σ) (k : ℕ) : σ :=
  [4 * k,4 * k + 1,4 * k + 2,4 * k + 3].foldl round v

theorem foldl_fourRounds {σ : Type} (round : σ → ℕ → σ) (v : σ) (n : ℕ) :
    (List.range (4 * n)).foldl round v = (List.range n).foldl (fourRounds round) v := by
  induction n with
  | zero => rfl
  | succ n ih =>
    rw [List.range_succ,List.foldl_concat,← ih,Nat.mul_succ,List.range_add,List.foldl_append]
    rfl

variable (m) in
/-- Four words of the schedule, the first of them on top. -/
def sha1Words (k : ℕ) : M128 :=
  ⟨sha1W m (4 * k + 3),sha1W m (4 * k + 2),sha1W m (4 * k + 1),sha1W m (4 * k)⟩

/-- The variables a to d, the first of them on top. -/
def abcdOf (v : Vector (BitVec 32) 5) : M128 := ⟨v.get 3,v.get 2,v.get 1,v.get 0⟩

/-- What is left for the first round to add. -/
def withE (e : BitVec 32) (b : M128) : M128 := { b with x3 := b.x3 + e }

theorem sha1nexte_eq (a b : M128) : sha1nexte a b = withE (a.x3.rotateLeft 30) b := rfl

theorem addEpi32_top (e : BitVec 32) (b : M128) : addEpi32 ⟨0,0,0,e⟩ b = withE e b := by
  have hzero : ∀ x : BitVec 32, 0 + x = x := BitVec.zero_add
  exact M128.ext (hzero _) (hzero _) (hzero _) (BitVec.add_comm e b.x3)

theorem sha1F_eq {t imm : ℕ} (h : t / 20 = imm) : sha1F t = sha1F (20 * imm) := by
  funext x y z
  simp only [sha1F,show t < 20 ↔ 20 * imm < 20 by omega,show t < 40 ↔ 20 * imm < 40 by omega,
    show t < 60 ↔ 20 * imm < 60 by omega]

theorem sha1K_eq {t imm : ℕ} (h : t / 20 = imm) : sha1K t = sha1K (20 * imm) := by
  simp only [sha1K,show t < 20 ↔ 20 * imm < 20 by omega,show t < 40 ↔ 20 * imm < 40 by omega,
    show t < 60 ↔ 20 * imm < 60 by omega]

theorem sha1Quarter_eq {t imm : ℕ} (h : t / 20 = imm) (v : Vector (BitVec 32) 5) :
    sha1Quarter imm v (sha1W m t) = sha1Round m v t := by
  rw [sha1Quarter,sha1Round,← sha1F_eq h,← sha1K_eq h]
  rfl

/-- The variable e may come with the word instead. -/
theorem sha1Quarter_withE {t imm : ℕ} (h : t / 20 = imm) (v : Vector (BitVec 32) 5) :
    sha1Quarter imm #v[v.get 0,v.get 1,v.get 2,v.get 3,0] (sha1W m t + v.get 4) = sha1Round m v t := by
  have hsum : (v.get 0).rotateLeft 5 + sha1F (20 * imm) (v.get 1) (v.get 2) (v.get 3) + 0#32 +
      sha1K (20 * imm) + (sha1W m t + v.get 4) =
      (v.get 0).rotateLeft 5 + sha1F t (v.get 1) (v.get 2) (v.get 3) + v.get 4 + sha1K t +
        sha1W m t := by
    rw [← sha1F_eq h,← sha1K_eq h,BitVec.add_zero]
    ac_rfl
  exact congrArg (fun a => #v[a,v.get 0,(v.get 1).rotateLeft 30,v.get 2,v.get 3]) hsum

theorem sha1rnds4_rounds (k : ℕ) (v : Vector (BitVec 32) 5) :
    sha1rnds4 (abcdOf v) (withE (v.get 4) (sha1Words m k)) (k / 5) =
      abcdOf (fourRounds (sha1Round m) v k) := by
  have hrounds : [sha1W m (4 * k) + v.get 4,sha1W m (4 * k + 1),sha1W m (4 * k + 2),
      sha1W m (4 * k + 3)].foldl (sha1Quarter (k / 5)) #v[v.get 0,v.get 1,v.get 2,v.get 3,0] =
      fourRounds (sha1Round m) v k := by
    rw [List.foldl_cons,sha1Quarter_withE (by omega),List.foldl_cons,sha1Quarter_eq (by omega),
      List.foldl_cons,sha1Quarter_eq (by omega),List.foldl_cons,sha1Quarter_eq (by omega)]
    rfl
  exact congrArg abcdOf hrounds

theorem fourRounds_e (k : ℕ) (v : Vector (BitVec 32) 5) :
    (fourRounds (sha1Round m) v k).get 4 = (v.get 0).rotateLeft 30 := rfl

/-- The next four words from the sixteen before them. -/
theorem sha1Words_next (n : ℕ) :
    sha1msg2 (xorSi128 (sha1msg1 (sha1Words m n) (sha1Words m (n + 1))) (sha1Words m (n + 2)))
      (sha1Words m (n + 3)) = sha1Words m (n + 4) := by
  have hW : ∀ i, (sha1W m (4 * n + 2 + i) ^^^ sha1W m (4 * n + i) ^^^ sha1W m (4 * n + 8 + i) ^^^
      sha1W m (4 * n + 13 + i)).rotateLeft 1 = sha1W m (4 * n + 16 + i) := by
    intro i
    rw [sha1W.eq_def m (4 * n + 16 + i),if_neg (by omega),
      show 4 * n + 16 + i - 3 = 4 * n + 13 + i by omega,
      show 4 * n + 16 + i - 8 = 4 * n + 8 + i by omega,
      show 4 * n + 16 + i - 14 = 4 * n + 2 + i by omega,
      show 4 * n + 16 + i - 16 = 4 * n + i by omega]
    congr 1
    ac_rfl
  have h16 : (sha1W m (4 * n + 2) ^^^ sha1W m (4 * n) ^^^ sha1W m (4 * n + 8) ^^^
      sha1W m (4 * n + 13)).rotateLeft 1 = sha1W m (4 * n + 16) := hW 0
  have h19 : (sha1W m (4 * n + 5) ^^^ sha1W m (4 * n + 3) ^^^ sha1W m (4 * n + 11) ^^^
      (sha1W m (4 * n + 2) ^^^ sha1W m (4 * n) ^^^ sha1W m (4 * n + 8) ^^^
        sha1W m (4 * n + 13)).rotateLeft 1).rotateLeft 1 = sha1W m (4 * n + 19) := by
    rw [h16]
    exact hW 3
  simp only [sha1msg2,xorSi128,map2,sha1msg1,sha1Words,Nat.mul_add,Nat.add_assoc,Nat.reduceMul,
    Nat.reduceAdd]
  exact M128.ext h19 (hW 2) (hW 1) h16

end sha1

section sha256

local instance sha256Variables : NeZero 8 := ⟨by decide⟩

variable {m : ℕ → BitVec 32}

variable (m) in
/-- Four words of the schedule, the first of them lowest. -/
def sha256Words (k : ℕ) : M128 :=
  ⟨sha256Functions.W m (4 * k),sha256Functions.W m (4 * k + 1),sha256Functions.W m (4 * k + 2),
    sha256Functions.W m (4 * k + 3)⟩

/-- The variables a, b, e and f, and the others, the first of them on top. -/
def abefOf (v : Vector (BitVec 32) 8) : M128 := ⟨v.get 5,v.get 4,v.get 1,v.get 0⟩
def cdghOf (v : Vector (BitVec 32) 8) : M128 := ⟨v.get 7,v.get 6,v.get 3,v.get 2⟩

theorem sha256Half_eq (v : Vector (BitVec 32) 8) (t : ℕ) :
    sha256Half v (sha256Functions.W m t + sha2K 32 t) = sha256Functions.round m v t := by
  have ht1 : Ch (v.get 4) (v.get 5) (v.get 6) + sha256Functions.bigSigma1 (v.get 4) +
      (sha256Functions.W m t + sha2K 32 t) + v.get 7 =
      v.get 7 + sha256Functions.bigSigma1 (v.get 4) + Ch (v.get 4) (v.get 5) (v.get 6) + sha2K 32 t +
        sha256Functions.W m t := by
    ac_rfl
  have ha : Ch (v.get 4) (v.get 5) (v.get 6) + sha256Functions.bigSigma1 (v.get 4) +
      (sha256Functions.W m t + sha2K 32 t) + v.get 7 + Maj (v.get 0) (v.get 1) (v.get 2) +
        sha256Functions.bigSigma0 (v.get 0) =
      v.get 7 + sha256Functions.bigSigma1 (v.get 4) + Ch (v.get 4) (v.get 5) (v.get 6) + sha2K 32 t +
        sha256Functions.W m t +
          (sha256Functions.bigSigma0 (v.get 0) + Maj (v.get 0) (v.get 1) (v.get 2)) := by
    ac_rfl
  have he : Ch (v.get 4) (v.get 5) (v.get 6) + sha256Functions.bigSigma1 (v.get 4) +
      (sha256Functions.W m t + sha2K 32 t) + v.get 7 + v.get 3 =
      v.get 3 + (v.get 7 + sha256Functions.bigSigma1 (v.get 4) + Ch (v.get 4) (v.get 5) (v.get 6) +
        sha2K 32 t + sha256Functions.W m t) := by
    ac_rfl
  exact congrArg₂ (fun a e => #v[a,v.get 0,v.get 1,v.get 2,e,v.get 4,v.get 5,v.get 6]) ha he

/-- Two rounds, after which the old variables a, b, e and f are c, d, g and h. -/
theorem sha256rnds2_rounds (v : Vector (BitVec 32) 8) {t : ℕ} {k : M128}
    (h0 : k.x0 = sha256Functions.W m t + sha2K 32 t)
    (h1 : k.x1 = sha256Functions.W m (t + 1) + sha2K 32 (t + 1)) :
    sha256rnds2 (cdghOf v) (abefOf v) k =
        abefOf (sha256Functions.round m (sha256Functions.round m v t) (t + 1)) ∧
      cdghOf (sha256Functions.round m (sha256Functions.round m v t) (t + 1)) = abefOf v := by
  have hrounds : [k.x0,k.x1].foldl sha256Half v =
      sha256Functions.round m (sha256Functions.round m v t) (t + 1) := by
    rw [h0,h1,List.foldl_cons,sha256Half_eq,List.foldl_cons,sha256Half_eq]
    rfl
  exact ⟨congrArg abefOf hrounds,rfl⟩

/-- The next four words from the sixteen before them. -/
theorem sha256Words_next (n : ℕ) :
    sha256msg2 (addEpi32 (sha256msg1 (sha256Words m n) (sha256Words m (n + 1)))
      (alignrEpi8 (sha256Words m (n + 3)) (sha256Words m (n + 2)) 4)) (sha256Words m (n + 3)) =
      sha256Words m (n + 4) := by
  have hW : ∀ i, sha256Functions.W m (4 * n + i) +
      sha256Functions.smallSigma0 (sha256Functions.W m (4 * n + 1 + i)) +
      sha256Functions.W m (4 * n + 9 + i) +
      sha256Functions.smallSigma1 (sha256Functions.W m (4 * n + 14 + i)) =
      sha256Functions.W m (4 * n + 16 + i) := by
    intro i
    rw [Sha2.W.eq_def sha256Functions m (4 * n + 16 + i),if_neg (by omega),
      show 4 * n + 16 + i - 2 = 4 * n + 14 + i by omega,
      show 4 * n + 16 + i - 7 = 4 * n + 9 + i by omega,
      show 4 * n + 16 + i - 15 = 4 * n + 1 + i by omega,
      show 4 * n + 16 + i - 16 = 4 * n + i by omega]
    ac_rfl
  have h16 := hW 0
  have h17 := hW 1
  have h18 := hW 2
  have h19 := hW 3
  rw [alignrEpi8_four]
  simp only [Nat.add_assoc,Nat.reduceAdd,Nat.add_zero] at h16 h17 h18 h19
  simp only [sha256msg2,addEpi32,map2,sha256msg1,sha256Words,Nat.mul_add,Nat.add_assoc,
    Nat.reduceMul,Nat.reduceAdd,h16,h17,h18,h19]

end sha256

section code
variable {ρ : Type}

/-- An instruction with the names of its registers, the destination first. -/
inductive Instr (ρ : Type) where
  | loaduSi128 (dst : ρ) (offset : ℕ)
  | mov (dst a : ρ)
  | shuffleEpi8 (dst a : ρ) (mask : M128)
  | shuffleEpi32 (dst a : ρ) (imm : ℕ)
  | alignrEpi8 (dst a b : ρ) (n : ℕ)
  | blendEpi16 (dst a b : ρ) (imm : ℕ)
  | addEpi32 (dst a b : ρ)
  | addConst (dst a : ρ) (c : M128)
  | xorSi128 (dst a b : ρ)
  | sha1rnds4 (dst a b : ρ) (imm : ℕ)
  | sha1nexte (dst a b : ρ)
  | sha1msg1 (dst a b : ρ)
  | sha1msg2 (dst a b : ρ)
  | sha256rnds2 (dst a b k : ρ)
  | sha256msg1 (dst a b : ρ)
  | sha256msg2 (dst a b : ρ)
  deriving DecidableEq

def Instr.dst : Instr ρ → ρ
  | .loaduSi128 d _ | .mov d _ | .shuffleEpi8 d _ _ | .shuffleEpi32 d _ _ | .alignrEpi8 d _ _ _
  | .blendEpi16 d _ _ _ | .addEpi32 d _ _ | .addConst d _ _ | .xorSi128 d _ _
  | .sha1rnds4 d _ _ _ | .sha1nexte d _ _ | .sha1msg1 d _ _ | .sha1msg2 d _ _
  | .sha256rnds2 d _ _ _ | .sha256msg1 d _ _ | .sha256msg2 d _ _ => d

/-- What an instruction writes, from the registers and the memory it reads. -/
def Instr.value (p : ℕ → UInt8) (r : ρ → M128) : Instr ρ → M128
  | .loaduSi128 _ offset => ofBytes fun i => (p (offset + i)).toBitVec
  | .mov _ a => r a
  | .shuffleEpi8 _ a mask => ShaInstructions.shuffleEpi8 (r a) mask
  | .shuffleEpi32 _ a imm => ShaInstructions.shuffleEpi32 (r a) imm
  | .alignrEpi8 _ a b n => ShaInstructions.alignrEpi8 (r a) (r b) n
  | .blendEpi16 _ a b imm => ShaInstructions.blendEpi16 (r a) (r b) imm
  | .addEpi32 _ a b => ShaInstructions.addEpi32 (r a) (r b)
  | .addConst _ a c => ShaInstructions.addEpi32 (r a) c
  | .xorSi128 _ a b => ShaInstructions.xorSi128 (r a) (r b)
  | .sha1rnds4 _ a b imm => ShaInstructions.sha1rnds4 (r a) (r b) imm
  | .sha1nexte _ a b => ShaInstructions.sha1nexte (r a) (r b)
  | .sha1msg1 _ a b => ShaInstructions.sha1msg1 (r a) (r b)
  | .sha1msg2 _ a b => ShaInstructions.sha1msg2 (r a) (r b)
  | .sha256rnds2 _ a b k => ShaInstructions.sha256rnds2 (r a) (r b) (r k)
  | .sha256msg1 _ a b => ShaInstructions.sha256msg1 (r a) (r b)
  | .sha256msg2 _ a b => ShaInstructions.sha256msg2 (r a) (r b)

variable [DecidableEq ρ]

def exec (p : ℕ → UInt8) (r : ρ → M128) (i : Instr ρ) : ρ → M128 :=
  Function.update r i.dst (i.value p r)

/-- The registers after straight-line code that reads from a place in memory. -/
def run (p : ℕ → UInt8) (code : List (Instr ρ)) (r : ρ → M128) : ρ → M128 := code.foldl (exec p) r

@[simp] theorem run_nil (p : ℕ → UInt8) (r : ρ → M128) : run p [] r = r := rfl

@[simp] theorem run_cons (p : ℕ → UInt8) (i : Instr ρ) (code : List (Instr ρ)) (r : ρ → M128) :
    run p (i :: code) r = run p code (exec p r i) := rfl

theorem run_append (p : ℕ → UInt8) (code rest : List (Instr ρ)) (r : ρ → M128) :
    run p (code ++ rest) r = run p rest (run p code r) := List.foldl_append

/-- An instruction that stands there only under a condition. -/
def optional (c : Prop) [Decidable c] (code : List (Instr ρ)) : List (Instr ρ) :=
  if c then code else []

/-- Groups of instructions, each from what the one before it establishes. -/
theorem run_groups {p : ℕ → UInt8} {group : ℕ → List (Instr ρ)} {I : ℕ → (ρ → M128) → Prop}
    {n : ℕ} (hstep : ∀ k < n, ∀ r, I k r → I (k + 1) (run p (group k) r)) {r : ρ → M128}
    (h : I 0 r) : I n (run p ((List.range n).flatMap group) r) := by
  induction n with
  | zero => exact h
  | succ n ih =>
    rw [List.range_succ,List.flatMap_append,run_append,List.flatMap_singleton]
    exact hstep n n.lt_succ_self _ (ih fun k hk => hstep k (hk.trans n.lt_succ_self))

end code

end SecureWipeOut.ShaInstructions
