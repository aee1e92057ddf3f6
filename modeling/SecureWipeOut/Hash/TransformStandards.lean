import SecureWipeOut.Hash.StepLinesShift
import SecureWipeOut.Hash.TransformWords
import SecureWipeOut.Lib.DigestConstants

/-! # The transforms meet the standards

The circular schedule holds the last sixteen words of the whole one, and a round does the
same to the chaining words cut down to 32 bits. What stands in their upper halves is not
looked at.
-/
namespace SecureWipeOut.Hash
open DigestStandards WordRotation Loop

section schedule
variable {W : ℕ → BitVec 32} {i : ℕ} {x : Vector UInt32 16}

/-- Before round i the slots hold the last sixteen words of the schedule. -/
def Rolling (W : ℕ → BitVec 32) (i : ℕ) (x : Vector UInt32 16) : Prop :=
  ∀ u < max i 16, max i 16 ≤ u + 16 → (slot x u).toBitVec = W u

theorem rolling_start (h : ∀ k : Fin 16, (x.get k).toBitVec = W k) : Rolling W 0 x := by
  intro u hu _
  have hlt : u < 16 := by omega
  exact (congrArg UInt32.toBitVec (slot_eq_get ⟨u,hlt⟩)).trans (h ⟨u,hlt⟩)

theorem rolling_given (hi : i < 16) (h : Rolling W i x) : Rolling W (i + 1) x := by
  intro u hu hle
  exact h u (by omega) (by omega)

/-- The word that is as far behind as the schedule reaches stands in the slot of the next one. -/
theorem rolling_get (h : Rolling W i x) (hi : 16 ≤ i) {d : ℕ} (h0 : 0 < d) (hd : d ≤ 16) :
    (slot x (i - d)).toBitVec = W (i - d) :=
  h (i - d) (by omega) (by omega)

theorem rolling_oldest (h : Rolling W i x) (hi : 16 ≤ i) : (slot x i).toBitVec = W (i - 16) := by
  have hslot : slot x i = slot x (i - 16) := slot_congr (by omega)
  rw [hslot]
  exact rolling_get h hi (by norm_num) le_rfl

theorem rolling_set (h : Rolling W i x) (hi : 16 ≤ i) {v : UInt32} (hv : v.toBitVec = W i) :
    Rolling W (i + 1) (setSlot x i v) := by
  intro u hu hle
  by_cases hui : u = i
  · subst hui
    rw [slot_setSlot_self,hv]
  · rw [slot_setSlot_ne v (by omega)]
    exact h u (by omega) (by omega)

/-- The word of the round that has just been prepared. -/
theorem rolling_newest (h : Rolling W (i + 1) x) : (slot x i).toBitVec = W i :=
  h i (by omega) (by omega)

theorem sha1Schedule_rolling {m : ℕ → BitVec 32} (h : Rolling (sha1W m) i x) :
    Rolling (sha1W m) (i + 1) (sha1Schedule i x) := by
  by_cases hi : i < 16
  · rw [sha1Schedule,if_pos hi]
    exact rolling_given hi h
  · rw [sha1Schedule_of_le hi]
    have hi' : 16 ≤ i := by omega
    refine rolling_set h hi' ?_
    rw [toBitVec_rol32 _ 1 (by decide) (by decide),sha1W,if_neg hi,UInt32.toBitVec_xor,
      UInt32.toBitVec_xor,UInt32.toBitVec_xor,rolling_oldest h hi',
      rolling_get h hi' (by norm_num) (by norm_num),rolling_get h hi' (by norm_num) (by norm_num),
      rolling_get h hi' (by norm_num) (by norm_num)]
    congr 1
    ac_rfl

theorem sha256Schedule_rolling {m : ℕ → BitVec 32} (h : Rolling (sha256Functions.W m) i x) :
    Rolling (sha256Functions.W m) (i + 1) (sha256Schedule i x) := by
  by_cases hi : i < 16
  · rw [sha256Schedule,if_pos hi]
    exact rolling_given hi h
  · rw [sha256Schedule_of_le hi]
    have hi' : 16 ≤ i := by omega
    refine rolling_set h hi' ?_
    rw [Sha2.W,if_neg hi,UInt32.toBitVec_add,UInt32.toBitVec_add,UInt32.toBitVec_add,
      toBitVec_smallS1,toBitVec_smallS0,rolling_oldest h hi',
      rolling_get h hi' (by norm_num) (by norm_num),rolling_get h hi' (by norm_num) (by norm_num),
      rolling_get h hi' (by norm_num) (by norm_num)]
    ac_rfl

/-- The first n words of the array are those of the schedule. -/
def Filled (W : ℕ → BitVec 64) (n : ℕ) (w : Array UInt64) : Prop :=
  w.size = n ∧ ∀ t < n, (w.getD t 0).toBitVec = W t

theorem filled_push {W : ℕ → BitVec 64} {n : ℕ} {w : Array UInt64} {v : UInt64}
    (h : Filled W n w) (hv : v.toBitVec = W n) : Filled W (n + 1) (w.push v) := by
  obtain ⟨hsize,hword⟩ := h
  refine ⟨by rw [Array.size_push,hsize],fun t ht => ?_⟩
  by_cases htn : t = n
  · subst htn hsize
    simpa using hv
  · have hlt : t < w.size := by omega
    have hget : (w.push v).getD t 0 = w.getD t 0 := by
      simp [Array.getElem?_push,show t ≠ w.size by omega]
    rw [hget]
    exact hword t (by omega)

theorem sha512Schedule_filled (data : Vector UInt8 128) :
    Filled (sha512Functions.W (word 64 bigEndianValue data.toList)) 80 (sha512Schedule data) := by
  refine lockstep (R := fun n w (_ : Unit) =>
    Filled (sha512Functions.W (word 64 bigEndianValue data.toList)) n w) (g := fun u _ => u)
    (b := ()) ⟨rfl,fun t ht => absurd ht (by omega)⟩ fun i _ w _ h => ?_
  refine filled_push h ?_
  obtain ⟨-,hword⟩ := h
  rw [Sha2.W]
  by_cases hi : i < 16
  · rw [dif_pos hi,if_pos hi]
    exact toBitVec_readSwap64 data ⟨i,hi⟩
  · rw [dif_neg hi,if_neg hi,UInt64.toBitVec_add,UInt64.toBitVec_add,UInt64.toBitVec_add,
      toBitVec_smallS1w,toBitVec_smallS0w,hword _ (by omega),hword _ (by omega),
      hword _ (by omega),hword _ (by omega)]

end schedule

section constants

/-- The first eighty primes. -/
def primes : List ℕ :=
  [2,3,5,7,11,13,17,19,23,29,31,37,41,43,47,53,59,61,67,71,73,79,83,89,97,101,103,107,109,113,
   127,131,137,139,149,151,157,163,167,173,179,181,191,193,197,199,211,223,227,229,233,239,241,
   251,257,263,269,271,277,281,283,293,307,311,313,317,331,337,347,349,353,359,367,373,379,383,
   389,397,401,409]

/-- The integer part of the cube root of a prime. -/
def cubeRoot (p : ℕ) : ℕ := (List.range 8).countP fun c => decide ((c + 1) ^ 3 ≤ p)

theorem k256_digits : ((List.range 64).all fun t => CubeRootDigits 32 t (primes.getD t 0)
    (cubeRoot (primes.getD t 0) * 2 ^ 32 + (k256.toList.getD t 0).toNat)) = true := by
  decide +kernel

theorem k512_digits : ((List.range 80).all fun t => CubeRootDigits 64 t (primes.getD t 0)
    (cubeRoot (primes.getD t 0) * 2 ^ 64 + (k512.toList.getD t 0).toNat)) = true := by
  decide +kernel

theorem md5Steps_digits :
    ((List.range 64).all fun t => SineDigits (t + 1) (md5StepAt t).2.2.1.toNat) = true := by
  decide +kernel

theorem ofNat_mul_add (w c n : ℕ) : BitVec.ofNat w (c * 2 ^ w + n) = BitVec.ofNat w n := by
  apply BitVec.eq_of_toNat_eq
  rw [BitVec.toNat_ofNat,BitVec.toNat_ofNat,Nat.mul_add_mod_self_right]

theorem toBitVec_k256 (t : Fin 64) : (k256.get t).toBitVec = sha2K 32 t := by
  have hdigits := List.all_eq_true.mp k256_digits t (List.mem_range.mpr t.isLt)
  rw [sha2K_eq hdigits,ofNat_mul_add]
  simp [Vector.get]

theorem toBitVec_k512 (t : Fin 80) : (k512.get t).toBitVec = sha2K 64 t := by
  have hdigits := List.all_eq_true.mp k512_digits t (List.mem_range.mpr t.isLt)
  rw [sha2K_eq hdigits,ofNat_mul_add]
  simp [Vector.get]

theorem toBitVec_md5Constant {t : ℕ} (h : t < 64) : (md5StepAt t).2.2.1.toBitVec = md5T t := by
  have hdigits := List.all_eq_true.mp md5Steps_digits t (List.mem_range.mpr h)
  rw [md5T_eq hdigits]
  simp

/-- The function, word and rotation of each step. -/
theorem md5Steps_args : (List.range 64).map (fun t =>
    ((md5StepAt t).1,(md5StepAt t).2.1.val,(md5StepAt t).2.2.2.toNat)) =
    (List.range 64).map fun t =>
      (if t < 16 then .f1 else if t < 32 then .f2 else if t < 48 then .f3 else .f4,md5X t,md5S t) := rfl

theorem md5StepAt_args {t : ℕ} (h : t < 64) :
    (md5StepAt t).1 =
      (if t < 16 then .f1 else if t < 32 then .f2 else if t < 48 then .f3 else .f4) ∧
      (md5StepAt t).2.1.val = md5X t ∧ (md5StepAt t).2.2.2.toNat = md5S t := by
  have hargs := List.map_inj_left.mp md5Steps_args t (List.mem_range.mpr h)
  exact ⟨congrArg Prod.fst hargs,congrArg (fun p => p.2.1) hargs,congrArg (fun p => p.2.2) hargs⟩

theorem md5S_bounds : ∀ t < 64, 0 < md5S t ∧ md5S t < 32 := by
  decide

end constants

section functions
variable (x y z : UInt32)

theorem toBitVec_ch : (ch x y z).toBitVec = Ch x.toBitVec y.toBitVec z.toBitVec :=
  choose_eq_xor x.toBitVec y.toBitVec z.toBitVec

theorem toBitVec_ma : (ma x y z).toBitVec = Maj x.toBitVec y.toBitVec z.toBitVec :=
  majority_eq_xor x.toBitVec y.toBitVec z.toBitVec

theorem toBitVec_chw (x y z : UInt64) : (ch x y z).toBitVec = Ch x.toBitVec y.toBitVec z.toBitVec :=
  choose_eq_xor x.toBitVec y.toBitVec z.toBitVec

theorem toBitVec_maw (x y z : UInt64) : (ma x y z).toBitVec = Maj x.toBitVec y.toBitVec z.toBitVec :=
  majority_eq_xor x.toBitVec y.toBitVec z.toBitVec

theorem toBitVec_sha1Round (t : ℕ) : (sha1Round t x y z).toBitVec =
    sha1F t x.toBitVec y.toBitVec z.toBitVec + sha1K t := by
  unfold sha1Round sha1F sha1K
  split
  · rw [UInt32.toBitVec_add,toBitVec_ch]
    rfl
  · split
    · rfl
    · split
      · rw [UInt32.toBitVec_add,toBitVec_ma]
        rfl
      · rfl

theorem toBitVec_md5F {t : ℕ} (h : t < 64) : ((md5StepAt t).1.eval x y z).toBitVec =
    md5F t x.toBitVec y.toBitVec z.toBitVec := by
  obtain ⟨hf,-,-⟩ := md5StepAt_args h
  rw [hf]
  unfold md5F
  split
  · exact choose_eq_or x.toBitVec y.toBitVec z.toBitVec
  · split
    · refine (choose_eq_or z.toBitVec x.toBitVec y.toBitVec).trans ?_
      rw [BitVec.and_comm,BitVec.and_comm (~~~z.toBitVec)]
    · split <;> rfl

end functions

section rounds

theorem get_ofFn {α : Type} {n : ℕ} (f : Fin n → α) (k : Fin n) : (Vector.ofFn f).get k = f k :=
  Vector.getElem_ofFn k.isLt

def bits4 (r : Regs4) : Vector (BitVec 32) 4 :=
  #v[r.a.toBitVec,r.b.toBitVec,r.c.toBitVec,r.d.toBitVec]

def bits5 (r : Regs5) : Vector (BitVec 32) 5 :=
  #v[r.a.toBitVec,r.b.toBitVec,r.c.toBitVec,r.d.toBitVec,r.e.toBitVec]

/-- The variables as words of bits, by the way one of them is read. -/
def bits8 {α : Type} {w : ℕ} (bits : α → BitVec w) (r : Regs8 α) : Vector (BitVec w) 8 :=
  #v[bits r.a,bits r.b,bits r.c,bits r.d,bits r.e,bits r.f,bits r.g,bits r.h]

theorem sha1Step_bits {m : ℕ → BitVec 32} {i : ℕ} {w : UInt32} (hw : w.toBitVec = sha1W m i)
    (r : Regs5) : bits5 (sha1Step i w r) = DigestStandards.sha1Round m (bits5 r) i := by
  have ha : (r.e + (rol32 r.a 5 + sha1Round i r.b r.c r.d + w)).toBitVec =
      r.a.toBitVec.rotateLeft 5 + sha1F i r.b.toBitVec r.c.toBitVec r.d.toBitVec +
        r.e.toBitVec + sha1K i + sha1W m i := by
    rw [UInt32.toBitVec_add,UInt32.toBitVec_add,UInt32.toBitVec_add,toBitVec_sha1Round,hw,
      toBitVec_rol32 _ 5 (by decide) (by decide)]
    simp only [UInt32.reduceToNat]
    ac_rfl
  have hb : (rol32 r.b 30).toBitVec = r.b.toBitVec.rotateLeft 30 :=
    toBitVec_rol32 r.b 30 (by decide) (by decide)
  exact congrArg₂ (fun a b => #v[a,r.a.toBitVec,b,r.c.toBitVec,r.d.toBitVec]) ha hb

/-- A step on words that are read as words of bits with the same operations. -/
theorem sha2Step_bits {α : Type} [Add α] [XorOp α] [AndOp α] [OrOp α] {w : ℕ} (f : Sha2 w)
    {bits : α → BitVec w} {bigS0 bigS1 kw : α → α} {m : ℕ → BitVec w} {i : ℕ}
    (hadd : ∀ x y, bits (x + y) = bits x + bits y)
    (hch : ∀ x y z, bits (ch x y z) = Ch (bits x) (bits y) (bits z))
    (hma : ∀ x y z, bits (ma x y z) = Maj (bits x) (bits y) (bits z))
    (hS0 : ∀ x, bits (bigS0 x) = f.bigSigma0 (bits x))
    (hS1 : ∀ x, bits (bigS1 x) = f.bigSigma1 (bits x))
    (hkw : ∀ x, bits (kw x) = bits x + sha2K w i + f.W m i) (r : Regs8 α) :
    bits8 bits (sha2Step bigS0 bigS1 kw r) = f.round m (bits8 bits r) i := by
  have ht1 : bits (r.h + kw (bigS1 r.e + ch r.e r.f r.g)) =
      bits r.h + f.bigSigma1 (bits r.e) + Ch (bits r.e) (bits r.f) (bits r.g) + sha2K w i +
        f.W m i := by
    rw [hadd,hkw,hadd,hS1,hch]
    ac_rfl
  have ha : bits (r.h + kw (bigS1 r.e + ch r.e r.f r.g) + (bigS0 r.a + ma r.a r.b r.c)) =
      bits r.h + f.bigSigma1 (bits r.e) + Ch (bits r.e) (bits r.f) (bits r.g) + sha2K w i +
        f.W m i + (f.bigSigma0 (bits r.a) + Maj (bits r.a) (bits r.b) (bits r.c)) := by
    rw [hadd,ht1,hadd,hS0,hma]
  have he : bits (r.d + (r.h + kw (bigS1 r.e + ch r.e r.f r.g))) =
      bits r.d + (bits r.h + f.bigSigma1 (bits r.e) + Ch (bits r.e) (bits r.f) (bits r.g) +
        sha2K w i + f.W m i) := by
    rw [hadd,ht1]
  exact congrArg₂ (fun a e => #v[a,bits r.a,bits r.b,bits r.c,e,bits r.e,bits r.f,bits r.g]) ha he

theorem md5Step_bits {m : ℕ → BitVec 32} {x : Vector UInt32 16}
    (hx : ∀ k : Fin 16, (x.get k).toBitVec = m k) {t : ℕ} (ht : t < 64) (r : Regs4) :
    bits4 (md5Step x r (md5StepAt t)) = md5Round m (bits4 r) t := by
  obtain ⟨-,hword,hrot⟩ := md5StepAt_args ht
  obtain ⟨h0,h32⟩ := md5S_bounds t ht
  have hb : (rol32 (r.a + ((md5StepAt t).1.eval r.b r.c r.d +
      (x.get (md5StepAt t).2.1 + (md5StepAt t).2.2.1))) (md5StepAt t).2.2.2 + r.b).toBitVec =
      r.b.toBitVec + (r.a.toBitVec + md5F t r.b.toBitVec r.c.toBitVec r.d.toBitVec +
        m (md5X t) + md5T t).rotateLeft (md5S t) := by
    rw [UInt32.toBitVec_add,toBitVec_rol32 _ _ (by rwa [hrot]) (by rwa [hrot]),UInt32.toBitVec_add,
      UInt32.toBitVec_add,UInt32.toBitVec_add,toBitVec_md5F _ _ _ ht,hx,hword,hrot,
      toBitVec_md5Constant ht,BitVec.add_comm]
    congr 2
    ac_rfl
  exact congrArg (fun b => #v[r.d.toBitVec,b,r.b.toBitVec,r.c.toBitVec]) hb

theorem sha1Rounds_bits {m : ℕ → BitVec 32} {x : Vector UInt32 16}
    (hx : ∀ k : Fin 16, (x.get k).toBitVec = m k) (r : Regs5) :
    bits5 (sha1Rounds x r) = (List.range 80).foldl (DigestStandards.sha1Round m) (bits5 r) := by
  have hW : ∀ k : Fin 16, (x.get k).toBitVec = sha1W m k := by
    intro k
    rw [hx,sha1W,if_pos k.isLt]
  have h := lockstep
    (R := fun i (s : Vector UInt32 16 × Regs5) (v : Vector (BitVec 32) 5) =>
      Rolling (sha1W m) i s.1 ∧ bits5 s.2 = v)
    (a := (x,r)) (b := bits5 r) (n := 80)
    (f := fun s i => (sha1Schedule i s.1,sha1Step i (slot (sha1Schedule i s.1) i) s.2))
    (g := DigestStandards.sha1Round m) ⟨rolling_start hW,rfl⟩ ?_
  · exact h.2
  · rintro i - ⟨x,r⟩ v ⟨hroll,rfl⟩
    have hnext := sha1Schedule_rolling hroll
    exact ⟨hnext,sha1Step_bits (rolling_newest hnext) r⟩

theorem sha256Rounds_bits {m : ℕ → BitVec 32} {x : Vector UInt32 16}
    (hx : ∀ k : Fin 16, (x.get k).toBitVec = m k) (r : Regs8 UInt32) :
    bits8 UInt32.toBitVec (sha256Rounds x r) =
      (List.range 64).foldl (sha256Functions.round m) (bits8 UInt32.toBitVec r) := by
  have hW : ∀ k : Fin 16, (x.get k).toBitVec = sha256Functions.W m k := by
    intro k
    rw [hx,Sha2.W,if_pos k.isLt]
  have h := lockstep_finRange
    (R := fun i (v : Vector (BitVec 32) 8) (s : Vector UInt32 16 × Regs8 UInt32) =>
      Rolling (sha256Functions.W m) i s.1 ∧ bits8 UInt32.toBitVec s.2 = v)
    (a := bits8 UInt32.toBitVec r) (b := (x,r)) (n := 64) (f := sha256Functions.round m)
    (g := fun s i => (sha256Schedule i s.1,
      sha2Step bigS0 bigS1 (fun t => t + k256.get i + slot (sha256Schedule i s.1) i) s.2))
    ⟨rolling_start hW,rfl⟩ ?_
  · exact h.2
  · rintro i v ⟨x,r⟩ ⟨hroll,rfl⟩
    have hnext := sha256Schedule_rolling hroll
    have hkw : ∀ t : UInt32, (t + k256.get i + slot (sha256Schedule i x) i).toBitVec =
        t.toBitVec + sha2K 32 i + sha256Functions.W m i := by
      intro t
      rw [UInt32.toBitVec_add,UInt32.toBitVec_add,toBitVec_k256,rolling_newest hnext]
    exact ⟨hnext,sha2Step_bits sha256Functions (fun _ _ => UInt32.toBitVec_add) toBitVec_ch
      toBitVec_ma toBitVec_bigS0 toBitVec_bigS1 hkw r⟩

theorem sha512Rounds_bits {m : ℕ → BitVec 64} {w : Array UInt64}
    (hw : Filled (sha512Functions.W m) 80 w) (r : Regs8 UInt64) :
    bits8 UInt64.toBitVec (sha512Rounds w r) =
      (List.range 80).foldl (sha512Functions.round m) (bits8 UInt64.toBitVec r) := by
  refine lockstep_finRange (R := fun _ v r => bits8 UInt64.toBitVec r = v) rfl ?_
  rintro i v r rfl
  have hkw : ∀ t : UInt64, (t + k512.get i + w.getD i 0).toBitVec =
      t.toBitVec + sha2K 64 i + sha512Functions.W m i := by
    intro t
    rw [UInt64.toBitVec_add,UInt64.toBitVec_add,toBitVec_k512,hw.2 i i.isLt]
  exact sha2Step_bits sha512Functions (fun _ _ => UInt64.toBitVec_add) toBitVec_chw toBitVec_maw
    toBitVec_bigS0w toBitVec_bigS1w hkw r

theorem md5Rounds_bits {m : ℕ → BitVec 32} {x : Vector UInt32 16}
    (hx : ∀ k : Fin 16, (x.get k).toBitVec = m k) (r : Regs4) :
    bits4 (md5Steps.foldl (md5Step x) r) = (List.range 64).foldl (md5Round m) (bits4 r) := by
  rw [md5Steps_eq,List.foldl_map]
  refine lockstep (R := fun _ r v => bits4 r = v) rfl ?_
  rintro t ht r v rfl
  exact md5Step_bits hx ht r

end rounds

section transforms
variable (s : Words)

/-- The lower halves of the first n chaining words. -/
def lowBits (n : ℕ) (s : Words) : Vector (BitVec 32) n := (pack n s).map UInt32.toBitVec

/-- The chaining words with something added to their upper halves. -/
def withUpper (s g : Words) : Words := s.zipWith (fun (a b : UInt64) => a + b <<< 32) g

theorem toUInt32_shiftLeft (b : UInt64) : (b <<< 32).toUInt32 = 0 := by
  have hshift : (b <<< 32).toNat = b.toNat * 2 ^ 32 % 2 ^ 64 := by
    rw [UInt64.toNat_shiftLeft,Nat.shiftLeft_eq]
    rfl
  apply UInt32.toNat.inj
  rw [UInt64.toNat_toUInt32,hshift,UInt32.toNat_zero]
  omega

theorem lowBits_withUpper (n : ℕ) (g : Words) : lowBits n (withUpper s g) = lowBits n s := by
  refine congrArg (Vector.map UInt32.toBitVec) (Vector.ext fun i hi => ?_)
  simp only [pack,Vector.getElem_ofFn]
  by_cases h8 : i < 8
  · simp [withUpper,h8,toUInt32_shiftLeft]
  · simp [h8]

theorem lowBits_four : lowBits 4 s = bits4 (regs4 (locals32 s)) := by
  refine Vector.ext fun i hi => ?_
  interval_cases i <;> simp [lowBits,pack,bits4,regs4,locals32,wordsOf]

theorem lowBits_five : lowBits 5 s = bits5 (regs5 (locals32 s)) := by
  refine Vector.ext fun i hi => ?_
  interval_cases i <;> simp [lowBits,pack,bits5,regs5,locals32,wordsOf]

theorem lowBits_eight : lowBits 8 s = bits8 UInt32.toBitVec (regs8 (locals32 s)) := by
  refine Vector.ext fun i hi => ?_
  interval_cases i <;> simp [lowBits,pack,bits8,regs8,locals32,wordsOf]

theorem sha1TransformCc_lowBits (data : Vector UInt8 64) :
    lowBits 5 (sha1TransformCc s data) = sha1Compress (lowBits 5 s) data.toList := by
  have hadd : ∀ r : Regs5, lowBits 5 #v[s[0] + r.a.toUInt64,s[1] + r.b.toUInt64,
      s[2] + r.c.toUInt64,s[3] + r.d.toUInt64,s[4] + r.e.toUInt64,s[5],s[6],s[7]] =
      (lowBits 5 s).zipWith (· + ·) (bits5 r) := by
    intro r
    refine Vector.ext fun i hi => ?_
    interval_cases i <;> simp [lowBits,pack,bits5]
  have hrounds := sha1Rounds_bits (m := word 32 bigEndianValue data.toList)
    (x := Vector.ofFn (readSwap32 data)) (fun k => by rw [get_ofFn,toBitVec_readSwap32])
    (regs5 (locals32 s))
  rw [← lowBits_five] at hrounds
  exact (hadd (sha1Rounds (Vector.ofFn (readSwap32 data)) (regs5 (locals32 s)))).trans
    (congrArg (fun v => (lowBits 5 s).zipWith (· + ·) v) hrounds)

theorem sha256TransformCc_lowBits (data : Vector UInt8 64) :
    lowBits 8 (sha256TransformCc s data) = sha256Functions.compress (lowBits 8 s) data.toList := by
  have hadd : ∀ r : Regs8 UInt32, lowBits 8 #v[s[0] + r.a.toUInt64,s[1] + r.b.toUInt64,
      s[2] + r.c.toUInt64,s[3] + r.d.toUInt64,s[4] + r.e.toUInt64,s[5] + r.f.toUInt64,
      s[6] + r.g.toUInt64,s[7] + r.h.toUInt64] =
      (lowBits 8 s).zipWith (· + ·) (bits8 UInt32.toBitVec r) := by
    intro r
    refine Vector.ext fun i hi => ?_
    interval_cases i <;> simp [lowBits,pack,bits8]
  have hrounds := sha256Rounds_bits (m := word 32 bigEndianValue data.toList)
    (x := Vector.ofFn (readSwap32 data)) (fun k => by rw [get_ofFn,toBitVec_readSwap32])
    (regs8 (locals32 s))
  rw [← lowBits_eight] at hrounds
  exact (hadd (sha256Rounds (Vector.ofFn (readSwap32 data)) (regs8 (locals32 s)))).trans
    (congrArg (fun v => (lowBits 8 s).zipWith (· + ·) v) hrounds)

theorem sha512Transform_bits (data : Vector UInt8 128) :
    (sha512Transform s data).map UInt64.toBitVec =
      sha512Functions.compress (s.map UInt64.toBitVec) data.toList := by
  have hadd : ∀ r : Regs8 UInt64, (#v[s[0] + r.a,s[1] + r.b,s[2] + r.c,s[3] + r.d,s[4] + r.e,
      s[5] + r.f,s[6] + r.g,s[7] + r.h] : Words).map UInt64.toBitVec =
      (s.map UInt64.toBitVec).zipWith (· + ·) (bits8 UInt64.toBitVec r) := by
    intro r
    refine Vector.ext fun i hi => ?_
    interval_cases i <;> simp [bits8]
  have hstart : s.map UInt64.toBitVec = bits8 UInt64.toBitVec (regs8 (locals64 s)) := by
    refine Vector.ext fun i hi => ?_
    interval_cases i <;> simp [bits8,regs8,locals64,wordsOf]
  have hrounds := sha512Rounds_bits (sha512Schedule_filled data) (regs8 (locals64 s))
  rw [← hstart] at hrounds
  exact (hadd (sha512Rounds (sha512Schedule data) (regs8 (locals64 s)))).trans
    (congrArg (fun v => (s.map UInt64.toBitVec).zipWith (· + ·) v) hrounds)

theorem md5Transform_lowBits (data : Vector UInt8 64) :
    lowBits 4 (md5Transform s data) = md5Compress (lowBits 4 s) data.toList := by
  have hadd : ∀ r : Regs4, lowBits 4 #v[s[0] + r.a.toUInt64,s[1] + r.b.toUInt64,
      s[2] + r.c.toUInt64,s[3] + r.d.toUInt64,s[4],s[5],s[6],s[7]] =
      (lowBits 4 s).zipWith (· + ·) (bits4 r) := by
    intro r
    refine Vector.ext fun i hi => ?_
    interval_cases i <;> simp [lowBits,pack,bits4]
  have hrounds := md5Rounds_bits (m := word 32 littleEndianValue data.toList)
    (x := Vector.ofFn (read32 data)) (fun k => by rw [get_ofFn,toBitVec_read32]) (regs4 (locals32 s))
  rw [← lowBits_four] at hrounds
  exact (hadd (md5Steps.foldl (md5Step (Vector.ofFn (read32 data))) (regs4 (locals32 s)))).trans
    (congrArg (fun v => (lowBits 4 s).zipWith (· + ·) v) hrounds)

/-- Every transform computes the compression function of its standard. The digests on 32-bit
words do so whatever the upper halves of the chaining words are. -/
theorem transforms_meet_standards (s g : Words) :
    (∀ data : Vector UInt8 64,
      lowBits 4 (md5TransformLines s data) = md5Compress (lowBits 4 s) data.toList ∧
      lowBits 5 (sha1TransformLines s data) = sha1Compress (lowBits 5 s) data.toList ∧
      lowBits 8 (sha256TransformLines s data) =
        sha256Functions.compress (lowBits 8 s) data.toList) ∧
    (∀ data : Vector UInt8 128, (sha512TransformLines s data).map UInt64.toBitVec =
      sha512Functions.compress (s.map UInt64.toBitVec) data.toList) ∧
    ∀ data : Vector UInt8 64,
      lowBits 4 (md5TransformLines (withUpper s g) data) = lowBits 4 (md5TransformLines s data) ∧
      lowBits 5 (sha1TransformLines (withUpper s g) data) = lowBits 5 (sha1TransformLines s data) ∧
      lowBits 8 (sha256TransformLines (withUpper s g) data) =
        lowBits 8 (sha256TransformLines s data) := by
  have hmd5 : ∀ s data, lowBits 4 (md5TransformLines s data) =
      md5Compress (lowBits 4 s) data.toList := by
    intro s data
    rw [md5TransformLines_eq,md5Transform_lowBits]
  have hsha1 : ∀ s data, lowBits 5 (sha1TransformLines s data) =
      sha1Compress (lowBits 5 s) data.toList := by
    intro s data
    rw [sha1TransformLines_eq,sha1TransformCc_lowBits]
  have hsha256 : ∀ s data, lowBits 8 (sha256TransformLines s data) =
      sha256Functions.compress (lowBits 8 s) data.toList := by
    intro s data
    rw [sha256TransformLines_eq,sha256TransformCc_lowBits]
  refine ⟨fun data => ⟨hmd5 s data,hsha1 s data,hsha256 s data⟩,fun data => ?_,fun data => ?_⟩
  · rw [sha512TransformLines_eq,sha512Transform_bits]
  · rw [hmd5,hmd5,hsha1,hsha1,hsha256,hsha256,lowBits_withUpper,lowBits_withUpper,lowBits_withUpper]
    exact ⟨rfl,rfl,rfl⟩

end transforms

end SecureWipeOut.Hash
