import SecureWipeOut.Hash.Transform
import SecureWipeOut.Lib.DigestStandards
import SecureWipeOut.Lib.WordRotation

/-! # Words and rotations of the transforms

The nested rotations are the sums of three that the standards write, and the bytes of a
block make the words they read.
-/
namespace SecureWipeOut.Hash
open DigestStandards WordRotation

section rotations

theorem toBitVec_ror32 (x n : UInt32) (h0 : 0 < n.toNat) (h : n.toNat < 32) :
    (ror32 x n).toBitVec = x.toBitVec.rotateRight n.toNat := by
  have hback : (4294967296 - n.toNat) % 32 = 32 - n.toNat % 32 := by omega
  rw [ror32,BitVec.rotateRight_def,UInt32.toBitVec_or,UInt32.toBitVec_shiftRight,
    UInt32.toBitVec_shiftLeft,BitVec.ushiftRight_eq',BitVec.shiftLeft_eq']
  congr 2
  simp [BitVec.toNat_umod,hback]

theorem toBitVec_ror64 (x n : UInt64) (h0 : 0 < n.toNat) (h : n.toNat < 64) :
    (ror64 x n).toBitVec = x.toBitVec.rotateRight n.toNat := by
  have hback : (18446744073709551616 - n.toNat) % 64 = 64 - n.toNat % 64 := by omega
  rw [ror64,BitVec.rotateRight_def,UInt64.toBitVec_or,UInt64.toBitVec_shiftRight,
    UInt64.toBitVec_shiftLeft,BitVec.ushiftRight_eq',BitVec.shiftLeft_eq']
  congr 2
  simp [BitVec.toNat_umod,hback]

theorem toBitVec_rol32 (x n : UInt32) (h0 : 0 < n.toNat) (h : n.toNat < 32) :
    (rol32 x n).toBitVec = x.toBitVec.rotateLeft n.toNat := by
  have hback : (4294967296 - n.toNat) % 32 = 32 - n.toNat % 32 := by omega
  rw [rol32,BitVec.rotateLeft_def,UInt32.toBitVec_or,UInt32.toBitVec_shiftRight,
    UInt32.toBitVec_shiftLeft,BitVec.ushiftRight_eq',BitVec.shiftLeft_eq']
  congr 2
  simp [BitVec.toNat_umod,hback]

/-- The three rotations of the nested form, from the outermost on. -/
theorem toBitVec_nested32 (x : UInt32) {p q r : UInt32} (hp : 0 < p.toNat) (hq : 0 < q.toNat)
    (hr : 0 < r.toNat) (h : p.toNat + q.toNat + r.toNat < 32) :
    (ror32 (ror32 (ror32 x p ^^^ x) q ^^^ x) r).toBitVec =
      x.toBitVec.rotateRight r.toNat ^^^ x.toBitVec.rotateRight (q.toNat + r.toNat) ^^^
        x.toBitVec.rotateRight (p.toNat + q.toNat + r.toNat) := by
  rw [toBitVec_ror32 _ r hr (by omega),UInt32.toBitVec_xor,toBitVec_ror32 _ q hq (by omega),
    UInt32.toBitVec_xor,toBitVec_ror32 _ p hp (by omega)]
  exact nested_three x.toBitVec h

theorem toBitVec_nested64 (x : UInt64) {p q r : UInt64} (hp : 0 < p.toNat) (hq : 0 < q.toNat)
    (hr : 0 < r.toNat) (h : p.toNat + q.toNat + r.toNat < 64) :
    (ror64 (ror64 (ror64 x p ^^^ x) q ^^^ x) r).toBitVec =
      x.toBitVec.rotateRight r.toNat ^^^ x.toBitVec.rotateRight (q.toNat + r.toNat) ^^^
        x.toBitVec.rotateRight (p.toNat + q.toNat + r.toNat) := by
  rw [toBitVec_ror64 _ r hr (by omega),UInt64.toBitVec_xor,toBitVec_ror64 _ q hq (by omega),
    UInt64.toBitVec_xor,toBitVec_ror64 _ p hp (by omega)]
  exact nested_three x.toBitVec h

/-- The two rotations before a shift. -/
theorem toBitVec_shifted32 (x : UInt32) {p q n : UInt32} (hp : 0 < p.toNat) (hq : 0 < q.toNat)
    (h : p.toNat + q.toNat < 32) :
    (ror32 (ror32 x p ^^^ x) q ^^^ (x >>> n)).toBitVec =
      x.toBitVec.rotateRight q.toNat ^^^ x.toBitVec.rotateRight (p.toNat + q.toNat) ^^^
        (x >>> n).toBitVec := by
  rw [UInt32.toBitVec_xor,toBitVec_ror32 _ q hq (by omega),UInt32.toBitVec_xor,
    toBitVec_ror32 _ p hp (by omega),nested_two x.toBitVec h]

theorem toBitVec_shifted64 (x : UInt64) {p q n : UInt64} (hp : 0 < p.toNat) (hq : 0 < q.toNat)
    (h : p.toNat + q.toNat < 64) :
    (ror64 (ror64 x p ^^^ x) q ^^^ (x >>> n)).toBitVec =
      x.toBitVec.rotateRight q.toNat ^^^ x.toBitVec.rotateRight (p.toNat + q.toNat) ^^^
        (x >>> n).toBitVec := by
  rw [UInt64.toBitVec_xor,toBitVec_ror64 _ q hq (by omega),UInt64.toBitVec_xor,
    toBitVec_ror64 _ p hp (by omega),nested_two x.toBitVec h]

theorem toBitVec_bigS0 (x : UInt32) :
    (bigS0 x).toBitVec = sha256Functions.bigSigma0 x.toBitVec :=
  toBitVec_nested32 x (by decide) (by decide) (by decide) (by decide)

theorem toBitVec_bigS1 (x : UInt32) :
    (bigS1 x).toBitVec = sha256Functions.bigSigma1 x.toBitVec :=
  toBitVec_nested32 x (by decide) (by decide) (by decide) (by decide)

theorem toBitVec_smallS0 (x : UInt32) :
    (smallS0 x).toBitVec = sha256Functions.smallSigma0 x.toBitVec :=
  toBitVec_shifted32 x (by decide) (by decide) (by decide)

theorem toBitVec_smallS1 (x : UInt32) :
    (smallS1 x).toBitVec = sha256Functions.smallSigma1 x.toBitVec :=
  toBitVec_shifted32 x (by decide) (by decide) (by decide)

theorem toBitVec_bigS0w (x : UInt64) :
    (bigS0w x).toBitVec = sha512Functions.bigSigma0 x.toBitVec :=
  toBitVec_nested64 x (by decide) (by decide) (by decide) (by decide)

theorem toBitVec_bigS1w (x : UInt64) :
    (bigS1w x).toBitVec = sha512Functions.bigSigma1 x.toBitVec :=
  toBitVec_nested64 x (by decide) (by decide) (by decide) (by decide)

theorem toBitVec_smallS0w (x : UInt64) :
    (smallS0w x).toBitVec = sha512Functions.smallSigma0 x.toBitVec :=
  toBitVec_shifted64 x (by decide) (by decide) (by decide)

theorem toBitVec_smallS1w (x : UInt64) :
    (smallS1w x).toBitVec = sha512Functions.smallSigma1 x.toBitVec :=
  toBitVec_shifted64 x (by decide) (by decide) (by decide)

end rotations

section words

theorem or_eq_add {m n k : ℕ} (h : n < 2 ^ k) : m * 2 ^ k ||| n = m * 2 ^ k + n := by
  rw [← Nat.shiftLeft_eq,Nat.shiftLeft_add_eq_or_of_lt h]

theorem take_four {l : List UInt8} {i : ℕ} (h : i + 3 < l.length) :
    (l.drop i).take 4 = [l[i],l[i + 1],l[i + 2],l[i + 3]] := by
  rw [List.drop_eq_getElem_cons (by omega),List.drop_eq_getElem_cons (by omega),
    List.drop_eq_getElem_cons (by omega),List.drop_eq_getElem_cons (by omega)]
  rfl

theorem toNat_byte_shift (b : UInt8) {n : UInt32} (h : n.toNat ≤ 24) :
    (b.toUInt32 <<< n).toNat = b.toNat * 2 ^ n.toNat := by
  have hb := b.toNat_lt
  have hpow : 2 ^ n.toNat ≤ 2 ^ 24 := Nat.pow_le_pow_right (by norm_num) h
  have hlt : b.toNat * 2 ^ n.toNat < 2 ^ 32 :=
    (Nat.mul_lt_mul_of_lt_of_le hb hpow (by norm_num)).trans_le (by norm_num)
  rw [UInt32.toNat_shiftLeft,UInt8.toNat_toUInt32,Nat.shiftLeft_eq,
    Nat.mod_eq_of_lt (show n.toNat < 32 by omega),Nat.mod_eq_of_lt hlt]

theorem toNat_four (a b c d : UInt8) :
    (a.toUInt32 <<< 24 ||| b.toUInt32 <<< 16 ||| c.toUInt32 <<< 8 ||| d.toUInt32).toNat =
      bigEndianValue [a,b,c,d] := by
  have hb := b.toNat_lt
  have hc := c.toNat_lt
  have hd := d.toNat_lt
  have h1 : a.toNat * 2 ^ 24 ||| b.toNat * 2 ^ 16 = (a.toNat * 2 ^ 8 + b.toNat) * 2 ^ 16 := by
    rw [or_eq_add (by omega)]
    ring
  have h2 : (a.toNat * 2 ^ 8 + b.toNat) * 2 ^ 16 ||| c.toNat * 2 ^ 8 =
      ((a.toNat * 2 ^ 8 + b.toNat) * 2 ^ 8 + c.toNat) * 2 ^ 8 := by
    rw [or_eq_add (by omega)]
    ring
  rw [UInt32.toNat_or,UInt32.toNat_or,UInt32.toNat_or,toNat_byte_shift _ (by decide),
    toNat_byte_shift _ (by decide),toNat_byte_shift _ (by decide),UInt8.toNat_toUInt32]
  refine (congrArg (· ||| d.toNat) ((congrArg (· ||| c.toNat * 2 ^ 8) h1).trans h2)).trans ?_
  rw [or_eq_add (by omega)]
  simp only [bigEndianValue,List.foldl_cons,List.foldl_nil]
  omega

theorem toNat_four_reverse (a b c d : UInt8) :
    (a.toUInt32 ||| b.toUInt32 <<< 8 ||| c.toUInt32 <<< 16 ||| d.toUInt32 <<< 24).toNat =
      littleEndianValue [a,b,c,d] := by
  have ha := a.toNat_lt
  have hb := b.toNat_lt
  have hc := c.toNat_lt
  have h1 : a.toNat ||| b.toNat * 2 ^ 8 = b.toNat * 2 ^ 8 + a.toNat := by
    rw [Nat.or_comm,or_eq_add (by omega)]
  have h2 : (b.toNat * 2 ^ 8 + a.toNat) ||| c.toNat * 2 ^ 16 =
      c.toNat * 2 ^ 16 + (b.toNat * 2 ^ 8 + a.toNat) := by
    rw [Nat.or_comm,or_eq_add (by omega)]
  rw [UInt32.toNat_or,UInt32.toNat_or,UInt32.toNat_or,toNat_byte_shift _ (by decide),
    toNat_byte_shift _ (by decide),toNat_byte_shift _ (by decide),UInt8.toNat_toUInt32]
  refine (congrArg (· ||| d.toNat * 2 ^ 24) ((congrArg (· ||| c.toNat * 2 ^ 16) h1).trans h2)).trans ?_
  rw [Nat.or_comm,or_eq_add (by omega)]
  simp only [littleEndianValue,List.foldr_cons,List.foldr_nil]
  omega

theorem bigEndian_four_lt (a b c d : UInt8) : bigEndianValue [a,b,c,d] < 2 ^ 32 := by
  rw [← toNat_four]
  exact UInt32.toNat_lt _

theorem littleEndian_four_lt (a b c d : UInt8) : littleEndianValue [a,b,c,d] < 2 ^ 32 := by
  rw [← toNat_four_reverse]
  exact UInt32.toNat_lt _

theorem toBitVec_readSwap32 (data : Vector UInt8 64) (k : Fin 16) :
    (readSwap32 data k).toBitVec = word 32 bigEndianValue data.toList k := by
  have hlen : 4 * k.val + 3 < data.toList.length := by
    rw [Vector.length_toList]
    omega
  apply BitVec.eq_of_toNat_eq
  rw [word,take_four hlen,BitVec.toNat_ofNat,Nat.mod_eq_of_lt (bigEndian_four_lt _ _ _ _),
    ← toNat_four,readSwap32]
  simp

theorem toBitVec_read32 (data : Vector UInt8 64) (k : Fin 16) :
    (read32 data k).toBitVec = word 32 littleEndianValue data.toList k := by
  have hlen : 4 * k.val + 3 < data.toList.length := by
    rw [Vector.length_toList]
    omega
  apply BitVec.eq_of_toNat_eq
  rw [word,take_four hlen,BitVec.toNat_ofNat,Nat.mod_eq_of_lt (littleEndian_four_lt _ _ _ _),
    ← toNat_four_reverse,read32]
  simp

theorem toNat_shiftLeft_or (w : UInt64) (b : UInt8) (h : w.toNat < 2 ^ 56) :
    (w <<< 8 ||| b.toUInt64).toNat = 256 * w.toNat + b.toNat := by
  have hb := b.toNat_lt
  have hlt : w.toNat * 2 ^ 8 < 2 ^ 64 := by omega
  have hshift : (w <<< 8).toNat = w.toNat * 2 ^ 8 := by
    rw [UInt64.toNat_shiftLeft,Nat.shiftLeft_eq]
    exact Nat.mod_eq_of_lt hlt
  rw [UInt64.toNat_or,hshift,UInt8.toNat_toUInt64,or_eq_add (by omega)]
  ring

/-- Bytes taken in one after the other, as long as none is pushed out. -/
theorem toNat_foldl_bytes (l : List UInt8) (w : UInt64)
    (h : (w.toNat + 1) * 256 ^ l.length ≤ 2 ^ 64) :
    (l.foldl (fun (w : UInt64) (b : UInt8) => w <<< 8 ||| b.toUInt64) w).toNat =
      l.foldl (fun (n : ℕ) (b : UInt8) => 256 * n + b.toNat) w.toNat := by
  induction l generalizing w with
  | nil => rfl
  | cons b l ih =>
    have hb := b.toNat_lt
    have hone : 1 ≤ 256 ^ l.length := Nat.one_le_pow _ _ (by norm_num)
    rw [List.length_cons,pow_succ] at h
    have hw : w.toNat < 2 ^ 56 := by nlinarith
    have hstep := toNat_shiftLeft_or w b hw
    rw [List.foldl_cons,List.foldl_cons,ih _ ?_,hstep]
    calc ((w <<< 8 ||| b.toUInt64).toNat + 1) * 256 ^ l.length
        ≤ ((w.toNat + 1) * 256) * 256 ^ l.length := by
          rw [hstep]
          exact Nat.mul_le_mul_right _ (by omega)
      _ = (w.toNat + 1) * (256 ^ l.length * 256) := by ring
      _ ≤ 2 ^ 64 := h

theorem take_drop_eq_map {l : List UInt8} {i n : ℕ} (h : i + n ≤ l.length) :
    (l.drop i).take n = (List.finRange n).map fun j => l[i + j.val] := by
  refine List.ext_getElem (by simp; omega) fun j hj hj' => ?_
  simp

theorem toBitVec_readSwap64 (data : Vector UInt8 128) (k : Fin 16) :
    (readSwap64 data k).toBitVec = word 64 bigEndianValue data.toList k := by
  have hlen : 8 * k.val + 8 ≤ data.toList.length := by
    rw [Vector.length_toList]
    omega
  have hfold : readSwap64 data k = ((List.finRange 8).map fun j => data[8 * k.val + j.val]).foldl
      (fun (w : UInt64) (b : UInt8) => w <<< 8 ||| b.toUInt64) 0 := by
    rw [readSwap64,List.foldl_map]
  have hbytes : (data.toList.drop (8 * k.val)).take 8 =
      (List.finRange 8).map fun j => data[8 * k.val + j.val] := by
    rw [take_drop_eq_map hlen]
    simp
  have hval : (readSwap64 data k).toNat =
      bigEndianValue ((List.finRange 8).map fun j => data[8 * k.val + j.val]) := by
    rw [hfold,toNat_foldl_bytes _ _ (by simp)]
    rfl
  apply BitVec.eq_of_toNat_eq
  rw [word,hbytes,UInt64.toNat_toBitVec,BitVec.toNat_ofNat,← hval,
    Nat.mod_eq_of_lt (UInt64.toNat_lt _)]

end words

end SecureWipeOut.Hash
