import Mathlib.Data.Nat.Bitwise
import SecureWipeOut.Regex.ParseExact

/-! # The characters of a class

The set of bits that a class is compiled to holds the characters of the ranges it lists.
-/
namespace SecureWipeOut.Regex

section bits
variable (klass : CharClass) (ch c : UInt8)

theorem toNat_bit {i : UInt8} (hi : i < 8) : ((1 : UInt8) <<< i).toNat = 2 ^ i.toNat := by
  have hlt : i.toNat < 8 := hi
  have hpow : 2 ^ i.toNat < 2 ^ 8 := Nat.pow_lt_pow_right (by decide) hlt
  rw [UInt8.toNat_shiftLeft,Nat.mod_eq_of_lt hlt,UInt8.toNat_one,Nat.one_shiftLeft,Nat.mod_eq_of_lt hpow]

theorem and_bit (x : UInt8) {i : UInt8} (hi : i < 8) : (x &&& (1 <<< i) != 0) = x.toNat.testBit i.toNat := by
  have hand : (x &&& (1 <<< i)).toNat = (x.toNat.testBit i.toNat).toNat * 2 ^ i.toNat := by
    rw [UInt8.toNat_and,toNat_bit hi,Nat.and_two_pow]
  have hzero : (x &&& (1 <<< i)) = 0 ↔ x.toNat.testBit i.toNat = false := by
    rw [← UInt8.toNat_inj,hand]
    cases x.toNat.testBit i.toNat <;> simp
  cases h : x.toNat.testBit i.toNat with
  | true =>
    refine bne_iff_ne.mpr fun heq => ?_
    cases (hzero.mp heq).symm.trans h
  | false => exact bne_eq_false_iff_eq.mpr (hzero.mpr h)

theorem mod_lt (c : UInt8) : c % 8 < 8 := Nat.mod_lt c.toNat (by decide : 8 > 0)

theorem get_charCell : klass.get (charCell c) = klass[(charCell c : ℕ)] := rfl

theorem contains_eq : klass.contains c = (klass.get (charCell c)).toNat.testBit (c.toNat % 8) :=
  and_bit _ (mod_lt c)

theorem get_add : (klass.add ch).get (charCell c) =
    if ch.toNat / 8 = c.toNat / 8 then klass.get (charCell c) ||| (1 <<< (ch % 8)) else klass.get (charCell c) := by
  rw [CharClass.add,get_charCell,Vector.getElem_set]
  by_cases hindex : ch.toNat / 8 = c.toNat / 8
  · have hcell : charCell ch = charCell c := Fin.ext hindex
    rw [if_pos hindex,hcell,if_pos rfl]
  · have hcell : (charCell ch : ℕ) ≠ charCell c := hindex
    rw [if_neg hindex,if_neg hcell,get_charCell]

/-- A class to which a character was added. -/
theorem contains_add : (klass.add ch).contains c = (c == ch || klass.contains c) := by
  have hsame : c = ch ↔ ch.toNat / 8 = c.toNat / 8 ∧ ch.toNat % 8 = c.toNat % 8 := by
    rw [← UInt8.toNat_inj]
    omega
  rw [contains_eq,contains_eq,get_add]
  split
  · next hindex =>
    have hbit : ((1 : UInt8) <<< (ch % 8)).toNat.testBit (c.toNat % 8) =
        decide (ch.toNat % 8 = c.toNat % 8) := by
      rw [toNat_bit (mod_lt ch),Nat.testBit_two_pow]
      rfl
    have heq : (c == ch) = decide (ch.toNat % 8 = c.toNat % 8) := by
      rw [Bool.eq_iff_iff,beq_iff_eq,decide_eq_true_iff,hsame]
      exact and_iff_right hindex
    rw [UInt8.toNat_or,Nat.testBit_or,hbit,heq,Bool.or_comm]
  · next hindex =>
    have hne : (c == ch) = false := beq_false_of_ne fun heq => hindex (hsame.mp heq).1
    rw [hne,Bool.false_or]

theorem contains_replicate : CharClass.contains (Vector.replicate 32 0) c = false := by
  rw [contains_eq,get_charCell,Vector.getElem_replicate]
  exact Nat.zero_testBit _

end bits

section ranges
variable {klass : CharClass} {c : UInt8}

/-- A range that ends in front of the last byte is added as a whole. -/
theorem contains_addRange {fuel : ℕ} {ch last : UInt8} (hlast : last.toNat < 255)
    (hfuel : last.toNat < ch.toNat + fuel) :
    (klass.addRange fuel ch last).contains c = true ↔ (ch ≤ c ∧ c ≤ last) ∨ klass.contains c = true := by
  induction fuel generalizing klass ch with
  | zero =>
    have hempty : ¬ (ch ≤ c ∧ c ≤ last) := by
      rw [UInt8.le_iff_toNat_le,UInt8.le_iff_toNat_le]
      omega
    rw [CharClass.addRange]
    exact (or_iff_right hempty).symm
  | succ fuel ih =>
    rw [CharClass.addRange]
    split
    · next hle =>
      have hle' : ch.toNat ≤ last.toNat := hle
      have hsucc : (ch + 1).toNat = ch.toNat + 1 := by
        rw [UInt8.toNat_add,UInt8.toNat_one]
        exact Nat.mod_eq_of_lt (by omega)
      rw [ih (by omega),contains_add,Bool.or_eq_true,beq_iff_eq,← or_assoc]
      refine or_congr_left ?_
      rw [← UInt8.toNat_inj,UInt8.le_iff_toNat_le,UInt8.le_iff_toNat_le,UInt8.le_iff_toNat_le,hsucc]
      omega
    · next hle =>
      have hle' : ¬ ch.toNat ≤ last.toNat := hle
      have hempty : ¬ (ch ≤ c ∧ c ≤ last) := by
        rw [UInt8.le_iff_toNat_le,UInt8.le_iff_toNat_le]
        omega
      exact (or_iff_right hempty).symm

theorem compileCharClass_char {first : Bool} {text : List UInt8} (hchar : ClassChar first text c)
    (more : List UInt8) (fuel : ℕ) : compileCharClass (fuel + 1) first (text ++ more) klass =
      if charAt more 0 = 45 && charAt more 1 != 93 then
        compileCharClass fuel false (more.drop 2) (klass.addRange 256 c (charAt more 1))
      else compileCharClass fuel false more (klass.add c) := by
  cases hchar with
  | plain hascii hne hclose =>
    rw [List.singleton_append,compileCharClass]
    have hopen : (c = 93 && !first) = false := by
      by_cases hc : c = 93
      · simp [hclose hc]
      · simp [hc]
    simp only [hopen,hne,Bool.false_eq_true,if_false]
  | escaped hascii =>
    rw [List.cons_append,List.singleton_append,compileCharClass]
    simp

theorem ClassChar.length {first : Bool} {text : List UInt8} (h : ClassChar first text c) : 0 < text.length := by
  cases h <;> simp

theorem compileCharClass_contains {first : Bool} {text : List UInt8} {ranges : List (UInt8 × UInt8)}
    (h : ClassText first text ranges) (rest : List UInt8) {fuel : ℕ} (hfuel : text.length < fuel) :
    (compileCharClass fuel first (text ++ 93 :: rest) klass).contains c = true ↔
      (∃ r ∈ ranges, r.1 ≤ c ∧ c ≤ r.2) ∨ klass.contains c = true := by
  obtain ⟨fuel,rfl⟩ := Nat.exists_eq_succ_of_ne_zero (Nat.ne_zero_of_lt hfuel)
  induction h generalizing fuel klass with
  | nil =>
    have hstop : compileCharClass (fuel + 1) false ([] ++ 93 :: rest) klass = klass := rfl
    rw [hstop]
    simp
  | @single first text more ch ranges hchar hmore hdash ih =>
    have hpos := hchar.length
    rw [List.length_append] at hfuel
    obtain ⟨fuel,rfl⟩ := Nat.exists_eq_succ_of_ne_zero (by omega : fuel ≠ 0)
    rw [List.append_assoc,compileCharClass_char hchar,not_dash hdash,if_neg Bool.false_ne_true,
      ih fuel (by omega),contains_add,Bool.or_eq_true,beq_iff_eq,List.exists_mem_cons_iff]
    have hone : c = ch ↔ ch ≤ c ∧ c ≤ ch := by
      rw [← UInt8.toNat_inj,UInt8.le_iff_toNat_le,UInt8.le_iff_toNat_le]
      omega
    rw [hone]
    exact or_left_comm.trans or_assoc.symm
  | @range first text more ch last ranges hchar hlast hclose hle hmore ih =>
    have hpos := hchar.length
    simp only [List.length_append,List.length_cons] at hfuel
    obtain ⟨fuel,rfl⟩ := Nat.exists_eq_succ_of_ne_zero (by omega : fuel ≠ 0)
    have hsmall : last.toNat < 128 := hlast.2
    rw [List.append_assoc,compileCharClass_char hchar,if_pos (by simp [hclose])]
    change (compileCharClass (fuel + 1) false (more ++ 93 :: rest) (klass.addRange 256 ch last)).contains c = true ↔ _
    rw [ih fuel (by omega),contains_addRange (by omega) (by omega),List.exists_mem_cons_iff]
    exact or_left_comm.trans or_assoc.symm

/-- The set of a class has exactly the characters of its ranges. -/
theorem charClass_contains {text : List UInt8} {ranges : List (UInt8 × UInt8)}
    (h : ClassText true text ranges) (c : UInt8) :
    (charClass (text ++ [93])).contains c = true ↔ ∃ r ∈ ranges, r.1 ≤ c ∧ c ≤ r.2 := by
  rw [charClass,compileCharClass_contains h [] (by simp),contains_replicate]
  simp

end ranges

end SecureWipeOut.Regex
