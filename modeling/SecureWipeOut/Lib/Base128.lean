import Mathlib.Tactic

/-! # Numbers in groups of seven bits

A number is written in base 128, the most significant group first and a flag on every group
that another one follows. The encoding has no leading zero group, which makes it the shortest.
-/
namespace SecureWipeOut.Base128

/-- The groups that come before the last one. -/
def leading (n : ℕ) : List UInt8 :=
  if _h : n = 0 then [] else leading (n / 128) ++ [UInt8.ofNat (128 + n % 128)]
  termination_by n

def encode (n : ℕ) : List UInt8 := leading (n / 128) ++ [UInt8.ofNat (n % 128)]

/-- The numbers of a text of groups, where `acc` is what the groups before have given. -/
def decode : ℕ → List UInt8 → List ℕ
  | _,[] => []
  | acc,b :: bytes =>
    if b.toNat < 128 then (128 * acc + b.toNat) :: decode 0 bytes
    else decode (128 * acc + (b.toNat - 128)) bytes

/-- No number begins with a zero group that another one follows; `start` tells that a number
begins. -/
def minimal : Bool → List UInt8 → Bool
  | _,[] => true
  | start,b :: bytes => !(start && b == 128) && minimal (decide (b.toNat < 128)) bytes

theorem leading_zero : leading 0 = [] := by
  rw [leading]
  rfl

theorem leading_pos {n : ℕ} (h : n ≠ 0) :
    leading n = leading (n / 128) ++ [UInt8.ofNat (128 + n % 128)] := by
  rw [leading,dif_neg h]

theorem toNat_group (n : ℕ) : (UInt8.ofNat (n % 128)).toNat = n % 128 := by
  apply UInt8.toNat_ofNat_of_lt
  have := Nat.mod_lt n (show 0 < 128 by omega)
  rw [UInt8.size]
  omega

theorem toNat_flagged (n : ℕ) : (UInt8.ofNat (128 + n % 128)).toNat = 128 + n % 128 := by
  apply UInt8.toNat_ofNat_of_lt
  have := Nat.mod_lt n (show 0 < 128 by omega)
  rw [UInt8.size]
  omega

theorem decode_leading (n : ℕ) (bytes : List UInt8) : decode 0 (leading n ++ bytes) = decode n bytes := by
  induction n using Nat.strongRecOn generalizing bytes with
  | ind n ih =>
    rcases eq_or_ne n 0 with rfl | hn
    · rw [leading_zero,List.nil_append]
    · rw [leading_pos hn,List.append_assoc,ih (n / 128) (Nat.div_lt_self (Nat.pos_of_ne_zero hn) (by omega))]
      rw [List.singleton_append,decode,toNat_flagged,if_neg (by omega)]
      rw [show 128 * (n / 128) + (128 + n % 128 - 128) = n by omega]

theorem decode_encode (n : ℕ) (bytes : List UInt8) : decode 0 (encode n ++ bytes) = n :: decode 0 bytes := by
  rw [encode,List.append_assoc,decode_leading,List.singleton_append,decode,toNat_group,if_pos (by omega)]
  rw [show 128 * (n / 128) + n % 128 = n by omega]

theorem decode_flatMap (ns : List ℕ) : decode 0 (ns.flatMap encode) = ns := by
  induction ns with
  | nil => rfl
  | cons n ns ih => rw [List.flatMap_cons,decode_encode,ih]

theorem minimal_leading {n : ℕ} (hn : n ≠ 0) (bytes : List UInt8) :
    minimal true (leading n ++ bytes) = minimal false bytes := by
  induction n using Nat.strongRecOn generalizing bytes with
  | ind n ih =>
    rw [leading_pos hn,List.append_assoc,List.singleton_append]
    rcases eq_or_ne (n / 128) 0 with h0 | h0
    · have hne : UInt8.ofNat (128 + n % 128) ≠ 128 := by
        intro h
        have := congrArg UInt8.toNat h
        rw [toNat_flagged,show (128 : UInt8).toNat = 128 from rfl] at this
        omega
      rw [h0,leading_zero,List.nil_append,minimal,toNat_flagged,decide_eq_false (by omega),
        beq_eq_false_iff_ne.mpr hne]
      rfl
    · rw [ih (n / 128) (Nat.div_lt_self (Nat.pos_of_ne_zero hn) (by omega)) h0]
      rw [minimal,toNat_flagged,decide_eq_false (by omega)]
      rfl

theorem minimal_encode (n : ℕ) (bytes : List UInt8) : minimal true (encode n ++ bytes) = minimal true bytes := by
  have hlast : decide ((UInt8.ofNat (n % 128)).toNat < 128) = true := by
    rw [toNat_group]
    exact decide_eq_true (Nat.mod_lt n (by omega))
  rw [encode,List.append_assoc,List.singleton_append]
  rcases eq_or_ne (n / 128) 0 with h0 | h0
  · have hne : UInt8.ofNat (n % 128) ≠ 128 := by
      intro h
      have := congrArg UInt8.toNat h
      rw [toNat_group,show (128 : UInt8).toNat = 128 from rfl] at this
      omega
    rw [h0,leading_zero,List.nil_append,minimal,hlast,beq_eq_false_iff_ne.mpr hne]
    rfl
  · rw [minimal_leading h0,minimal,hlast]
    rfl

theorem minimal_flatMap (ns : List ℕ) : minimal true (ns.flatMap encode) = true := by
  induction ns with
  | nil => rfl
  | cons n ns ih => rw [List.flatMap_cons,minimal_encode,ih]

theorem length_leading_le {n k : ℕ} (h : n < 128 ^ k) : (leading n).length ≤ k := by
  induction k generalizing n with
  | zero =>
    rw [show n = 0 by simpa using h,leading_zero]
    rfl
  | succ k ih =>
    rcases eq_or_ne n 0 with rfl | hn
    · rw [leading_zero]
      exact Nat.zero_le _
    · rw [leading_pos hn,List.length_append,List.length_singleton]
      exact Nat.add_le_add_right (ih (by rw [pow_succ] at h; omega)) 1

/-- A number below `128 ^ (k + 1)` takes at most `k + 1` groups. -/
theorem length_encode_le {n k : ℕ} (h : n < 128 ^ (k + 1)) : (encode n).length ≤ k + 1 := by
  rw [encode,List.length_append,List.length_singleton]
  exact Nat.add_le_add_right (length_leading_le (by rw [pow_succ] at h; omega)) 1

theorem lt_length_leading {n k : ℕ} (h : 128 ^ k ≤ n) : k < (leading n).length := by
  induction k generalizing n with
  | zero =>
    rw [leading_pos (by rw [pow_zero] at h; omega),List.length_append,List.length_singleton]
    exact Nat.succ_pos _
  | succ k ih =>
    have hpos : 0 < 128 ^ k := Nat.pow_pos (by omega)
    rw [pow_succ] at h
    rw [leading_pos (by omega),List.length_append,List.length_singleton]
    exact Nat.add_lt_add_right (ih (by omega)) 1

/-- A number from `128 ^ k` on takes more than `k` groups. -/
theorem lt_length_encode {n k : ℕ} (h : 128 ^ k ≤ n) : k < (encode n).length := by
  rw [encode,List.length_append,List.length_singleton]
  cases k with
  | zero => exact Nat.succ_pos _
  | succ k =>
    rw [pow_succ] at h
    exact Nat.add_lt_add_right (lt_length_leading (by omega)) 1

theorem encode_of_lt {n : ℕ} (h : n < 128) : encode n = [UInt8.ofNat n] := by
  rw [encode,Nat.div_eq_of_lt h,leading_zero,Nat.mod_eq_of_lt h]
  rfl

end SecureWipeOut.Base128
