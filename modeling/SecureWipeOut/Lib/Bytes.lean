import SecureWipeOut.Lib.ByteStore
import SecureWipeOut.Lib.CInt

/-! # Bytes at an address

A memory that holds a list from an address on, what is read of it there, and the values that
two and four bytes stand for, the lowest first. A list that is written stands there and leaves
the rest alone, and a word that is written can bring the sum of all words to a value.
-/
namespace SecureWipeOut.Bytes

section Holds
variable {α : Type*} {mem : ℕ → α} {a n : ℕ}

/-- The memory has the entries of a list from an address on. -/
def Holds (mem : ℕ → α) (a : ℕ) : List α → Prop
  | [] => True
  | x :: xs => mem a = x ∧ Holds mem (a + 1) xs

def slice (mem : ℕ → α) (a : ℕ) : ℕ → List α
  | 0 => []
  | n + 1 => mem a :: slice mem (a + 1) n

theorem holds_append {xs ys : List α} :
    Holds mem a (xs ++ ys) ↔ Holds mem a xs ∧ Holds mem (a + xs.length) ys := by
  induction xs generalizing a with
  | nil => exact (and_iff_right trivial).symm
  | cons x xs ih =>
    rw [List.cons_append,Holds,Holds,ih,and_assoc,List.length_cons,Nat.add_right_comm a 1,Nat.add_assoc a]

theorem holds_iff_slice {xs : List α} : Holds mem a xs ↔ slice mem a xs.length = xs := by
  induction xs generalizing a with
  | nil => exact iff_of_true trivial rfl
  | cons x xs ih => rw [Holds,ih,List.length_cons,slice,List.cons.injEq]

theorem Holds.slice_eq {xs : List α} (h : Holds mem a xs) (hn : n = xs.length) : slice mem a n = xs := by
  rw [hn]
  exact holds_iff_slice.mp h

/-- A part of a list stands behind what comes before it. -/
theorem Holds.part {pre xs post : List α} (h : Holds mem a (pre ++ xs ++ post)) (hn : n = a + pre.length) :
    Holds mem n xs := by
  rw [hn]
  exact (holds_append.mp (holds_append.mp h).1).2

/-- A list as a memory, with other values behind its end. -/
def memOf (data : List α) (beyond : ℕ → α) : ℕ → α := fun i => data.getD i (beyond i)

theorem holds_memOf_append (pre data : List α) (beyond : ℕ → α) :
    Holds (memOf (pre ++ data) beyond) pre.length data := by
  induction data generalizing pre with
  | nil => trivial
  | cons y data ih =>
    have hrest := ih (pre ++ [y])
    rw [List.append_assoc,List.singleton_append,List.length_append,List.length_singleton] at hrest
    refine ⟨?_,hrest⟩
    rw [memOf,List.getD_eq_getElem?_getD,List.getElem?_append_right le_rfl,Nat.sub_self]
    rfl

theorem holds_memOf (data : List α) (beyond : ℕ → α) : Holds (memOf data beyond) 0 data :=
  holds_memOf_append [] data beyond

end Holds

section Values
variable {mem : ℕ → UInt8} {a n : ℕ}

def readWord (mem : ℕ → UInt8) (a : ℕ) : ℕ := (mem a).toNat + 256 * (mem (a + 1)).toNat
def readDword (mem : ℕ → UInt8) (a : ℕ) : ℕ := readWord mem a + 65536 * readWord mem (a + 2)

def wordBytes (n : ℕ) : List UInt8 := [UInt8.ofNat n,UInt8.ofNat (n / 256)]
def dwordBytes (n : ℕ) : List UInt8 := wordBytes n ++ wordBytes (n / 65536)

theorem length_wordBytes (n : ℕ) : (wordBytes n).length = 2 := rfl
theorem length_dwordBytes (n : ℕ) : (dwordBytes n).length = 4 := rfl

theorem Holds.readWord (h : Holds mem a (wordBytes n)) : Bytes.readWord mem a = n % 2 ^ 16 := by
  rw [Bytes.readWord,h.1,h.2.1,UInt8.toNat_ofNat',UInt8.toNat_ofNat']
  omega

theorem Holds.readDword (h : Holds mem a (dwordBytes n)) (hn : n < 2 ^ 32) : Bytes.readDword mem a = n := by
  obtain ⟨hlow,hhigh⟩ := holds_append.mp h
  rw [length_wordBytes] at hhigh
  rw [Bytes.readDword,hlow.readWord,hhigh.readWord]
  omega

end Values

section Writes
open ByteStore
variable {mem : ℕ → UInt8} {a b n : ℕ} {xs ys : List UInt8}

def write (mem : ℕ → UInt8) (a : ℕ) (xs : List UInt8) : ℕ → UInt8 :=
  overwrite mem a xs.length fun i => xs.getD i 0

theorem holds_congr {mem' : ℕ → UInt8} (h : ∀ i, a ≤ i → i < a + xs.length → mem' i = mem i) :
    Holds mem' a xs ↔ Holds mem a xs := by
  induction xs generalizing a with
  | nil => rfl
  | cons x xs ih =>
    rw [List.length_cons] at h
    rw [Holds,Holds,h a le_rfl (by omega),ih fun i hi hi' => h i (by omega) (by omega)]

theorem holds_of_get (h : ∀ i, i < xs.length → mem (a + i) = xs.getD i 0) : Holds mem a xs := by
  induction xs generalizing a with
  | nil => trivial
  | cons x xs ih =>
    refine ⟨h 0 (by simp),ih fun i hi => ?_⟩
    have hnext := h (i + 1) (by simpa using hi)
    rwa [← Nat.add_assoc,Nat.add_right_comm] at hnext

theorem holds_write (mem : ℕ → UInt8) (a : ℕ) (xs : List UInt8) : Holds (write mem a xs) a xs := by
  refine holds_of_get fun i hi => ?_
  rw [write,overwrite_inside mem _ (by omega) (by omega),Nat.add_sub_cancel_left]

/-- What stands apart from the place of a write is still there after it. -/
theorem Holds.write (h : Holds mem b ys) (hd : b + ys.length ≤ a ∨ a + xs.length ≤ b) :
    Holds (Bytes.write mem a xs) b ys :=
  (holds_congr fun _ _ _ => overwrite_outside mem _ (by omega)).mpr h

theorem readWord_congr {mem' : ℕ → UInt8} (h : ∀ i, a ≤ i → i < a + 2 → mem' i = mem i) :
    readWord mem' a = readWord mem a := by
  unfold readWord
  rw [h _ le_rfl (by omega),h _ (by omega) (by omega)]

theorem readDword_congr {mem' : ℕ → UInt8} (h : ∀ i, a ≤ i → i < a + 4 → mem' i = mem i) :
    readDword mem' a = readDword mem a := by
  unfold readDword
  rw [readWord_congr fun i hi hi' => h i (by omega) (by omega),
    readWord_congr fun i hi hi' => h i (by omega) (by omega)]

theorem readDword_write (hd : b + 4 ≤ a ∨ a + xs.length ≤ b) :
    readDword (Bytes.write mem a xs) b = readDword mem b :=
  readDword_congr fun _ _ _ => overwrite_outside mem _ (by omega)

theorem readDword_lt (mem : ℕ → UInt8) (a : ℕ) : readDword mem a < 2 ^ 32 := by
  have h0 := (mem a).toNat_lt
  have h1 := (mem (a + 1)).toNat_lt
  have h2 := (mem (a + 2)).toNat_lt
  have h3 := (mem (a + 2 + 1)).toNat_lt
  unfold readDword readWord
  omega

theorem readDword_write_self (hn : n < 2 ^ 32) :
    readDword (Bytes.write mem a (dwordBytes n)) a = n := (holds_write mem a _).readDword hn

end Writes

section Sums
open CInt
variable {mem : ℕ → UInt8} {a n k c v : ℕ}

def dwordTotal (mem : ℕ → UInt8) (a n : ℕ) : ℕ := ∑ i ∈ Finset.range n, readDword mem (a + 4 * i)

/-- A value less the words one after the other. -/
def dwordRest (c : ℕ) (mem : ℕ → UInt8) (a n : ℕ) : ℕ :=
  (List.range n).foldl (fun c i => dsub c (readDword mem (a + 4 * i))) c

theorem dwordRest_lt (hc : c < 2 ^ 32) : dwordRest c mem a n < 2 ^ 32 := by
  cases n with
  | zero => exact hc
  | succ n =>
    rw [dwordRest,List.range_succ,List.foldl_concat]
    exact Nat.mod_lt _ (by norm_num)

theorem dwordRest_add (c : ℕ) (mem : ℕ → UInt8) (a n : ℕ) :
    dword (dwordRest c mem a n + dwordTotal mem a n) = dword c := by
  induction n with
  | zero => rfl
  | succ n ih =>
    have hlt := readDword_lt mem (a + 4 * n)
    rw [dwordTotal,Finset.sum_range_succ,dwordRest,List.range_succ,List.foldl_concat]
    rw [dwordRest,dwordTotal] at ih
    unfold dword dsub at ih ⊢
    omega

theorem dwordTotal_succ (mem : ℕ → UInt8) (a n : ℕ) :
    dwordTotal mem a (n + 1) = readDword mem a + dwordTotal mem (a + 4) n := by
  rw [dwordTotal,Finset.sum_range_succ',Nat.add_comm,dwordTotal]
  congr 1
  apply Finset.sum_congr rfl
  intro i _
  congr 1
  ring

theorem dwordTotal_congr {mem' : ℕ → UInt8} (h : ∀ i, a ≤ i → i < a + 4 * n → mem' i = mem i) :
    dwordTotal mem' a n = dwordTotal mem a n := by
  apply Finset.sum_congr rfl
  intro i hi
  have hlt := Finset.mem_range.mp hi
  exact readDword_congr fun j hj hj' => h j (by omega) (by omega)

theorem dwordTotal_write (hk : k < n) (hv : v < 2 ^ 32) :
    dwordTotal (write mem (a + 4 * k) (dwordBytes v)) a n + readDword mem (a + 4 * k) =
      dwordTotal mem a n + v := by
  have hmem := Finset.mem_range.mpr hk
  have hrest : ∑ i ∈ (Finset.range n).erase k,
      readDword (write mem (a + 4 * k) (dwordBytes v)) (a + 4 * i) =
      ∑ i ∈ (Finset.range n).erase k, readDword mem (a + 4 * i) := by
    apply Finset.sum_congr rfl
    intro i hi
    have hne := Finset.ne_of_mem_erase hi
    exact readDword_write (by rw [length_dwordBytes]; omega)
  rw [dwordTotal,dwordTotal,← Finset.add_sum_erase _ _ hmem,← Finset.add_sum_erase _ _ hmem,hrest,
    readDword_write_self hv]
  ring

/-- The word that was zero brings the sum of all to the value they were taken from. -/
theorem dwordTotal_balanced (hk : k < n) (hc : c < 2 ^ 32) (hzero : readDword mem (a + 4 * k) = 0) :
    dword (dwordTotal (write mem (a + 4 * k) (dwordBytes (dwordRest c mem a n))) a n) = c := by
  have hlt : dwordRest c mem a n < 2 ^ 32 := dwordRest_lt hc
  have htotal : dwordTotal (write mem (a + 4 * k) (dwordBytes (dwordRest c mem a n))) a n +
      readDword mem (a + 4 * k) = dwordTotal mem a n + dwordRest c mem a n :=
    dwordTotal_write hk hlt
  rw [hzero,Nat.add_zero] at htotal
  rw [htotal,Nat.add_comm,dwordRest_add,dword_of_lt hc]

end Sums

end SecureWipeOut.Bytes
