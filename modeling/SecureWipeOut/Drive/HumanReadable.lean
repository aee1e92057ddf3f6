import SecureWipeOut.Lib.Nearest

/-! # Sizes as a text

`SizeToHumanReadable` divides a double by 1024 until it is below that, which is exact, and
prints it with one digit behind the point or none. The size is its numerator over a power of
1024. How a tie is printed depends on the C library.
-/
namespace SecureWipeOut.HumanReadable
open Nearest

/-- The units in English, which the log messages use. -/
def msgTable : List (List Char) := ["bytes","KB","MB","GB","TB","PB"].map String.toList

def maxSizeSuffixes : ℕ := 6

/-- The loop over the suffixes, with the number of rounds that remain. -/
def suffixLoop (hrSize : ℕ) : ℕ → ℕ → ℕ
  | 0,suffix => suffix
  | n + 1,suffix => if hrSize < 1024 ^ (suffix + 1) then suffix else suffixLoop hrSize n (suffix + 1)

/-- A number of tenths with the point. -/
def tenths (t : ℕ) : List Char := Nat.toDigits 10 (t / 10) ++ '.' :: Nat.toDigits 10 (t % 10)

/-- The number that is printed for a size over a divider. -/
def numberText (ties : Ties) (hrSize divider : ℕ) : List Char :=
  if 2 * toDouble (10 * hrSize) < (20 * (hrSize / divider) + 1) * divider then
    Nat.toDigits 10 (nearest ties hrSize divider)
  else tenths (nearest ties (10 * hrSize) divider)

/-- `SizeToHumanReadable` for the log and without fake units. -/
def sizeToHumanReadable (ties : Ties) (size : UInt64) : List Char :=
  let hrSize := toDouble size.toNat
  let suffix := suffixLoop hrSize (maxSizeSuffixes - 1) 0
  let number := if suffix = 0 then Nat.toDigits 10 hrSize else numberText ties hrSize (1024 ^ suffix)
  number ++ ' ' :: msgTable.getD suffix []

section text
variable {ties : Ties} {hrSize : ℕ}

/-- The suffix is the largest one that leaves a size of at least 1. -/
structure Suffix (hrSize suffix : ℕ) : Prop where
  le : suffix < maxSizeSuffixes
  least : suffix ≠ 0 → 1024 ^ suffix ≤ hrSize
  most : suffix + 1 < maxSizeSuffixes → hrSize < 1024 ^ (suffix + 1)

theorem suffixLoop_suffix {n suffix : ℕ} (hn : n + suffix + 1 = maxSizeSuffixes)
    (hleast : suffix ≠ 0 → 1024 ^ suffix ≤ hrSize) : Suffix hrSize (suffixLoop hrSize n suffix) := by
  induction n generalizing suffix with
  | zero =>
    rw [suffixLoop]
    exact ⟨by omega,hleast,fun h => absurd h (by omega)⟩
  | succ n ih =>
    rw [suffixLoop]
    split
    · next hlt => exact ⟨by omega,hleast,fun _ => hlt⟩
    · next hge => exact ih (by omega) fun _ => Nat.not_lt.mp hge

theorem suffix_eq_zero_iff {suffix : ℕ} (h : Suffix hrSize suffix) : suffix = 0 ↔ hrSize < 1024 := by
  refine ⟨?_,fun hlt => ?_⟩
  · rintro rfl
    exact h.most (by decide)
  · by_contra hne
    have hleast := h.least hne
    have hpow : 1024 ^ 1 ≤ 1024 ^ suffix := Nat.pow_le_pow_right (by decide) (Nat.one_le_iff_ne_zero.mpr hne)
    omega

theorem toDouble_lt_iff {n : ℕ} : toDouble n < 1024 ↔ n < 1024 := by
  refine ⟨fun h => ?_,fun h => ?_⟩
  · by_contra hge
    exact absurd (le_toDouble (k := 10) (Nat.not_lt.mp hge)) (Nat.not_le.mpr h)
  · rw [toDouble_of_lt (h.trans (by decide))]
    exact h

theorem toDouble_size_le (size : UInt64) : toDouble size.toNat ≤ 2 ^ 64 := by
  have hlt := size.toNat_lt
  refine toDouble_le hlt.le ?_
  rcases Nat.eq_zero_or_pos size.toNat with hzero | hpos
  · rw [hzero]
    decide
  · have := (Nat.log2_lt hpos.ne').mpr hlt
    omega

/-- The size over its divider is at most 1024, with the last suffix 16384. -/
theorem Suffix.le_mul {suffix : ℕ} (h : Suffix hrSize suffix) (hmax : hrSize ≤ 2 ^ 64) :
    hrSize ≤ 16384 * 1024 ^ suffix := by
  rcases Nat.lt_or_ge (suffix + 1) maxSizeSuffixes with hlt | hge
  · have hmost := h.most hlt
    rw [Nat.pow_succ] at hmost
    omega
  · have hsuffix : suffix = 5 := by
      have := h.le
      rw [maxSizeSuffixes] at this hge
      omega
    rw [hsuffix]
    omega

theorem length_toDigits {n k : ℕ} (hk : 0 < k) (h : n < 10 ^ k) : (Nat.toDigits 10 n).length ≤ k :=
  (Nat.length_toDigits_le_iff (by decide) hk).mpr h

theorem length_tenths {t : ℕ} (h : t ≤ 163840) : (tenths t).length ≤ 7 := by
  have hwhole : (Nat.toDigits 10 (t / 10)).length ≤ 5 := length_toDigits (by decide) (by omega)
  have hlast : (Nat.toDigits 10 (t % 10)).length ≤ 1 := length_toDigits (by decide) (by omega)
  rw [tenths,List.length_append,List.length_cons]
  omega

theorem length_numberText (ties : Ties) {divider : ℕ} (hpos : 0 < divider) (hmax : hrSize ≤ 16384 * divider) :
    (numberText ties hrSize divider).length ≤ 7 := by
  rw [numberText]
  split
  · have hwhole := nearest_le ties hpos hmax
    have := length_toDigits (n := nearest ties hrSize divider) (k := 5) (by decide) (by omega)
    omega
  · refine length_tenths (nearest_le ties hpos ?_)
    omega

/-- The characters of a number are digits and a point. -/
theorem mem_numberText {divider : ℕ} {c : Char} (h : c ∈ numberText ties hrSize divider) :
    c.isDigit = true ∨ c = '.' := by
  have hdigit : ∀ n, c ∈ Nat.toDigits 10 n → c.isDigit = true := fun n hc =>
    Nat.isDigit_of_mem_toDigits (by decide) (by decide) hc
  rw [numberText] at h
  split at h
  · exact Or.inl (hdigit _ h)
  · rw [tenths,List.mem_append,List.mem_cons] at h
    rcases h with hwhole | hpoint | hlast
    · exact Or.inl (hdigit _ hwhole)
    · exact Or.inr hpoint
    · exact Or.inl (hdigit _ hlast)

theorem unit_of_ne_zero {suffix : ℕ} (h : suffix < maxSizeSuffixes) (hne : suffix ≠ 0) :
    (msgTable.getD suffix []).length = 2 ∧
      ∀ c ∈ msgTable.getD suffix [], c ∈ ['K','M','G','T','P','B'] := by
  have hunits : (msgTable.getD suffix []).length = 2 ∧
      (msgTable.getD suffix []).all (['K','M','G','T','P','B'].contains ·) = true := by
    rw [maxSizeSuffixes] at h
    interval_cases suffix
    · exact absurd rfl hne
    all_goals exact ⟨rfl,rfl⟩
  refine ⟨hunits.1,fun c hc => ?_⟩
  exact List.contains_iff_mem.mp (List.all_eq_true.mp hunits.2 c hc)

/-- From 1024 bytes on a size is written in capitals. -/
theorem sizeToHumanReadable_of_le (ties : Ties) {size : UInt64} (h : 1024 ≤ size.toNat) :
    (sizeToHumanReadable ties size).length ≤ 10 ∧
    ∀ c ∈ sizeToHumanReadable ties size, c.isDigit = true ∨ c ∈ ['.',' ','K','M','G','T','P','B'] := by
  have hsuffix : Suffix (toDouble size.toNat) (suffixLoop (toDouble size.toNat) 5 0) :=
    suffixLoop_suffix rfl fun hne => absurd rfl hne
  have hne : suffixLoop (toDouble size.toNat) 5 0 ≠ 0 := fun hzero =>
    absurd (toDouble_lt_iff.mp ((suffix_eq_zero_iff hsuffix).mp hzero)) (Nat.not_lt.mpr h)
  rw [sizeToHumanReadable,maxSizeSuffixes]
  generalize suffixLoop (toDouble size.toNat) 5 0 = suffix at hsuffix hne
  obtain ⟨hlength,hmem⟩ := unit_of_ne_zero hsuffix.le hne
  rw [if_neg hne]
  constructor
  · have hnumber := length_numberText ties (Nat.pow_pos (n := suffix) (by decide))
      (hsuffix.le_mul (toDouble_size_le size))
    rw [List.length_append,List.length_cons,hlength]
    omega
  · intro c hc
    rw [List.mem_append,List.mem_cons] at hc
    rcases hc with hnumber | hblank | hletter
    · rcases mem_numberText hnumber with hdigit | hpoint
      · exact Or.inl hdigit
      · exact Or.inr (hpoint ▸ List.mem_cons_self)
    · exact Or.inr (hblank ▸ List.mem_cons_of_mem _ List.mem_cons_self)
    · exact Or.inr (List.mem_cons_of_mem _ (List.mem_cons_of_mem _ (hmem c hletter)))

/-- Below that it is written out in small letters. -/
theorem sizeToHumanReadable_of_lt (ties : Ties) {size : UInt64} (h : size.toNat < 1024) :
    sizeToHumanReadable ties size = Nat.toDigits 10 size.toNat ++ " bytes".toList := by
  have hlow := toDouble_lt_iff.mpr h
  have hsuffix : suffixLoop (toDouble size.toNat) 5 0 = 0 :=
    (suffix_eq_zero_iff (suffixLoop_suffix rfl fun hne => absurd rfl hne)).mpr hlow
  rw [sizeToHumanReadable,maxSizeSuffixes]
  rw [hsuffix,if_pos rfl,toDouble_of_lt (h.trans (by decide))]
  rfl

end text

example : sizeToHumanReadable .even 8103395328 = "7.5 GB".toList := by decide +kernel

end SecureWipeOut.HumanReadable
