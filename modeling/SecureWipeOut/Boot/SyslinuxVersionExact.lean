import SecureWipeOut.Boot.SyslinuxExtra

/-! # When the version of Syslinux is sound

The function does not look at the character between the two numbers, nor whether there are
digits, and it makes a slash of the character behind them even where that is the NUL that ends
the string.
-/
namespace SecureWipeOut.SyslinuxVersion
open CText

section readings
variable {asserts : Bool} {data : List Char} {k : ℕ}

theorem Marker.majorEnd_lt (h : Marker (terminated data) k) :
    majorEnd (terminated data) k < data.length := by
  have hpoint : charAt (terminated data) (majorEnd (terminated data) k) ≠ nul := by
    rw [h.point]
    decide
  have hlt := lt_length_of_charAt hpoint
  rw [length_terminated] at hlt
  refine lt_of_le_of_ne (Nat.le_of_lt_succ hlt) fun hend => hpoint ?_
  rw [hend,charAt_terminated]

theorem Marker.reading (h : Marker (terminated data) k) :
    reading asserts data.length (terminated data) k = .found := by
  have hlt := h.majorEnd_lt
  rw [SyslinuxVersion.reading,if_neg (Nat.not_le.mpr h.major),if_neg (by omega),
    if_neg (Nat.not_le.mpr h.minor),if_neg h.nonzero]

/-- A marker in reach that is the first to end the scan is the first one at all. -/
theorem FirstStop.firstMarker (h : FirstStop asserts data.length (terminated data) k)
    (hmarker : Marker (terminated data) k) : FirstMarker (terminated data) k := by
  refine ⟨h.1.le,hmarker,fun j hj hle hother => h.2 j hj ⟨hle,hj.trans h.1.lt,hother.name,?_⟩⟩
  rw [hother.reading]
  decide

/-- What the numbers are when they give a version. -/
structure Numbers (data : List Char) (k : ℕ) : Prop where
  major : major (terminated data) k < 256
  minor : minor (terminated data) k < 256
  nonzero : versionOf (terminated data) k ≠ 0
  start : versionStart k ≤ majorEnd (terminated data) k
  apart : majorEnd (terminated data) k + 1 ≤ minorEnd (terminated data) k
  le : minorEnd (terminated data) k ≤ data.length

theorem numbers_of_found (h : reading asserts data.length (terminated data) k = .found) :
    Numbers data k := by
  rw [SyslinuxVersion.reading] at h
  split at h
  · split at h <;> cases h
  · next hmajor =>
    split at h
    · cases h
    · next hend =>
      split at h
      · split at h <;> cases h
      · next hminor =>
        split at h
        · cases h
        · next hzero =>
          exact ⟨Nat.not_le.mp hmajor,Nat.not_le.mp hminor,hzero,Nat.le_add_right _ _,
            Nat.le_add_right _ _,number_le (Nat.not_lt.mp hend)⟩

theorem outOfBounds_iff : reading asserts data.length (terminated data) k = .outOfBounds ↔
    major (terminated data) k < 256 ∧ data.length ≤ majorEnd (terminated data) k := by
  rw [SyslinuxVersion.reading]
  split
  · next hmajor => cases asserts <;> simp [Nat.not_lt.mpr hmajor]
  · next hmajor =>
    split
    · next hend => exact iff_of_true rfl ⟨Nat.not_le.mp hmajor,Nat.le_of_lt_succ hend⟩
    · next hend =>
      refine iff_of_false ?_ fun h => hend (Nat.lt_succ_of_le h.2)
      split
      · cases asserts <;> decide
      · split <;> decide

theorem versionOf_eq (buf : Buf) (k : ℕ) : versionOf buf k = 256 * major buf k + minor buf k := by
  rw [versionOf,Nat.shiftLeft_eq,Nat.mul_comm]

end readings

section strings
variable {buf : Buf} {a x : ℕ}

/-- A string goes on over characters that are no NUL. -/
theorem length_cstr_add (buf : Buf) {a x : ℕ} (hle : a ≤ x) (hx : x ≤ buf.length)
    (h : ∀ y, a ≤ y → y < x → charAt buf y ≠ nul) :
    a + (cstr buf a).length = x + (cstr buf x).length := by
  have hsplit : buf.drop a = (buf.drop a).take (x - a) ++ buf.drop x := by
    conv_lhs => rw [← List.take_append_drop (x - a) (buf.drop a)]
    rw [List.drop_drop,Nat.add_sub_cancel' hle]
  have hall : ∀ c ∈ (buf.drop a).take (x - a), (c != nul) = true := by
    intro c hc
    obtain ⟨d,hd,rfl⟩ := List.mem_take_iff_getElem.mp hc
    have hchar := h (a + d) (Nat.le_add_right _ _) (by omega)
    rw [charAt_add,charAt,List.getD_eq_getElem?_getD,List.getElem?_eq_getElem (by omega)] at hchar
    exact bne_iff_ne.mpr hchar
  have hlen : ((buf.drop a).take (x - a)).length = x - a := by
    rw [List.length_take,List.length_drop]
    omega
  rw [cstr,hsplit,List.takeWhile_append_of_pos hall,List.length_append,hlen,cstr]
  omega

/-- A string ends at the first NUL. -/
theorem length_cstr_le (hle : a ≤ x) (h : charAt buf x = nul) : a + (cstr buf a).length ≤ x := by
  by_contra hlong
  obtain ⟨d,rfl⟩ := Nat.exists_eq_add_of_le hle
  have hd : d < (cstr buf a).length := by omega
  have hsplit : cstr buf a = (cstr buf a).take d ++ (cstr buf a)[d] :: (cstr buf a).drop (d + 1) := by
    simp
  have hchar := charAt_of_cstr hsplit
  rw [List.length_take,Nat.min_eq_left hd.le,h] at hchar
  exact nul_notMem_cstr buf a (hchar ▸ List.getElem_mem hd)

/-- The characters that agree. -/
theorem getD_matching {as bs : List Char} {d : ℕ} (h : d < matching as bs) :
    as.getD d nul = bs.getD d nul ∧ bs.getD d nul ≠ ' ' := by
  induction as generalizing bs d with
  | nil => exact absurd h (Nat.not_lt_zero _)
  | cons a as ih =>
    cases bs with
    | nil => exact absurd h (Nat.not_lt_zero _)
    | cons b bs =>
      rw [matching] at h
      split at h
      · next hsame =>
        cases d with
        | zero => exact ⟨hsame.1,hsame.1 ▸ hsame.2⟩
        | succ d => exact ih (Nat.lt_of_succ_lt_succ h)
      · exact absurd h (Nat.not_lt_zero _)

end strings

section version
variable {asserts : Bool} {data : List Char} {k : ℕ}

/-- Where the comparison finds a character again. -/
theorem charAt_repeated {buf : Buf} {i q d : ℕ} (hi : i ≤ q) (hq : q < buf.length)
    (h : d < repeated buf i q) : charAt (buf.set q '/') (i + d) = charAt buf (q + 1 + d) ∧
      charAt buf (q + 1 + d) ≠ ' ' := by
  have hmatch := getD_matching h
  rw [← drop_set_slash hi hq] at hmatch
  rw [charAt_add,charAt_add buf]
  exact hmatch

theorem passed_le (buf : Buf) (i q : ℕ) : passed buf i q ≤ repeated buf i q + 1 := by
  rw [passed,withDash]
  split <;> split <;> omega

/-- What is passed over beyond the characters that agree is a dash. -/
theorem charAt_dash {buf : Buf} {i q : ℕ} (h : repeated buf i q < passed buf i q) :
    charAt buf (q + 1 + repeated buf i q) = '-' := by
  rw [passed,withDash] at h
  rw [charAt_add]
  by_contra hne
  have hdash : (behind buf q).getD (repeated buf i q) nul ≠ '-' := hne
  rw [if_neg hdash] at h
  split at h
  · exact lt_irrefl _ h
  · exact Nat.not_lt_zero _ h

theorem Numbers.charAt_number (h : Numbers data k) {x : ℕ} (hx : versionStart k ≤ x)
    (hx' : x < minorEnd (terminated data) k) (hne : x ≠ majorEnd (terminated data) k) :
    isNumberChar (charAt (terminated data) x) = true := by
  have hlt : x < (terminated data).length := by
    have := h.le
    rw [length_terminated]
    omega
  rcases Nat.lt_or_ge x (majorEnd (terminated data) k) with hbefore | hafter
  · exact isNumberChar_charAt hx hbefore hlt
  · exact isNumberChar_charAt (Nat.lt_of_le_of_ne hafter hne.symm) hx' hlt

/-- With the slash in its place, what agrees with the version of a marker has no NUL. -/
theorem Marker.charAt_slash (h : Marker (terminated data) k) (hnumbers : Numbers data k) {x : ℕ}
    (hx : versionStart k ≤ x)
    (hx' : x ≤ minorEnd (terminated data) k +
      repeated (terminated data) (versionStart k) (minorEnd (terminated data) k)) :
    charAt ((terminated data).set (minorEnd (terminated data) k) '/') x ≠ nul := by
  have hlt : minorEnd (terminated data) k < (terminated data).length := by
    have := hnumbers.le
    rw [length_terminated]
    omega
  induction x using Nat.strong_induction_on with
  | _ x ih =>
    rcases Nat.lt_trichotomy x (minorEnd (terminated data) k) with hbefore | rfl | hafter
    · rw [charAt_set_of_ne hbefore.ne]
      by_cases hpoint : x = majorEnd (terminated data) k
      · rw [hpoint,h.point]
        decide
      · intro hnul
        have hnumber := hnumbers.charAt_number hx hbefore hpoint
        rw [hnul,not_isNumberChar.1] at hnumber
        cases hnumber
    · rw [charAt,List.getD_eq_getElem?_getD,List.getElem?_set_self hlt]
      decide
    · -- the character agrees with an earlier one
      obtain ⟨d,rfl⟩ := Nat.exists_eq_add_of_lt hafter
      have hindex : minorEnd (terminated data) k + d + 1 = minorEnd (terminated data) k + 1 + d := by
        omega
      have hle := hnumbers.start.trans (Nat.le_of_succ_le hnumbers.apart)
      rw [charAt_set_of_ne hafter.ne',hindex,← (charAt_repeated hle hlt (by omega)).1]
      exact ih _ (by omega) (Nat.le_add_right _ _) (by omega)

/-- A marker that no NUL ends goes on at least as far as what is passed over. -/
theorem Marker.charAt_ne_nul (h : Marker (terminated data) k) (hnumbers : Numbers data k)
    (hend : charAt (terminated data) (minorEnd (terminated data) k) ≠ nul) {x : ℕ}
    (hx : versionStart k ≤ x)
    (hx' : x ≤ minorEnd (terminated data) k +
      passed (terminated data) (versionStart k) (minorEnd (terminated data) k)) :
    charAt (terminated data) x ≠ nul := by
  have hpassed := passed_le (terminated data) (versionStart k) (minorEnd (terminated data) k)
  by_cases hslash : x = minorEnd (terminated data) k
  · rw [hslash]
    exact hend
  · rcases Nat.lt_or_ge (minorEnd (terminated data) k +
      repeated (terminated data) (versionStart k) (minorEnd (terminated data) k)) x with hdash | hsame
    · have hindex : x = minorEnd (terminated data) k + 1 +
          repeated (terminated data) (versionStart k) (minorEnd (terminated data) k) := by omega
      rw [hindex,charAt_dash (by omega)]
      decide
    · rw [← charAt_set_of_ne hslash '/']
      exact h.charAt_slash hnumbers hx hsame

/-- A later marker is not reached by what is passed over: its name has a blank. -/
theorem lt_versionStart (hnumbers : Numbers data k) (hname : isName (terminated data) k = true) {j : ℕ}
    (hother : isName (terminated data) j = true) (hkj : k < j) :
    minorEnd (terminated data) k +
      passed (terminated data) (versionStart k) (minorEnd (terminated data) k) < versionStart j := by
  have hapart := isName_apart hname hother hkj
  have hle := hnumbers.start.trans (Nat.le_of_succ_le hnumbers.apart)
  have h3 : charAt (terminated data) (j + 3) = 'U' := isName_charAt hother 3 (by decide)
  have h4 : charAt (terminated data) (j + 4) = 'X' := isName_charAt hother 4 (by decide)
  have h5 : charAt (terminated data) (j + 5) = ' ' := isName_charAt hother 5 (by decide)
  have hstart : versionStart j = j + 6 := rfl
  -- two letters cannot both be the character between the numbers
  have hend : minorEnd (terminated data) k ≤ j + 4 := by
    by_contra hlong
    by_cases hpoint : j + 3 = majorEnd (terminated data) k
    · have hnumber := hnumbers.charAt_number (x := j + 4) (by omega) (by omega) (by omega)
      rw [h4,not_isNumberChar.2.2] at hnumber
      cases hnumber
    · have hnumber := hnumbers.charAt_number (x := j + 3) (by omega) (by omega) hpoint
      rw [h3,not_isNumberChar.2.1] at hnumber
      cases hnumber
  by_contra hlong
  have hpassed := passed_le (terminated data) (versionStart k) (minorEnd (terminated data) k)
  have hlt : minorEnd (terminated data) k < (terminated data).length := by
    have := hnumbers.le
    rw [length_terminated]
    omega
  have hblank := (charAt_repeated (d := j + 4 - minorEnd (terminated data) k) hle hlt (by omega)).2
  have hindex : minorEnd (terminated data) k + 1 + (j + 4 - minorEnd (terminated data) k) = j + 5 := by
    omega
  rw [hindex] at hblank
  exact hblank h5

end version

/-- The comparison with what follows the version finds a difference ahead of the end. -/
def Compared (data : List Char) (k : ℕ) : Prop :=
  repeated (terminated data) (versionStart k) (minorEnd (terminated data) k) <
    (behind (terminated data) (minorEnd (terminated data) k)).length

/-- A name is a marker that no NUL ends, or the first marker has the same numbers and nothing but
blanks and stars is left behind the version. -/
def Tells (data : List Char) (k : ℕ) : Prop :=
  Marker (terminated data) k ∧ charAt (terminated data) (minorEnd (terminated data) k) ≠ nul ∨
    (∃ j, FirstMarker (terminated data) j ∧ major (terminated data) j = major (terminated data) k ∧
      minor (terminated data) j = minor (terminated data) k) ∧
    ∀ c ∈ cstr (terminated data) (minorEnd (terminated data) k + 1 +
      passed (terminated data) (versionStart k) (minorEnd (terminated data) k)), isTail c = true

/-- What the function needs of the data at the first name that ends the scan: its first number
does not end where the data does, and where there is a version the other two hold. -/
structure Harmless (asserts : Bool) (data : List Char) : Prop where
  first : ∀ k, FirstStop asserts data.length (terminated data) k → major (terminated data) k < 256 →
    majorEnd (terminated data) k < data.length
  compared : ∀ k, FirstStop asserts data.length (terminated data) k →
    reading asserts data.length (terminated data) k = .found → Compared data k
  tells : ∀ k, FirstStop asserts data.length (terminated data) k →
    reading asserts data.length (terminated data) k = .found → Tells data k

theorem matching_le (as bs : List Char) : matching as bs ≤ bs.length := by
  induction as generalizing bs with
  | nil => exact Nat.zero_le _
  | cons a as ih =>
    cases bs with
    | nil => exact Nat.zero_le _
    | cons b bs =>
      rw [matching,List.length_cons]
      split
      · exact Nat.succ_le_succ (ih bs)
      · exact Nat.zero_le _

/-- For a marker the comparison needs no more than a character behind the version. -/
theorem Marker.compared_iff {data : List Char} {k : ℕ} (h : Marker (terminated data) k)
    (hnumbers : Numbers data k) : Compared data k ↔ minorEnd (terminated data) k < data.length := by
  have hlength := length_behind hnumbers.le
  rw [Compared,hlength]
  refine ⟨fun hlt => by omega,fun hlt => ?_⟩
  have hmost : repeated (terminated data) (versionStart k) (minorEnd (terminated data) k) ≤
      data.length - minorEnd (terminated data) k := hlength ▸ matching_le _ _
  refine lt_of_le_of_ne hmost fun hall => ?_
  have hle := hnumbers.start.trans (Nat.le_of_succ_le hnumbers.apart)
  have hlast := h.charAt_slash hnumbers (x := data.length) (hle.trans hnumbers.le) (by omega)
  rw [charAt_set_of_ne hlt.ne',charAt_terminated] at hlast
  exact hlast rfl

section sound
variable {asserts : Bool} {data : List Char} {k : ℕ}

theorem clean_notMem (c : Char) : clean c ∉ unauthorized := by
  rw [clean]
  split
  · decide
  · next hno => simpa using hno

theorem clean_eq_blank {c : Char} (h : clean c = ' ') : c = ' ' := by
  rw [clean] at h
  split at h
  · exact absurd h (by decide)
  · exact h

theorem extraText_eq_nil_iff (buf : Buf) (i q : ℕ) :
    extraText buf i q = [] ↔ ∀ c ∈ cstr buf (q + 1 + passed buf i q), isTail c = true :=
  List.rdropWhile_eq_nil_iff

/-- The extra version of a marker that no NUL ends is a part of its string. -/
theorem Marker.partOf (h : Marker (terminated data) k) (hnumbers : Numbers data k)
    (hend : charAt (terminated data) (minorEnd (terminated data) k) ≠ nul)
    (hinside : repeated (terminated data) (versionStart k) (minorEnd (terminated data) k) <
      (behind (terminated data) (minorEnd (terminated data) k)).length)
    (hne : extraText (terminated data) (versionStart k) (minorEnd (terminated data) k) ≠ [])
    {buf' : Buf} {p : ℕ} (hp : p = minorEnd (terminated data) k +
      passed (terminated data) (versionStart k) (minorEnd (terminated data) k))
    (hslash : charAt buf' p = '/')
    (htext : cstr buf' (p + 1) =
      (extraText (terminated data) (versionStart k) (minorEnd (terminated data) k)).map clean) :
    PartOf (terminated data) k buf' p := by
  have hle := hnumbers.start.trans (Nat.le_of_succ_le hnumbers.apart)
  have hpassed := passed_lt hnumbers.le hinside
  have hbehind : minorEnd (terminated data) k + 1 +
      passed (terminated data) (versionStart k) (minorEnd (terminated data) k) = p + 1 := by omega
  have hpre : extraText (terminated data) (versionStart k) (minorEnd (terminated data) k) <+:
      cstr (terminated data) (p + 1) := by
    rw [extraText,hbehind]
    exact List.rdropWhile_prefix _ _
  have hdrop := hpre.trans (List.takeWhile_prefix fun c => c != nul)
  refine ⟨hslash,?_,by omega,?_,?_,?_,?_⟩
  · rw [htext]
    simpa using hne
  · rw [htext,List.length_map]
    have hlength := length_cstr_add (terminated data) (a := versionStart k) (x := p + 1)
      (by omega) (by rw [length_terminated]; omega)
      fun y hy hy' => h.charAt_ne_nul hnumbers hend hy (by omega)
    have := hpre.length_le
    omega
  · rw [htext,List.length_map]
    exact congrArg (List.map clean) (List.prefix_iff_eq_take.mp hdrop)
  · intro c hc
    rw [htext] at hc
    obtain ⟨d,-,rfl⟩ := List.mem_map.mp hc
    exact clean_notMem d
  · rw [htext,List.getLast?_map,List.getLast?_eq_some_getLast hne]
    intro hblank
    have hlast := clean_eq_blank (Option.some.inj hblank)
    refine List.rdropWhile_last_not isTail _ hne ?_
    exact (congrArg isTail hlast).trans rfl

/-- What the first stop does with the version, in terms of the data alone. -/
theorem sound_found_iff (hfirst : FirstStop asserts data.length (terminated data) k)
    (hfound : reading asserts data.length (terminated data) k = .found) :
    Sound (terminated data) (outcome asserts data.length (terminated data) k) ↔
      Compared data k ∧ Tells data k := by
  have hnumbers := numbers_of_found hfound
  have hle := hnumbers.start.trans (Nat.le_of_succ_le hnumbers.apart)
  rw [outcome,hfound,Compared,Tells,← extraText_eq_nil_iff]
  dsimp only
  rcases Nat.lt_or_ge (repeated (terminated data) (versionStart k) (minorEnd (terminated data) k))
    (behind (terminated data) (minorEnd (terminated data) k)).length with hinside | houtside
  · obtain ⟨buf',heq,hslash,htext⟩ :=
      extraVersion_inside (versionOf (terminated data) k) hle hnumbers.le hinside
    rw [heq,Sound]
    constructor
    · intro h
      obtain ⟨j,hj,hversion,hpart⟩ := h hnumbers.nonzero
      rw [versionOf_eq] at hversion
      have hminor := hj.2.1.minor
      have hminor' := hnumbers.minor
      refine ⟨hinside,?_⟩
      by_cases hnil : extraText (terminated data) (versionStart k) (minorEnd (terminated data) k) = []
      · exact Or.inr ⟨⟨j,hj,by omega,by omega⟩,hnil⟩
      · have hpart := hpart _ (if_neg hnil)
        have hjk : j = k := by
          rcases Nat.lt_trichotomy j k with hbefore | rfl | hafter
          · refine absurd ⟨hj.1,hbefore.trans hfirst.1.lt,hj.2.1.name,?_⟩ (hfirst.2 j hbefore)
            rw [hj.2.1.reading]
            decide
          · rfl
          · have hfar := lt_versionStart hnumbers hfirst.1.name hj.2.1.name hafter
            exact absurd hpart.behind (Nat.not_le.mpr hfar)
        rw [hjk] at hj hpart
        refine Or.inl ⟨hj.2.1,fun hnul => ?_⟩
        have hshort := length_cstr_le hle hnul
        have := hpart.ahead
        omega
    · rintro ⟨-,⟨hmarker,hend⟩ | ⟨⟨j,hj,hmajor,hminor⟩,hnil⟩⟩ -
      · refine ⟨k,hfirst.firstMarker hmarker,versionOf_eq _ _,fun p hp => ?_⟩
        split at hp
        · cases hp
        · next hne =>
          obtain rfl := Option.some.inj hp
          exact hmarker.partOf hnumbers hend hinside hne rfl hslash htext
      · refine ⟨j,hj,by rw [hmajor,hminor]; exact versionOf_eq _ _,fun p hp => ?_⟩
        rw [if_pos hnil] at hp
        cases hp
  · rw [extraVersion_outside _ hle hnumbers.le houtside]
    exact iff_of_false id fun h => Nat.not_lt.mpr houtside h.1

theorem majorEnd_lt (asserts : Bool) (h : reading asserts data.length (terminated data) k ≠ .outOfBounds)
    (hmajor : major (terminated data) k < 256) : majorEnd (terminated data) k < data.length := by
  by_contra hend
  exact h (outOfBounds_iff.mpr ⟨hmajor,Nat.not_lt.mp hend⟩)

theorem FirstStop.unique {j : ℕ} (h : FirstStop asserts data.length (terminated data) k)
    (h' : FirstStop asserts data.length (terminated data) j) : j = k := by
  rcases Nat.lt_trichotomy j k with hlt | heq | hgt
  · exact absurd h'.1 (h.2 j hlt)
  · exact heq
  · exact absurd h.1 (h'.2 k hgt)

theorem FirstStop.harmless_iff (h : FirstStop asserts data.length (terminated data) k) :
    Harmless asserts data ↔
      (major (terminated data) k < 256 → majorEnd (terminated data) k < data.length) ∧
      (reading asserts data.length (terminated data) k = .found → Compared data k ∧ Tells data k) := by
  constructor
  · intro hharmless
    exact ⟨hharmless.first k h,fun hfound => ⟨hharmless.compared k h hfound,hharmless.tells k h hfound⟩⟩
  · rintro ⟨hfirst,hfound⟩
    refine ⟨fun j hj => ?_,fun j hj => ?_,fun j hj => ?_⟩
    all_goals rw [h.unique hj]
    · exact hfirst
    · exact fun hread => (hfound hread).1
    · exact fun hread => (hfound hread).2

theorem FirstStop.sound_iff (h : FirstStop asserts data.length (terminated data) k) :
    Sound (terminated data) (outcome asserts data.length (terminated data) k) ↔
      Harmless asserts data := by
  rw [h.harmless_iff]
  cases hread : reading asserts data.length (terminated data) k with
  | skipped => exact absurd hread h.1.read
  | aborted =>
    rw [outcome,hread]
    refine iff_of_true trivial ⟨majorEnd_lt asserts ?_,fun hfound => ?_⟩
    · rw [hread]
      exact Reading.noConfusion
    · cases hfound
  | outOfBounds =>
    obtain ⟨hmajor,hend⟩ := outOfBounds_iff.mp hread
    rw [outcome,hread]
    exact iff_of_false id fun hall => Nat.not_lt.mpr hend (hall.1 hmajor)
  | found =>
    rw [sound_found_iff h hread,eq_self_iff_true,true_imp_iff]
    refine (and_iff_right (majorEnd_lt asserts ?_)).symm
    rw [hread]
    exact Reading.noConfusion

end sound

/-- The function stays inside the data, and its results are those of the first marker, exactly
when the data is harmless; with less than 256 bytes it does nothing. -/
theorem getSyslinuxVersion_sound_iff (asserts : Bool) (data : List Char) :
    Sound (terminated data) (getSyslinuxVersion asserts data) ↔
      (256 ≤ data.length → Harmless asserts data) := by
  by_cases hlarge : 256 ≤ data.length
  · rw [imp_iff_right hlarge]
    by_cases hstop : ∃ k, Stops asserts data.length (terminated data) k
    · classical
      have hfirst : FirstStop asserts data.length (terminated data) (Nat.find hstop) :=
        ⟨Nat.find_spec hstop,fun j hj => Nat.find_min hstop hj⟩
      rw [getSyslinuxVersion_of_first hlarge hfirst]
      exact hfirst.sound_iff
    · rw [getSyslinuxVersion_of_none fun _ k hk => hstop ⟨k,hk⟩]
      refine iff_of_true (fun h => absurd rfl h) ⟨?_,?_,?_⟩
      all_goals exact fun k hk => absurd ⟨k,hk.1⟩ hstop
  · rw [getSyslinuxVersion_of_none fun h => absurd h hlarge]
    exact iff_of_true (fun h => absurd rfl h) fun h => absurd h hlarge

/-- A name with blanks behind it up to a last digit. -/
def paddedVersion : List Char :=
  List.replicate 61 'x' ++ "ISOLINUX ".toList ++ List.replicate 185 ' ' ++ ['4']

theorem getSyslinuxVersion_not_sound :
    ¬ Sound (terminated paddedVersion) (getSyslinuxVersion true paddedVersion) := by
  have hout : getSyslinuxVersion true paddedVersion = .outOfBounds := by decide +kernel
  rw [hout]
  exact id

end SecureWipeOut.SyslinuxVersion
