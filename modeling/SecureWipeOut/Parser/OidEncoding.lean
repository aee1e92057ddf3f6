import SecureWipeOut.Parser.Oid

/-! # Encoding of object identifiers

The loop of `make_flagged_int` writes the minimal groups, and the arcs that `oid_from_str` reads
are those of the dotted text. An arc of 2 ^ 32 or more is read as the largest number.
-/
namespace SecureWipeOut.Oid
open CText Base128

section Groups

/-- One round of `make_flagged_int` writes one group, unless no group has been needed yet. -/
theorem flagStep_eq (n shift : ℕ) (buf : List UInt8) :
    flagStep (decide (2 ^ (shift + 7) ≤ n),n % 2 ^ (shift + 7),buf ++ leading (n / 2 ^ (shift + 7))) shift =
      (decide (2 ^ shift ≤ n),n % 2 ^ shift,buf ++ leading (n / 2 ^ shift)) := by
  have hpow : 2 ^ (shift + 7) = 2 ^ shift * 128 := pow_add 2 shift 7
  have hpos : 0 < 2 ^ shift := Nat.two_pow_pos shift
  have hdiv : n / 2 ^ (shift + 7) = n / 2 ^ shift / 128 := by rw [hpow,Nat.div_div_eq_div_mul]
  have hgroup : n % 2 ^ (shift + 7) / 2 ^ shift = n / 2 ^ shift % 128 := by rw [hpow,Nat.mod_mul_right_div_self]
  have hlow : n % 2 ^ (shift + 7) % 2 ^ shift = n % 2 ^ shift :=
    Nat.mod_mod_of_dvd n (Dvd.intro 128 hpow.symm)
  have hflag : (decide (2 ^ (shift + 7) ≤ n) || decide (1 <<< shift ≤ n % 2 ^ (shift + 7))) = decide (2 ^ shift ≤ n) := by
    rw [Nat.one_shiftLeft,Bool.eq_iff_iff,Bool.or_eq_true,decide_eq_true_eq,decide_eq_true_eq,decide_eq_true_eq]
    constructor
    · rintro (h | h)
      · omega
      · exact h.trans (Nat.mod_le _ _)
    · intro h
      rcases Nat.lt_or_ge n (2 ^ (shift + 7)) with hlt | hge
      · right
        rwa [Nat.mod_eq_of_lt hlt]
      · exact Or.inl hge
  unfold flagStep
  rw [hflag]
  by_cases h : 2 ^ shift ≤ n
  · have hne : n / 2 ^ shift ≠ 0 := Nat.ne_of_gt (Nat.div_pos h hpos)
    have hor : 0x80 ||| n / 2 ^ shift % 128 = 128 + n / 2 ^ shift % 128 :=
      (Nat.two_pow_add_eq_or_of_lt (show n / 2 ^ shift % 128 < 2 ^ 7 from Nat.mod_lt _ (by omega)) 1).symm
    rw [if_pos (decide_eq_true h),decide_eq_true h]
    dsimp only
    rw [Nat.shiftRight_eq_div_pow,hgroup,hor,Nat.shiftLeft_eq,hdiv,leading_pos hne,List.append_assoc]
    have hrest : n % 2 ^ (shift + 7) - n / 2 ^ shift % 128 * 2 ^ shift = n % 2 ^ shift := by
      rw [← hgroup,← hlow,mul_comm]
      exact (Nat.mod_eq_sub_mul_div).symm
    rw [hrest]
  · rw [if_neg (by simpa using h),decide_eq_false h]
    have hlt := not_le.mp h
    rw [Nat.div_eq_of_lt hlt,Nat.mod_eq_of_lt hlt,Nat.div_eq_of_lt (by omega),Nat.mod_eq_of_lt (by omega),
      decide_eq_false (by omega)]

theorem makeFlaggedInt_eq {n : ℕ} (h : n < 2 ^ 32) (buf : List UInt8) : makeFlaggedInt n buf = buf ++ encode n := by
  have h35 : n < 2 ^ 35 := by omega
  have hstart : (false,n,buf) = (decide (2 ^ 35 ≤ n),n % 2 ^ 35,buf ++ leading (n / 2 ^ 35)) := by
    rw [decide_eq_false (by omega),Nat.mod_eq_of_lt h35,Nat.div_eq_of_lt h35,leading_zero,List.append_nil]
  unfold makeFlaggedInt
  rw [hstart]
  simp only [List.foldl_cons,List.foldl_nil]
  rw [flagStep_eq n 28,flagStep_eq n 21,flagStep_eq n 14,flagStep_eq n 7,encode,List.append_assoc]
  rfl

end Groups

section Numerals

theorem digit_lt_iff (c : Char) : decide (digit c < 10) = c.isDigit := by
  have h0 : '0'.toNat = 48 := rfl
  have h9 : '9'.toNat = 57 := rfl
  rw [Bool.eq_iff_iff,decide_eq_true_eq,Char.isDigit_iff_toNat]
  unfold digit
  split
  next h => exact ⟨fun _ => h,fun _ => by have := h.2; omega⟩
  next h =>
    split
    · constructor
      · omega
      · intro h'
        exact absurd h' h
    · split
      · constructor
        · omega
        · intro h'
          exact absurd h' h
      · constructor
        · omega
        · intro h'
          exact absurd h' h

theorem digits_eq (s : List Char) : digits 10 s = digits 10 (s.takeWhile Char.isDigit) := by
  unfold digits
  simp only [digit_lt_iff]
  congr 1
  exact List.takeWhile_idem.symm

/-- The texts of a number. -/
def IsNum (num : List Char) : Prop := num ≠ [] ∧ num.all Char.isDigit = true

theorem IsNum.takeWhile {num tail : List Char} (h : IsNum num) (htail : ∀ c ∈ tail.head?, c.isDigit = false) :
    (num ++ tail).takeWhile Char.isDigit = num :=
  takeWhile_append_stop (fun c hc => List.all_eq_true.mp h.2 c hc) htail

theorem IsNum.dropWhile {num tail : List Char} (h : IsNum num) (htail : ∀ c ∈ tail.head?, c.isDigit = false) :
    (num ++ tail).dropWhile Char.isDigit = tail := by
  have := List.takeWhile_append_dropWhile (p := Char.isDigit) (l := num ++ tail)
  rw [h.takeWhile htail] at this
  exact List.append_cancel_left this

theorem IsNum.digits {num tail : List Char} (h : IsNum num) (htail : ∀ c ∈ tail.head?, c.isDigit = false) :
    digits 10 (num ++ tail) = digits 10 num := by
  rw [digits_eq,h.takeWhile htail]

theorem head_cases {c : Char} (h : c.isDigit = true) : isSpace c = false ∧ c ≠ '-' ∧ c ≠ '+' := by
  refine ⟨?_,?_,?_⟩
  · rw [isSpace,Bool.eq_false_iff]
    intro hmem
    have hc : c ∈ [' ','\t','\n','\r',Char.ofNat 11,Char.ofNat 12] := List.contains_iff_mem.mp hmem
    fin_cases hc <;> exact absurd h (by decide)
  · rintro rfl
    exact absurd h (by decide)
  · rintro rfl
    exact absurd h (by decide)

theorem dropWhile_blanks {s : List Char} (h : s.head?.any Char.isDigit = true) : s.dropWhile isSpace = s := by
  cases s with
  | nil => rfl
  | cons c s => rw [List.dropWhile_cons,if_neg (by rw [(head_cases h).1]; exact Bool.false_ne_true)]

/-- A text that begins with a digit has no blanks and no sign. -/
theorem unsigned_eq {s : List Char} (h : s.head?.any Char.isDigit = true) : unsigned s = s := by
  have hs := dropWhile_blanks h
  unfold unsigned
  split
  next s' he =>
    rw [hs] at he
    subst he
    exact absurd rfl (head_cases h).2.1
  next s' he =>
    rw [hs] at he
    subst he
    exact absurd rfl (head_cases h).2.2
  next => exact hs

theorem strtoul_eq {s : List Char} (h : s.head?.any Char.isDigit = true) :
    strtoul 10 s = min (2 ^ 32 - 1) (digits 10 s) := by
  have hs := dropWhile_blanks h
  unfold strtoul
  dsimp only
  split
  next s' he =>
    rw [hs] at he
    subst he
    exact absurd rfl (head_cases h).2.1
  next s' he =>
    rw [hs] at he
    subst he
    exact absurd rfl (head_cases h).2.2
  next =>
    rw [hs]
    congr 1
    split <;> rfl

theorem endp_eq {s : List Char} (h : s.head?.any Char.isDigit = true) : endp s = s.dropWhile Char.isDigit := by
  rw [endp,unsigned_eq h,if_pos h]

end Numerals

section Arcs

theorem IsNum.decimal {num : List Char} (h : IsNum num) : decimal num = some (CText.digits 10 num) := if_pos h

theorem IsNum.dot_notMem {num : List Char} (h : IsNum num) : '.' ∉ num :=
  fun hmem => absurd (List.all_eq_true.mp h.2 '.' hmem) (by decide)

theorem IsNum.head {num : List Char} (h : IsNum num) (tail : List Char) :
    (num ++ tail).head?.any Char.isDigit = true := by
  cases num with
  | nil => exact absurd rfl h.1
  | cons c num => exact List.all_eq_true.mp h.2 c List.mem_cons_self

theorem IsNum.dropWhile_num {num : List Char} (h : IsNum num) : num.dropWhile Char.isDigit = [] := by
  have hdrop := h.dropWhile (show ∀ c ∈ ([] : List Char).head?, c.isDigit = false by simp)
  rwa [List.append_nil] at hdrop

theorem IsNum.head_num {num : List Char} (h : IsNum num) : num.head?.any Char.isDigit = true := by
  have hhead := h.head []
  rwa [List.append_nil] at hhead

theorem dot_not_digit (text : List Char) : ∀ c ∈ ('.' :: text).head?, c.isDigit = false := by
  simp

/-- The first component of a dotted text ends at its first dot. -/
theorem arcsOf_dot {num : List Char} (h : IsNum num) (text : List Char) :
    arcsOf (num ++ '.' :: text) = (arcsOf text).map (digits 10 num :: ·) := by
  rw [arcsOf,List.splitOn_append_cons_self_of_not_mem h.dot_notMem,List.mapM_cons,h.decimal]
  cases harcs : arcsOf text with
  | none =>
    rw [arcsOf] at harcs
    rw [harcs]
    rfl
  | some arcs =>
    rw [arcsOf] at harcs
    rw [harcs]
    rfl

theorem arcsOf_num {num : List Char} (h : IsNum num) : arcsOf num = some [digits 10 num] := by
  rw [arcsOf,List.splitOn_eq_singleton h.dot_notMem,List.mapM_cons,h.decimal]
  rfl

/-- A text whose first component is not a number has no arcs. -/
theorem arcsOf_none {pre text : List Char} (h : ¬IsNum pre) (hdot : '.' ∉ pre)
    (htext : ∀ c ∈ text.head?, c = '.') : arcsOf (pre ++ text) = none := by
  have hnone : decimal pre = none := if_neg h
  cases text with
  | nil =>
    rw [List.append_nil,arcsOf,List.splitOn_eq_singleton hdot,List.mapM_cons,hnone]
    rfl
  | cons c text =>
    rw [htext c rfl,arcsOf,List.splitOn_append_cons_self_of_not_mem hdot,List.mapM_cons,hnone]
    rfl

/-- The checks that the loop makes of an arc. -/
def reads (text : List Char) : Bool :=
  text.head?.any Char.isDigit && (text.dropWhile Char.isDigit).head?.all fun c => c == '.'

theorem arcsOf_not_reads {text : List Char} (h : reads text = false) : arcsOf text = none := by
  obtain ⟨pre,rest,rfl,hpre,hrest⟩ := exists_split (fun c => c == '.') text
  have hhead : ∀ c ∈ rest.head?, c = '.' := fun c hc => by simpa using hrest c hc
  refine arcsOf_none (fun hnum => ?_) (fun hmem => by simpa using hpre '.' hmem) hhead
  rw [reads,hnum.head,hnum.dropWhile (fun c hc => hhead c hc ▸ rfl),Bool.true_and] at h
  cases rest with
  | nil => exact absurd h (by decide)
  | cons c rest =>
    rw [hhead c rfl] at h
    exact Bool.noConfusion h

/-- An arc is read when it is followed by a dot or by nothing. -/
theorem reads_cases {text : List Char} (h : reads text = true) :
    (∃ num rest, IsNum num ∧ text = num ++ '.' :: rest) ∨ IsNum text := by
  rw [reads,Bool.and_eq_true] at h
  have hnum : IsNum (text.takeWhile Char.isDigit) := by
    refine ⟨?_,List.all_eq_true.mpr fun c hc => List.mem_takeWhile_imp hc⟩
    cases text with
    | nil => exact absurd h.1 (by decide)
    | cons c text =>
      rw [List.takeWhile_cons,if_pos (show c.isDigit = true from h.1)]
      exact List.cons_ne_nil _ _
  have hsplit := List.takeWhile_append_dropWhile (p := Char.isDigit) (l := text)
  cases htail : text.dropWhile Char.isDigit with
  | nil =>
    rw [htail,List.append_nil] at hsplit
    rw [hsplit] at hnum
    exact Or.inr hnum
  | cons c rest =>
    rw [htail] at hsplit h
    obtain rfl : c = '.' := by simpa using h.2
    exact Or.inl ⟨_,rest,hnum,hsplit.symm⟩

end Arcs

section Loop

/-- What `strtoul` makes of an arc. -/
def clamp (n : ℕ) : ℕ := min (2 ^ 32 - 1) n

theorem clamp_lt (n : ℕ) : clamp n < 2 ^ 32 := by
  unfold clamp
  omega

theorem clamp_of_lt {n : ℕ} (h : n < 2 ^ 32) : clamp n = n := by
  unfold clamp
  omega

theorem check_eq (text : List Char) :
    (!(text.head?.any Char.isDigit) || !((endp text).head?.all fun c => c == '.')) = !reads text := by
  rw [reads,Bool.not_and]
  cases h : text.head?.any Char.isDigit with
  | false => rfl
  | true => rw [endp_eq h]

theorem oidLoop_not_reads {text : List Char} (h : reads text = false) (arcno val1 : ℕ) (oid : List UInt8) :
    oidLoop arcno val1 oid text = ⟨arcno + 1,oid,true⟩ := by
  rw [oidLoop,check_eq,h]
  rfl

theorem reads_num {num : List Char} (h : IsNum num) : reads num = true := by
  rw [reads,h.head_num,h.dropWhile_num]
  rfl

theorem reads_dot {num : List Char} (h : IsNum num) (text : List Char) : reads (num ++ '.' :: text) = true := by
  rw [reads,h.head,h.dropWhile (by simp)]
  rfl

theorem oidLoop_num {num : List Char} (h : IsNum num) {arcno : ℕ} (harc : arcno ≠ 0) (val1 : ℕ) (oid : List UInt8) :
    oidLoop arcno val1 oid num =
      match oidArc (arcno + 1) val1 (clamp (digits 10 num)) oid with
      | none => ⟨arcno + 1,oid,true⟩
      | some (_,oid) => ⟨arcno + 1,oid,false⟩ := by
  rw [oidLoop,check_eq,reads_num h,strtoul_eq h.head_num,if_neg (by decide),if_neg (by omega)]
  simp only [endp_eq h.head_num,h.dropWhile_num]
  rfl

theorem oidLoop_dot {num : List Char} (h : IsNum num) {arcno : ℕ} (harc : arcno ≠ 0) (val1 : ℕ) (oid : List UInt8)
    (text : List Char) : oidLoop arcno val1 oid (num ++ '.' :: text) =
      match oidArc (arcno + 1) val1 (clamp (digits 10 num)) oid with
      | none => ⟨arcno + 1,oid,true⟩
      | some (val1,oid) => oidLoop (arcno + 1) val1 oid text := by
  have hhead := h.head ('.' :: text)
  have hdrop := h.dropWhile (dot_not_digit text)
  have hdigits := h.digits (dot_not_digit text)
  rw [oidLoop,check_eq,reads_dot h,strtoul_eq hhead,if_neg (by decide),if_neg (by omega),hdigits]
  simp only [endp_eq hhead,hdrop]
  rfl

theorem oidLoop_first {num : List Char} (h : IsNum num) (text : List Char) : oidLoop 0 0 [] (num ++ '.' :: text) =
      if 2 < digits 10 num then ⟨1,[],false⟩ else oidLoop 1 (digits 10 num) [] text := by
  have hhead := h.head ('.' :: text)
  have hdrop := h.dropWhile (dot_not_digit text)
  have hdigits := h.digits (dot_not_digit text)
  rw [oidLoop,check_eq,reads_dot h,strtoul_eq hhead,if_neg (by decide),hdigits]
  by_cases h2 : 2 < digits 10 num
  · rw [if_pos (by omega),if_pos h2]
  · have hmin : min (2 ^ 32 - 1) (digits 10 num) = digits 10 num := by omega
    rw [if_neg (by omega),if_neg h2,hmin]
    simp only [endp_eq hhead,hdrop]
    rfl

theorem oidLoop_first_num {num : List Char} (h : IsNum num) : oidLoop 0 0 [] num = ⟨1,[],false⟩ := by
  rw [oidLoop,check_eq,reads_num h,strtoul_eq h.head_num,if_neg (by decide)]
  split
  · rfl
  · simp only [endp_eq h.head_num,h.dropWhile_num]
    rfl

theorem oidArc_later {arcno : ℕ} (h : 2 < arcno) (val1 n : ℕ) (oid : List UInt8) :
    oidArc arcno val1 (clamp n) oid = some (val1,oid ++ encode (clamp n)) := by
  rw [oidArc,if_neg (by omega),if_neg (by omega),makeFlaggedInt_eq (clamp_lt n)]

/-- From the third arc on, the arcs are written one behind the other. -/
theorem oidLoop_later (text : List Char) : ∀ {arcno : ℕ}, 2 ≤ arcno → ∀ (val1 : ℕ) (oid : List UInt8),
    match arcsOf text with
    | none => (oidLoop arcno val1 oid text).err = true
    | some arcs => oidLoop arcno val1 oid text =
        ⟨arcno + arcs.length,oid ++ arcs.flatMap fun n => encode (clamp n),false⟩ := by
  induction hlen : text.length using Nat.strongRecOn generalizing text with
  | ind k ih =>
    intro arcno harc val1 oid
    cases hreads : reads text with
    | false =>
      rw [arcsOf_not_reads hreads,oidLoop_not_reads hreads]
    | true =>
      rcases reads_cases hreads with ⟨num,rest,hnum,rfl⟩ | hnum
      · have hshort : rest.length < k := by
          rw [← hlen,List.length_append,List.length_cons]
          omega
        have hrest := ih rest.length hshort rest rfl (show 2 ≤ arcno + 1 by omega) val1
          (oid ++ encode (clamp (digits 10 num)))
        rw [arcsOf_dot hnum,oidLoop_dot hnum (by omega),oidArc_later (by omega)]
        cases harcs : arcsOf rest with
        | none =>
          rw [harcs] at hrest
          exact hrest
        | some arcs =>
          rw [harcs] at hrest
          dsimp only [Option.map_some] at hrest ⊢
          rw [hrest,List.length_cons,List.flatMap_cons,List.append_assoc,Nat.add_assoc,Nat.add_comm 1]
      · rw [arcsOf_num hnum,oidLoop_num hnum (by omega),oidArc_later (by omega)]
        simp

end Loop

end SecureWipeOut.Oid
