import SecureWipeOut.Drive.ValidLabel

/-! # Which labels become valid

The loop over the characters works in place and never grows the text, so only the label taken
from the size of the disk can be too long for the copy.
-/
namespace SecureWipeOut.ValidLabel
open Nearest HumanReadable Encodings

section cells
variable {bFAT : Bool}

theorem text_eq (inside : Bool) {a : List ℕ} (b : List ℕ) (h : ∀ c ∈ a, c ≠ 0) :
    (⟨a ++ 0 :: b,inside⟩ : Wide).text = a := by
  rw [Wide.text,List.takeWhile_append_of_pos fun c hc => bne_iff_ne.mpr (h c hc)]
  simp

theorem toupper_ne_zero {c : ℕ} (h : c ≠ 0) : toupper c ≠ 0 := by
  rw [toupper]
  split <;> omega

theorem labelChar_ne_zero {u c : ℕ} (hu : u ≠ 0) (h : labelChar bFAT u = some c) : c ≠ 0 := by
  rw [labelChar] at h
  split at h
  · cases h
  · split at h
    · obtain rfl := Option.some.inj h
      decide
    · split at h
      · obtain rfl := Option.some.inj h
        decide
      · obtain rfl := Option.some.inj h
        split
        · exact toupper_ne_zero hu
        · exact hu

theorem filterMap_ne_zero (bFAT : Bool) {us : List ℕ} (h : ∀ u ∈ us, u ≠ 0) :
    ∀ c ∈ us.filterMap (labelChar bFAT), c ≠ 0 := by
  intro c hc
  obtain ⟨u,hu,hchar⟩ := List.mem_filterMap.mp hc
  exact labelChar_ne_zero (h u hu) hchar

/-- The loop looks at the character behind those done and those left over. -/
theorem reads_next {done junk rest : List ℕ} {u : ℕ} (h : ∀ c ∈ done ++ junk ++ u :: rest, c ≠ 0) :
    done.length + junk.length < (⟨done ++ junk ++ u :: rest ++ [0],true⟩ : Wide).text.length ∧
      (done ++ junk ++ u :: rest ++ [0]).getD (done.length + junk.length) 0 = u := by
  constructor
  · rw [text_eq true [] h]
    simp only [List.length_append,List.length_cons]
    omega
  · rw [List.getD_eq_getElem?_getD,List.append_assoc,← List.length_append,
      List.getElem?_append_right le_rfl]
    simp

/-- Where a character comes to stand, the first of those left over goes. -/
theorem put_left {done junk rest ys : List ℕ} {u y c : ℕ} (h : junk ++ [u] = y :: ys) :
    (⟨done ++ junk ++ u :: rest ++ [0],true⟩ : Wide).put done.length c =
      ⟨done ++ [c] ++ ys ++ rest ++ [0],true⟩ := by
  have hcells : done ++ junk ++ u :: rest ++ [0] = done ++ y :: (ys ++ rest ++ [0]) := by
    rw [List.append_assoc done,List.append_cons junk u rest,h]
    simp
  rw [Wide.put,hcells]
  simp

/-- Behind the characters done and those left over, the rest is still to come. -/
theorem mapLoop_eq (bFAT : Bool) (fuel : ℕ) (done junk : List ℕ) {rest : List ℕ}
    (hdone : ∀ c ∈ done, c ≠ 0) (hjunk : ∀ c ∈ junk, c ≠ 0) (hrest : ∀ c ∈ rest, c ≠ 0)
    (hfuel : rest.length ≤ fuel) :
    ∃ junk', (rest.filterMap (labelChar bFAT)).length + junk'.length = junk.length + rest.length ∧
      mapLoop bFAT fuel (done.length + junk.length) done.length ⟨done ++ junk ++ rest ++ [0],true⟩ =
        ((done ++ rest.filterMap (labelChar bFAT)).length,
          ⟨done ++ rest.filterMap (labelChar bFAT) ++ junk' ++ [0],true⟩) := by
  have hboth := List.forall_mem_append.mpr ⟨hdone,hjunk⟩
  induction rest generalizing fuel done junk with
  | nil =>
    refine ⟨junk,by simp,?_⟩
    have htext : (⟨done ++ junk ++ [] ++ [0],true⟩ : Wide).text = done ++ junk := by
      rw [List.append_nil]
      exact text_eq true [] hboth
    cases fuel with
    | zero => simp [mapLoop]
    | succ fuel =>
      rw [mapLoop,htext,List.length_append,if_neg (lt_irrefl _)]
      simp
  | cons u rest ih =>
    obtain ⟨fuel,rfl⟩ := Nat.exists_eq_add_of_le' (Nat.one_le_of_lt hfuel)
    have hle : rest.length ≤ fuel := Nat.le_of_succ_le_succ hfuel
    obtain ⟨hu,hrest'⟩ := List.forall_mem_cons.mp hrest
    have hleft : ∀ c ∈ junk ++ [u], c ≠ 0 :=
      List.forall_mem_append.mpr ⟨hjunk,List.forall_mem_singleton.mpr hu⟩
    obtain ⟨hlt,hget⟩ := reads_next (List.forall_mem_append.mpr ⟨hboth,hrest⟩)
    rw [mapLoop,if_pos hlt]
    dsimp only
    rw [hget]
    cases hchar : labelChar bFAT u with
    | none =>
      obtain ⟨junk',hlength,hloop⟩ := ih fuel done (junk ++ [u]) hdone hleft hrest' hle
        (List.forall_mem_append.mpr ⟨hdone,hleft⟩)
      rw [List.filterMap_cons_none hchar]
      refine ⟨junk',?_,?_⟩
      · rw [List.length_append] at hlength
        simp only [List.length_cons,List.length_nil] at hlength ⊢
        omega
      · rw [← hloop]
        simp [Nat.add_assoc]
    | some c =>
      -- the place of the character is that of the first one left over, or its own
      obtain ⟨y,ys,hys⟩ := List.exists_cons_of_ne_nil (List.append_ne_nil_of_right_ne_nil junk (List.cons_ne_nil u []))
      have hlen : junk.length = ys.length := by
        simpa using congrArg List.length hys
      have hys' : ∀ d ∈ ys, d ≠ 0 := (List.forall_mem_cons.mp (hys ▸ hleft)).2
      have hdone' : ∀ d ∈ done ++ [c], d ≠ 0 :=
        List.forall_mem_append.mpr
          ⟨hdone,List.forall_mem_singleton.mpr (labelChar_ne_zero hu hchar)⟩
      obtain ⟨junk',hlength,hloop⟩ := ih fuel (done ++ [c]) ys hdone' hys' hrest' hle
        (List.forall_mem_append.mpr ⟨hdone',hys'⟩)
      rw [List.filterMap_cons_some hchar]
      refine ⟨junk',?_,?_⟩
      · simp only [List.length_cons]
        omega
      · have hindex : done.length + junk.length + 1 = (done ++ [c]).length + ys.length := by
          rw [List.length_append,hlen,List.length_singleton]
          omega
        have hcount : done.length + 1 = (done ++ [c]).length := by simp
        dsimp only
        rw [put_left hys,hindex,hcount,hloop]
        simp

/-- What a label is cut to, with the rest of the copy behind it. -/
theorem cut_eq (limit : ℕ) {a b : List ℕ} (h : ∀ c ∈ a, c ≠ 0) :
    ∃ b', (a.take limit).length + b'.length = a.length + b.length ∧
      (if limit < (⟨a ++ 0 :: b,true⟩ : Wide).text.length then (⟨a ++ 0 :: b,true⟩ : Wide).put limit 0
        else ⟨a ++ 0 :: b,true⟩) = ⟨a.take limit ++ 0 :: b',true⟩ := by
  rw [text_eq true b h]
  by_cases hlt : limit < a.length
  · refine ⟨a.drop (limit + 1) ++ 0 :: b,?_,?_⟩
    · rw [List.length_take,List.length_append,List.length_drop,List.length_cons]
      omega
    · rw [if_pos hlt,Wide.put,List.set_append_left _ _ hlt,List.set_eq_take_append_cons_drop,if_pos hlt,
        decide_eq_true (by rw [List.length_append]; omega)]
      simp
  · refine ⟨b,?_,?_⟩
    · rw [List.take_of_length_le (Nat.not_lt.mp hlt)]
    · rw [if_neg hlt,List.take_of_length_le (Nat.not_lt.mp hlt)]

theorem putLabel_inside (label : List Char) (i : ℕ) (w : Wide) :
    (putLabel label i w).inside = (w.inside && decide (i + label.length < w.cells.length)) := by
  induction label generalizing i w with
  | nil => rfl
  | cons c label ih =>
    rw [putLabel,ih,Wide.put,List.length_set,List.length_cons,Bool.and_assoc,← Bool.decide_and]
    congr 2
    exact propext ⟨fun h => by omega,fun h => by omega⟩

theorem putLabel_cells (inside : Bool) (label : List Char) (a b : List ℕ) (h : label.length < b.length) :
    (putLabel label a.length ⟨a ++ b,inside⟩).cells =
      a ++ label.map sizeChar ++ 0 :: b.drop (label.length + 1) := by
  induction label generalizing a b inside with
  | nil =>
    obtain ⟨x,b,rfl⟩ := List.exists_cons_of_length_pos (Nat.zero_lt_of_lt h)
    simp [putLabel,Wide.put]
  | cons c label ih =>
    obtain ⟨x,b,rfl⟩ := List.exists_cons_of_length_pos (Nat.zero_lt_of_lt h)
    have hput : (a ++ x :: b).set a.length (sizeChar c) = a ++ [sizeChar c] ++ b := by simp
    have hlength : a.length + 1 = (a ++ [sizeChar c]).length := by simp
    rw [putLabel,Wide.put,hput,hlength,ih _ _ _ (Nat.lt_of_succ_lt_succ h)]
    simp

end cells

section units

theorem wideChars_ne_zero {c : Char} (h : c ≠ Char.ofNat 0) : ∀ w ∈ wideChars c, w ≠ 0 := by
  intro w hw
  have hc : c.toNat ≠ 0 := fun hzero => h (Char.toNat_inj.mp hzero)
  rw [wideChars] at hw
  split at hw
  · exact (List.mem_singleton.mp hw) ▸ hc
  · rw [List.mem_cons,List.mem_singleton] at hw
    omega

theorem Label.units_ne_zero (l : Label) : ∀ u ∈ l.units, u ≠ 0 := by
  intro u hu
  obtain ⟨c,hc,hw⟩ := List.mem_flatMap.mp hu
  exact wideChars_ne_zero (fun hzero => l.isText (hzero ▸ hc)) u hw

theorem length_wideChars_le (c : Char) : (wideChars c).length ≤ (String.utf8EncodeChar c).length := by
  rw [String.length_utf8EncodeChar,wideChars]
  split
  · exact c.utf8Size_pos
  · next hlarge =>
    have hsize : c.utf8Size = 4 := by
      have hc : c.val.toNat = c.toNat := rfl
      rw [Char.utf8Size,if_neg,if_neg,if_neg]
      all_goals
        rw [UInt32.le_iff_toNat_le,hc]
        norm_num
        omega
    rw [hsize,List.length_cons,List.length_singleton]
    decide

/-- The copy is no longer than the label. -/
theorem Label.length_units_le (l : Label) : l.units.length ≤ l.bytes.length := by
  rw [Label.units,Label.bytes,List.length_flatMap,List.length_flatMap]
  exact List.sum_le_sum fun c _ => length_wideChars_le c

theorem unitToUtf8_of_lt {w : ℕ} (h : w < 0x80) : unitToUtf8 w = [UInt8.ofNat w] := by
  have hall : ∀ w < 0x80, unitToUtf8 w = [UInt8.ofNat w] := by decide +kernel
  exact hall w h

theorem wcharToUtf8_of_lt {ws : List ℕ} (h : ∀ w ∈ ws, w < 0x80) :
    wcharToUtf8 ws = ws.map UInt8.ofNat := by
  induction ws with
  | nil => rfl
  | cons w ws ih =>
    have hw := h w List.mem_cons_self
    have hws := ih fun x hx => h x (List.mem_cons_of_mem _ hx)
    cases ws with
    | nil => exact unitToUtf8_of_lt hw
    | cons w' ws =>
      have hhigh : isHigh w = false := by
        rw [isHigh,decide_eq_false (by omega),Bool.false_and]
      rw [wcharToUtf8,hhigh,Bool.false_and,if_neg Bool.false_ne_true,unitToUtf8_of_lt hw,hws]
      rfl

/-- What is stored for a character of a FAT label may stand in one. -/
theorem isFatChar_labelChar {u c : ℕ} (h : labelChar true u = some c) : isFatChar c = true := by
  rcases Nat.lt_or_ge u 0x80 with hlt | hge
  · have hall : ∀ u < 0x80, (labelChar true u).all isFatChar = true := by decide +kernel
    have := hall u hlt
    rw [h] at this
    exact this
  · rw [labelChar] at h
    split at h
    · cases h
    · rw [Bool.true_and,if_pos (decide_eq_true hge)] at h
      obtain rfl := Option.some.inj h
      decide

end units

section labels
variable {ties : Ties} {diskSize : UInt64} {l : Label}

theorem fatText_ne_zero (l : Label) : ∀ c ∈ fatText l, c ≠ 0 := fun c hc =>
  filterMap_ne_zero true l.units_ne_zero c (List.mem_of_mem_take hc)

theorem isFatChar_of_mem {c : ℕ} (h : c ∈ fatText l) : isFatChar c = true := by
  obtain ⟨u,-,hchar⟩ := List.mem_filterMap.mp (List.mem_of_mem_take h)
  exact isFatChar_labelChar hchar

theorem length_fatText_le (l : Label) :
    (fatText l).length ≤ 11 ∧ (fatText l).length ≤ l.units.length := by
  have hfilter := List.length_filterMap_le (labelChar true) l.units
  rw [fatText,List.length_take]
  omega

/-- What is stored and copied back from the copy. -/
def labelled (l : Label) (w : Wide) : Labelled :=
  ⟨safeStrcpy (l.bytes.length + 1) (wcharToUtf8 w.text),wcharToUtf8 w.text,w.inside⟩

/-- The copy before it is replaced, and what the function makes of it. -/
theorem toValidLabel_eq (ties : Ties) (diskSize : UInt64) (l : Label) :
    ∃ b, (fatText l).length + b.length = l.units.length ∧
      toValidLabel ties diskSize l true = labelled l
        (if mostlyUnderscore (fatText l) then
          putLabel (sizeLabel ties diskSize) 0 ⟨fatText l ++ 0 :: b,true⟩
        else ⟨fatText l ++ 0 :: b,true⟩) := by
  have hunits := l.units_ne_zero
  obtain ⟨junk,hlength,hloop⟩ := mapLoop_eq true (l.units ++ [0]).length [] []
    (fun c hc => absurd hc List.not_mem_nil) (fun c hc => absurd hc List.not_mem_nil)
    hunits (by rw [List.length_append]; omega)
  have hne := filterMap_ne_zero true hunits
  obtain ⟨x,b,hb⟩ : ∃ x b, junk ++ [0] = x :: b := by
    cases junk with
    | nil => exact ⟨0,[],rfl⟩
    | cons x junk => exact ⟨x,junk ++ [0],rfl⟩
  have hblen : b.length = junk.length := by
    simpa using (congrArg List.length hb).symm
  simp only [List.nil_append,List.length_nil,Nat.add_zero,Nat.zero_add] at hloop hlength
  have hput : (⟨l.units.filterMap (labelChar true) ++ junk ++ [0],true⟩ : Wide).put
      (l.units.filterMap (labelChar true)).length 0 =
        ⟨l.units.filterMap (labelChar true) ++ 0 :: b,true⟩ := by
    rw [Wide.put,List.append_assoc,hb]
    simp
  obtain ⟨b',hcutlen,hcut⟩ := cut_eq 11 (b := b) hne
  refine ⟨b',by rw [fatText]; omega,?_⟩
  rw [toValidLabel]
  simp only [hloop,hput,if_true,hcut,Bool.true_and]
  rw [← fatText,text_eq true b' (fatText_ne_zero l)]
  rfl

theorem lt_of_isFatChar {c : ℕ} (h : isFatChar c = true) : c < 0x80 := by
  rw [isFatChar,Bool.and_eq_true,Bool.and_eq_true,decide_eq_true_iff] at h
  exact h.1.1

/-- A text that fits the label is stored and copied back as it is. -/
theorem fatLabel_text (l : Label) (text : List ℕ) (hchars : ∀ c ∈ text, isFatChar c = true)
    (hmax : text.length ≤ 11) (hfits : text.length ≤ l.units.length) :
    FatLabel (safeStrcpy (l.bytes.length + 1) (wcharToUtf8 text)) ∧
      safeStrcpy (l.bytes.length + 1) (wcharToUtf8 text) = wcharToUtf8 text := by
  have hlength := l.length_units_le
  have hsame : safeStrcpy (l.bytes.length + 1) (wcharToUtf8 text) = text.map UInt8.ofNat := by
    rw [safeStrcpy,wcharToUtf8_of_lt fun c hc => lt_of_isFatChar (hchars c hc),Nat.add_sub_cancel]
    refine List.take_of_length_le ?_
    rw [List.length_map]
    omega
  rw [hsame,wcharToUtf8_of_lt fun c hc => lt_of_isFatChar (hchars c hc)]
  refine ⟨⟨by rw [List.length_map]; exact hmax,fun b hb => ?_⟩,rfl⟩
  obtain ⟨c,hc,rfl⟩ := List.mem_map.mp hb
  have hlt := lt_of_isFatChar (hchars c hc)
  rw [UInt8.toNat_ofNat',Nat.mod_eq_of_lt (by omega)]
  exact hchars c hc

theorem sizeLabel_of_le (ties : Ties) (h : 1024 ≤ diskSize.toNat) :
    sizeLabel ties diskSize = sizeToHumanReadable ties diskSize := by
  have := (sizeToHumanReadable_of_le ties h).1
  exact List.take_of_length_le (by omega)

theorem sizeChar_fat {c : Char}
    (h : c.isDigit = true ∨ c ∈ ['.',' ','K','M','G','T','P','B']) :
    isFatChar (sizeChar c) = true ∧ sizeChar c ≠ 0 := by
  rcases h with hdigit | hletter
  · have hrange : 48 ≤ c.toNat ∧ c.toNat ≤ 57 := by
      rw [Char.isDigit,Bool.and_eq_true,decide_eq_true_iff,decide_eq_true_iff] at hdigit
      exact hdigit
    have hpoint : c ≠ '.' := by
      rintro rfl
      cases hdigit
    have hall : ∀ n < 58, 48 ≤ n → isFatChar n = true := by decide +kernel
    rw [sizeChar,if_neg hpoint]
    exact ⟨hall c.toNat (by omega) hrange.1,by omega⟩
  · simp only [List.mem_cons,List.not_mem_nil,or_false] at hletter
    rcases hletter with rfl | rfl | rfl | rfl | rfl | rfl | rfl | rfl <;> exact ⟨rfl,by decide⟩

theorem sizeLabel_of_lt (ties : Ties) (h : diskSize.toNat < 1024) :
    'b' ∈ sizeLabel ties diskSize ∧ ∀ c ∈ sizeLabel ties diskSize, sizeChar c < 0x80 ∧ sizeChar c ≠ 0 := by
  have hdigits : (Nat.toDigits 10 diskSize.toNat).length ≤ 4 := length_toDigits (by decide) (by omega)
  have hlabel : sizeLabel ties diskSize = Nat.toDigits 10 diskSize.toNat ++ " bytes".toList := by
    rw [sizeLabel,sizeToHumanReadable_of_lt ties h,List.take_of_length_le]
    rw [List.length_append]
    change _ + 6 ≤ 15
    omega
  rw [hlabel]
  refine ⟨List.mem_append_right _ (by decide),fun c hc => ?_⟩
  rcases List.mem_append.mp hc with hdigit | hletter
  · have hfat := sizeChar_fat (Or.inl (Nat.isDigit_of_mem_toDigits (by decide) (by decide) hdigit))
    exact ⟨lt_of_isFatChar hfat.1,hfat.2⟩
  · have hchars : c ∈ [' ','b','y','t','e','s'] := hletter
    simp only [List.mem_cons,List.not_mem_nil,or_false] at hchars
    rcases hchars with rfl | rfl | rfl | rfl | rfl | rfl <;> exact ⟨by decide,by decide⟩

/-- The label taken from the size of the disk, when it fits the copy. -/
theorem text_putLabel {a b : List ℕ} {label : List Char} (hlabel : ∀ c ∈ label, sizeChar c ≠ 0)
    (hfits : label.length ≤ a.length + b.length) :
    (putLabel label 0 ⟨a ++ 0 :: b,true⟩).text = label.map sizeChar := by
  have hcells := putLabel_cells true label [] (a ++ 0 :: b)
    (by rw [List.length_append,List.length_cons]; omega)
  rw [List.nil_append,List.nil_append,List.length_nil] at hcells
  have hne : ∀ c ∈ label.map sizeChar, c ≠ 0 := by
    intro c hc
    obtain ⟨d,hd,rfl⟩ := List.mem_map.mp hc
    exact hlabel d hd
  rw [Wide.text,hcells]
  exact text_eq true _ hne

end labels

/-- The label of a FAT volume is valid unless it is mostly underscores and the size that replaces
it is below 1024 bytes or has more characters than the label. -/
theorem toValidLabel_valid_iff (ties : Ties) (diskSize : UInt64) (l : Label) :
    Valid (toValidLabel ties diskSize l true) ↔
      (mostlyUnderscore (fatText l) = true → 1024 ≤ diskSize.toNat ∧
        (sizeToHumanReadable ties diskSize).length ≤ l.units.length) := by
  obtain ⟨b,hlength,heq⟩ := toValidLabel_eq ties diskSize l
  obtain ⟨hmax,hfits⟩ := length_fatText_le l
  rw [heq]
  cases hmostly : mostlyUnderscore (fatText l) with
  | false =>
    rw [if_neg Bool.false_ne_true,labelled,text_eq true b (fatText_ne_zero l)]
    obtain ⟨hlabel,hsame⟩ := fatLabel_text l (fatText l) (fun c hc => isFatChar_of_mem hc) hmax hfits
    exact iff_of_true ⟨hlabel,hsame,rfl⟩ fun h => Bool.noConfusion h
  | true =>
    rw [if_pos rfl,labelled]
    have hinside : (putLabel (sizeLabel ties diskSize) 0 ⟨fatText l ++ 0 :: b,true⟩).inside = true ↔
        (sizeLabel ties diskSize).length ≤ (fatText l).length + b.length := by
      rw [putLabel_inside,Bool.true_and,decide_eq_true_iff,List.length_append,List.length_cons]
      omega
    constructor
    · intro h _
      have hroom := hinside.mp h.inside
      have hlarge : 1024 ≤ diskSize.toNat := by
        by_contra hsmall
        obtain ⟨hb,hsmallChars⟩ := sizeLabel_of_lt ties (Nat.not_le.mp hsmall)
        have htext := text_putLabel (a := fatText l) (b := b) (fun c hc => (hsmallChars c hc).2) hroom
        have hlabel := h.label.2
        rw [h.same,htext,wcharToUtf8_of_lt] at hlabel
        · have hbyte := hlabel (UInt8.ofNat (sizeChar 'b'))
            (List.mem_map_of_mem (List.mem_map_of_mem hb))
          exact absurd hbyte (by decide)
        · intro c hc
          obtain ⟨d,hd,rfl⟩ := List.mem_map.mp hc
          exact (hsmallChars d hd).1
      rw [sizeLabel_of_le ties hlarge] at hroom
      exact ⟨hlarge,hroom.trans hlength.le⟩
    · intro h
      obtain ⟨hlarge,hroom⟩ := h rfl
      obtain ⟨hten,hchars⟩ := sizeToHumanReadable_of_le ties hlarge
      rw [← hlength,← sizeLabel_of_le ties hlarge] at hroom
      rw [← sizeLabel_of_le ties hlarge] at hten hchars
      rw [text_putLabel (fun c hc => (sizeChar_fat (hchars c hc)).2) hroom]
      obtain ⟨hlabel,hsame⟩ := fatLabel_text l ((sizeLabel ties diskSize).map sizeChar)
        (fun c hc => by
          obtain ⟨d,hd,rfl⟩ := List.mem_map.mp hc
          exact (sizeChar_fat (hchars d hd)).1)
        (by rw [List.length_map]; omega) (by rw [List.length_map]; omega)
      exact ⟨hlabel,hsame,hinside.mpr hroom⟩

/-- The label of one letter outside ASCII, on a disk of 8 GB. -/
theorem toValidLabel_not_valid :
    ¬ Valid (toValidLabel .even 8589934592 ⟨['é'],by decide⟩ true) := by
  intro h
  exact absurd h.inside (by decide +kernel)

end SecureWipeOut.ValidLabel
