import SecureWipeOut.Pki.SkuPolicy
import Mathlib

/-! # When a policy is read right

The walk over a well-formed policy, rule by rule, and the condition under which TRUE means that
the policy is well-formed and the table right.
-/
namespace SecureWipeOut.SkuPolicy
open Bytes CInt

section Framing
variable {body content : List UInt8}

/-- The two forms of a length, told apart by the highest bit. -/
theorem lengthForm (k : UInt8) : (k < 0x80 → ¬k &&& 0x80 = 0x80) ∧
    (0x80 ≤ k → k &&& 0x80 = 0x80 ∧ (k &&& 0x7f).toNat = k.toNat - 0x80) := by
  have hall : ∀ n : Fin 256, (UInt8.ofNat n < 0x80 → ¬UInt8.ofNat n &&& 0x80 = 0x80) ∧
      (0x80 ≤ UInt8.ofNat n → UInt8.ofNat n &&& 0x80 = 0x80 ∧
        (UInt8.ofNat n &&& 0x7f).toNat = (UInt8.ofNat n).toNat - 0x80) := by
    decide +kernel
  have hk := hall ⟨k.toNat,k.toNat_lt⟩
  rwa [UInt8.ofNat_toNat] at hk

/-- The walk starts at the policy. -/
theorem Frames.holds (h : Frames body content) (hne : body ≠ []) (beyond : ℕ → UInt8) :
    Holds (memOf content beyond) (dwBaseIndex (memOf content beyond)) body := by
  have hall := holds_memOf content beyond
  cases h with
  | plain hhead =>
    obtain ⟨b,bs,rfl⟩ := List.exists_cons_of_ne_nil hne
    have hb : memOf (b :: bs) beyond 0 ≠ 4 := fun hb => hhead (congrArg some hb)
    rw [dwBaseIndex,if_neg hb]
    exact hall
  | @short k hk hlen =>
    obtain ⟨htag,hbody⟩ := holds_append.mp hall
    rw [dwBaseIndex,if_pos htag.1,htag.2.1,if_neg ((lengthForm k).1 hk)]
    exact hbody
  | @long k size hk hsize hlen =>
    rw [List.append_assoc] at hall
    obtain ⟨htag,hrest⟩ := holds_append.mp hall
    obtain ⟨-,hbody⟩ := holds_append.mp hrest
    obtain ⟨hlong,hcount⟩ := (lengthForm k).2 hk
    rw [← List.append_assoc] at htag hbody
    rw [dwBaseIndex,if_pos htag.1,htag.2.1,if_pos hlong,hcount,← hsize]
    exact hbody

end Framing

section Header
variable {mem : ℕ → UInt8} {a : ℕ} {p : Policy}

theorem Policy.length_header (p : Policy) : p.header.length = 68 := by
  simp only [Policy.header,List.length_append,length_dwordBytes,p.length_platform,p.length_signerCounts,
    p.length_version,skuCodeIntegrityPolicy,List.length_cons,List.length_nil]

theorem header_guid (h : Holds mem a p.header) : slice mem (a + 4) 16 = skuCodeIntegrityPolicy := by
  have hsplit : p.header = dwordBytes p.formatVersion ++ skuCodeIntegrityPolicy ++ (p.platformGuid ++
      dwordBytes p.optionFlags ++ dwordBytes p.ekuRules.length ++ dwordBytes p.fileRules.length ++
      p.signerCounts ++ p.version ++ dwordBytes 64) := by
    simp only [Policy.header,List.append_assoc]
  rw [hsplit] at h
  exact (h.part rfl).slice_eq rfl

theorem header_ekuRuleEntryCount (h : Holds mem a p.header) : readDword mem (a + 40) = p.ekuRules.length := by
  have hsplit : p.header = (dwordBytes p.formatVersion ++ skuCodeIntegrityPolicy ++ p.platformGuid ++
      dwordBytes p.optionFlags) ++ dwordBytes p.ekuRules.length ++ (dwordBytes p.fileRules.length ++
      p.signerCounts ++ p.version ++ dwordBytes 64) := by
    simp only [Policy.header,List.append_assoc]
  rw [hsplit] at h
  refine (h.part ?_).readDword p.ekuRules_lt
  simp only [List.length_append,length_dwordBytes,p.length_platform]
  rfl

theorem header_fileRuleEntryCount (h : Holds mem a p.header) : readDword mem (a + 44) = p.fileRules.length := by
  have hsplit : p.header = (dwordBytes p.formatVersion ++ skuCodeIntegrityPolicy ++ p.platformGuid ++
      dwordBytes p.optionFlags ++ dwordBytes p.ekuRules.length) ++ dwordBytes p.fileRules.length ++
      (p.signerCounts ++ p.version ++ dwordBytes 64) := by
    simp only [Policy.header,List.append_assoc]
  rw [hsplit] at h
  refine (h.part ?_).readDword p.fileRules_lt
  simp only [List.length_append,length_dwordBytes,p.length_platform]
  rfl

theorem header_headerLength (h : Holds mem a p.header) : readDword mem (a + 64) = 64 := by
  have hlast := (holds_append.mp h).2
  have hplace : (dwordBytes p.formatVersion ++ skuCodeIntegrityPolicy ++ p.platformGuid ++
      dwordBytes p.optionFlags ++ dwordBytes p.ekuRules.length ++ dwordBytes p.fileRules.length ++
      p.signerCounts ++ p.version).length = 64 := by
    simp only [List.length_append,length_dwordBytes,p.length_platform,p.length_signerCounts,p.length_version]
    rfl
  rw [hplace] at hlast
  exact hlast.readDword (by decide)

end Header

section Rules
variable {mem : ℕ → UInt8} {a : ℕ}

theorem le_padded (n : ℕ) : n ≤ padded n := by
  unfold padded
  omega

theorem Pads.length_eq {data padding : List UInt8} (h : Pads data padding) :
    data.length + padding.length = padded data.length := by
  have hle := le_padded data.length
  unfold Pads at h
  omega

theorem EkuRule.length_encode (r : EkuRule) : r.encode.length = 4 + padded r.data.length := by
  rw [EkuRule.encode,List.length_append,List.length_append,length_dwordBytes,Nat.add_assoc,r.pads.length_eq]

theorem skipEkuRules_eq {rs : List EkuRule} (h : Holds mem a (rs.flatMap EkuRule.encode)) :
    skipEkuRules mem rs.length a = a + (rs.flatMap EkuRule.encode).length := by
  induction rs generalizing a with
  | nil => rfl
  | cons r rs ih =>
    rw [List.flatMap_cons] at h
    obtain ⟨hrule,hrest⟩ := holds_append.mp h
    have hlen : readDword mem a = r.data.length := by
      rw [EkuRule.encode,List.append_assoc] at hrule
      exact (holds_append.mp hrule).1.readDword r.data_lt
    have hnext : a + (readDword mem a + 7) / 4 * 4 = a + r.encode.length := by
      rw [hlen,r.length_encode,padded]
      omega
    rw [List.length_cons,skipEkuRules,hnext,ih hrest,List.flatMap_cons,List.length_append,Nat.add_assoc]

theorem FileRule.length_encode (r : FileRule) :
    r.encode.length = 8 + padded r.fileName.length + 16 + padded r.hash.length := by
  have hname := r.name_pads.length_eq
  have hhash := r.hash_pads.length_eq
  simp only [FileRule.encode,List.length_append,length_dwordBytes,r.length_version]
  omega

theorem FileRule.denies_iff (r : FileRule) :
    r.denies = true ↔ r.type = 0 ∧ r.hash.length = pe256HashSize := by
  rw [FileRule.denies,Bool.and_eq_true,beq_iff_eq,beq_iff_eq]
  rfl

/-- What the loop reads of a file rule. -/
theorem fileRule_reads {r : FileRule} (h : Holds mem a r.encode) :
    readDword mem a = r.type ∧ fileRuleData mem a = a + 8 + padded r.fileName.length ∧
      readDword mem (fileRuleData mem a + 12) = r.hash.length ∧
      slice mem (fileRuleData mem a + 16) r.hash.length = r.hash := by
  have hpad := r.name_pads.length_eq
  have htype : readDword mem a = r.type := by
    simp only [FileRule.encode,List.append_assoc] at h
    exact (holds_append.mp h).1.readDword r.type_lt
  have hname : readDword mem (a + 4) = r.fileName.length := by
    have hsplit : r.encode = dwordBytes r.type ++ dwordBytes r.fileName.length ++ (r.fileName ++
        r.namePadding ++ r.unknownAndVersion ++ dwordBytes r.hash.length ++ r.hash ++ r.hashPadding) := by
      simp only [FileRule.encode,List.append_assoc]
    rw [hsplit] at h
    exact (h.part rfl).readDword r.name_lt
  have hdata : fileRuleData mem a = a + 8 + padded r.fileName.length := by
    rw [fileRuleData,hname]
    split
    · rfl
    case isFalse hzero =>
      rw [not_not.mp hzero]
      rfl
  have hlength : readDword mem (a + 8 + padded r.fileName.length + 12) = r.hash.length := by
    have hsplit : r.encode = (dwordBytes r.type ++ dwordBytes r.fileName.length ++ r.fileName ++
        r.namePadding ++ r.unknownAndVersion) ++ dwordBytes r.hash.length ++ (r.hash ++ r.hashPadding) := by
      simp only [FileRule.encode,List.append_assoc]
    rw [hsplit] at h
    refine (h.part ?_).readDword (r.hash_le.trans_lt (by decide))
    simp only [List.length_append,length_dwordBytes,r.length_version]
    omega
  have hhash : slice mem (a + 8 + padded r.fileName.length + 16) r.hash.length = r.hash := by
    have hsplit : r.encode = (dwordBytes r.type ++ dwordBytes r.fileName.length ++ r.fileName ++
        r.namePadding ++ r.unknownAndVersion ++ dwordBytes r.hash.length) ++ r.hash ++ r.hashPadding := by
      simp only [FileRule.encode]
    rw [hsplit] at h
    refine (h.part ?_).slice_eq rfl
    simp only [List.length_append,length_dwordBytes,r.length_version]
    omega
  rw [hdata]
  exact ⟨htype,rfl,hlength,hhash⟩

end Rules

section Table

/-- A hash is stored unless it is the last one. -/
def keep (table : List (List UInt8)) (hash : List UInt8) : List (List UInt8) :=
  if table.getLast? = some hash then table else table ++ [hash]

theorem length_le_foldl_keep (hs table : List (List UInt8)) : table.length ≤ (hs.foldl keep table).length := by
  induction hs generalizing table with
  | nil => exact le_rfl
  | cons h hs ih =>
    refine le_trans ?_ (ih (keep table h))
    unfold keep
    split
    · exact le_rfl
    · rw [List.length_append]
      exact Nat.le_add_right _ _

theorem foldl_keep_concat (table : List (List UInt8)) (last : List UInt8) (hs : List (List UInt8)) :
    hs.foldl keep (table ++ [last]) = table ++ hs.destutter' (· ≠ ·) last := by
  induction hs generalizing table last with
  | nil => rfl
  | cons h hs ih =>
    rw [List.foldl_cons,keep,List.getLast?_concat,List.destutter'_cons]
    by_cases heq : last = h
    · rw [if_pos (congrArg some heq),if_neg (not_not.mpr heq),ih]
    · rw [if_neg fun hsome => heq (Option.some.inj hsome),if_pos heq,ih,List.append_assoc,
        List.singleton_append]

theorem foldl_keep_nil (hs : List (List UInt8)) : hs.foldl keep [] = hs.destutter (· ≠ ·) := by
  cases hs with
  | nil => rfl
  | cons h hs =>
    rw [List.foldl_cons,List.destutter_cons']
    exact foldl_keep_concat [] h hs

/-- The loop stores the hashes of the rules that deny, as far as the table has room for all of them. -/
theorem fileRuleLoop_eq {mem : ℕ → UInt8} {bytes a : ℕ} {rs : List FileRule} {table : List (List UInt8)}
    (h : Holds mem a (rs.flatMap FileRule.encode)) (hroom : table.length * pe256HashSize ≤ bytes) :
    fileRuleLoop mem bytes rs.length a table =
      if (((rs.filter FileRule.denies).map FileRule.hash).foldl keep table).length * pe256HashSize ≤ bytes then
        some (((rs.filter FileRule.denies).map FileRule.hash).foldl keep table)
      else none := by
  induction rs generalizing a table with
  | nil => exact (if_pos hroom).symm
  | cons r rs ih =>
    rw [List.flatMap_cons] at h
    obtain ⟨hrule,hrest⟩ := holds_append.mp h
    obtain ⟨htype,hdata,hlength,hhash⟩ := fileRule_reads hrule
    have hnext : fileRuleData mem a + 16 + padded r.hash.length = a + r.encode.length := by
      rw [hdata,r.length_encode]
      omega
    have hle : ¬0x80 < r.hash.length := not_lt.mpr r.hash_le
    rw [List.length_cons,fileRuleLoop]
    simp only [htype,hlength,if_neg hle,hnext]
    by_cases hdenies : r.type = 0 ∧ r.hash.length = pe256HashSize
    · have hfilter : ((r :: rs).filter FileRule.denies).map FileRule.hash =
          r.hash :: (rs.filter FileRule.denies).map FileRule.hash := by
        rw [List.filter_cons_of_pos (r.denies_iff.mpr hdenies),List.map_cons]
      rw [hdenies.2] at hhash
      rw [hfilter,List.foldl_cons,hhash]
      by_cases hlast : table.getLast? = some r.hash
      · have hkeep : keep table r.hash = table := if_pos hlast
        rw [if_neg (by tauto),hkeep]
        exact ih hrest hroom
      · have hkeep : keep table r.hash = table ++ [r.hash] := if_neg hlast
        rw [if_pos ⟨hdenies.1,hdenies.2,hlast⟩,hkeep]
        by_cases hfits : (table.length + 1) * pe256HashSize ≤ bytes
        · rw [if_pos hfits]
          refine ih hrest ?_
          rwa [List.length_append,List.length_singleton]
        · have hlonger := length_le_foldl_keep ((rs.filter FileRule.denies).map FileRule.hash)
            (table ++ [r.hash])
          rw [List.length_append,List.length_singleton] at hlonger
          rw [if_neg hfits,if_neg fun hle => hfits ((Nat.mul_le_mul_right _ hlonger).trans hle)]
    · have hfilter : (r :: rs).filter FileRule.denies = rs.filter FileRule.denies :=
        List.filter_cons_of_neg (r.denies_iff.not.mpr hdenies)
      rw [hfilter,if_neg fun hstore => hdenies ⟨hstore.1,hstore.2.1⟩]
      exact ih hrest hroom

end Table

section Policies
variable {content : List UInt8} {p : Policy}

theorem Policy.encode_ne_nil (p : Policy) : p.encode ≠ [] := by
  intro hnil
  have hlen := congrArg List.length hnil
  rw [Policy.encode,List.append_assoc,List.append_assoc,List.length_append,p.length_header,
    List.length_nil] at hlen
  omega

/-- The walk over a well-formed policy. -/
theorem walkPolicy_eq (h : WellFormed content p) (beyond : ℕ → UInt8) (granted : ℕ → Bool) :
    walkPolicy (memOf content beyond) granted =
      if granted (dword (p.fileRules.length * pe256HashSize)) = false then some (true,[])
      else if p.hashes.length * pe256HashSize ≤ dword (p.fileRules.length * pe256HashSize) then
        some (true,p.hashes)
      else none := by
  have hpolicy := h.holds p.encode_ne_nil beyond
  set mem := memOf content beyond
  rw [Policy.encode,List.append_assoc,List.append_assoc] at hpolicy
  obtain ⟨hheader,hrules⟩ := holds_append.mp hpolicy
  obtain ⟨hekus,hrest⟩ := holds_append.mp hrules
  obtain ⟨hfiles,-⟩ := holds_append.mp hrest
  rw [p.length_header] at hekus hfiles
  have hskip := skipEkuRules_eq hekus
  have hempty : ([] : List (List UInt8)).length * pe256HashSize ≤ dword (p.fileRules.length * pe256HashSize) :=
    Nat.zero_le _
  have hloop := fileRuleLoop_eq hfiles hempty
  rw [foldl_keep_nil] at hloop
  unfold walkPolicy
  dsimp only
  rw [header_headerLength hheader,header_guid hheader,header_ekuRuleEntryCount hheader,
    header_fileRuleEntryCount hheader,if_neg (by decide),if_neg (not_not.mpr rfl),hskip,hloop]
  split
  · rfl
  · exact apply_ite (Option.map fun table => (true,table)) _ _ _

/-- The walk does not return FALSE. -/
theorem walkPolicy_true {mem : ℕ → UInt8} {granted : ℕ → Bool} {r : Bool} {table : List (List UInt8)}
    (h : walkPolicy mem granted = some (r,table)) : r = true := by
  unfold walkPolicy at h
  dsimp only at h
  split at h
  · cases h
    rfl
  split at h
  · cases h
    rfl
  split at h
  · cases h
    rfl
  · obtain ⟨found,-,hpair⟩ := Option.map_eq_some_iff.mp h
    cases hpair
    rfl

theorem WellFormed.ne_nil (h : WellFormed content p) : content ≠ [] := by
  cases h with
  | plain => exact p.encode_ne_nil
  | short => exact List.cons_ne_nil _ _
  | long => exact List.cons_ne_nil _ _

variable {calls : Calls} {beyond : ℕ → UInt8}

theorem parse_of_fails (h : calls.Fails) : parseSKUSiPolicy calls beyond = some (false,[]) := by
  unfold parseSKUSiPolicy
  by_cases hpath : calls.wpath = false
  · exact if_pos hpath
  rw [if_neg hpath]
  rcases h with h | h | ⟨htype,h | ⟨hne,hbuffer,hgiven⟩⟩
  · exact absurd h hpath
  · rw [h]
  · rw [htype,h]
    rfl
  · rw [htype]
    rcases hcontent : calls.content with _ | content
    · rfl
    · have hcne : content ≠ [] := fun hnil => hne (hnil ▸ hcontent)
      simp only [ne_eq,not_true_eq_false,if_neg hcne,hbuffer,hgiven,↓reduceIte,Bool.true_eq_false]

theorem parse_of_delivers (h : calls.Delivers content) (hne : content ≠ []) :
    parseSKUSiPolicy calls beyond = walkPolicy (memOf content beyond) calls.tableGranted := by
  obtain ⟨hpath,htype,hcontent,hbuffer,hgiven⟩ := h
  unfold parseSKUSiPolicy
  simp only [hpath,htype,hcontent,hbuffer,hgiven,ne_eq,not_true_eq_false,if_neg hne,↓reduceIte,
    Bool.true_eq_false]

/-- Where no call fails and no content is delivered, TRUE is left over from the calls before. -/
theorem parse_of_neither (hfails : ¬calls.Fails) (h : ∀ content ≠ [], ¬calls.Delivers content) :
    parseSKUSiPolicy calls beyond = some (true,[]) := by
  simp only [Calls.Fails,not_or,not_and] at hfails
  obtain ⟨hpath,htype,hlater⟩ := hfails
  unfold parseSKUSiPolicy
  rw [if_neg hpath]
  rcases hsome : calls.contentType with _ | type
  · exact absurd hsome htype
  by_cases hsigned : type = certQueryContentPkcs7Signed
  · obtain ⟨hcontent,hgiven⟩ := hlater (by rw [hsome,hsigned])
    rcases hc : calls.content with _ | content
    · exact absurd hc hcontent
    by_cases hnil : content = []
    · simp only [hsigned,hnil,ne_eq,not_true_eq_false,↓reduceIte]
    by_cases hbuffer : calls.bufferGranted = false
    · simp only [hsigned,if_neg hnil,hbuffer,ne_eq,not_true_eq_false,↓reduceIte]
    · have hne : calls.content ≠ some [] := fun he => hnil (Option.some.inj (hc.symm.trans he))
      have hall := hgiven hne (Bool.not_eq_false _ ▸ hbuffer)
      refine absurd ⟨?_,?_,hc,?_,?_⟩ (h content hnil)
      · simpa using hpath
      · rw [hsome,hsigned]
      · simpa using hbuffer
      · simpa using hall
  · exact if_pos hsigned

/-- TRUE means a well-formed policy and the right table exactly under the condition. -/
theorem parseSKUSiPolicy_iff (calls : Calls) (beyond : ℕ → UInt8) : Sound calls beyond ↔ Meets calls := by
  rw [Sound,Meets]
  by_cases hfails : calls.Fails
  · exact iff_of_true ⟨false,[],parse_of_fails hfails,fun h => absurd h Bool.false_ne_true⟩ (Or.inl hfails)
  rw [or_iff_right hfails]
  constructor
  · rintro ⟨r,table,hparse,hsound⟩
    have hr : r = true := by
      by_cases hsome : ∃ content, content ≠ [] ∧ calls.Delivers content
      · obtain ⟨content,hne,hdelivers⟩ := hsome
        rw [parse_of_delivers hdelivers hne] at hparse
        exact walkPolicy_true hparse
      · rw [parse_of_neither hfails fun content hne hdelivers => hsome ⟨content,hne,hdelivers⟩] at hparse
        cases hparse
        rfl
    obtain ⟨content,p,hdelivers,hwell,rfl⟩ := hsound hr
    rw [parse_of_delivers hdelivers hwell.ne_nil,walkPolicy_eq hwell] at hparse
    refine ⟨content,p,hdelivers,hwell,?_⟩
    split at hparse
    · exact Or.inl (Prod.mk.inj (Option.some.inj hparse)).2.symm
    case isFalse hgranted =>
      split at hparse
      case isTrue hfits => exact Or.inr ⟨Bool.not_eq_false _ ▸ hgranted,hfits⟩
      case isFalse => cases hparse
  · rintro ⟨content,p,hdelivers,hwell,htable⟩
    rw [parse_of_delivers hdelivers hwell.ne_nil,walkPolicy_eq hwell]
    by_cases hgranted : calls.tableGranted (dword (p.fileRules.length * pe256HashSize)) = false
    · have hnone : p.hashes = [] := htable.resolve_right fun h => by
        rw [hgranted] at h
        exact Bool.false_ne_true h.1
      exact ⟨true,[],if_pos hgranted,fun _ => ⟨content,p,hdelivers,hwell,hnone.symm⟩⟩
    · have hfits : p.hashes.length * pe256HashSize ≤ dword (p.fileRules.length * pe256HashSize) := by
        rcases htable with hnone | h
        · rw [hnone]
          exact Nat.zero_le _
        · exact h.2
      rw [if_neg hgranted,if_pos hfits]
      exact ⟨true,p.hashes,rfl,fun _ => ⟨content,p,hdelivers,hwell,rfl⟩⟩

/-- No table of a policy of fewer than 2^27 file rules is cut. -/
theorem hashes_fit (p : Policy) (h : p.fileRules.length < 2 ^ 27) :
    p.hashes.length * pe256HashSize ≤ dword (p.fileRules.length * pe256HashSize) := by
  have hsub : p.hashes.length ≤ p.fileRules.length := by
    calc p.hashes.length
      _ ≤ ((p.fileRules.filter FileRule.denies).map FileRule.hash).length :=
        (List.destutter_sublist _ _).length_le
      _ = (p.fileRules.filter FileRule.denies).length := List.length_map _
      _ ≤ p.fileRules.length := List.length_filter_le _ _
  rw [dword_of_lt (by unfold pe256HashSize; omega)]
  exact Nat.mul_le_mul_right _ hsub

/-- Calls that all succeed. -/
def delivering (content : List UInt8) (h : content.length < 2 ^ 32) : Calls where
  wpath := true
  contentType := some certQueryContentPkcs7Signed
  content := some content
  bufferGranted := true
  contentGiven := true
  tableGranted := fun _ => true
  content_lt := by
    rintro c ⟨⟩
    exact h

/-- TRUE is returned for a content of zeros, which has no header of a policy. -/
theorem parseSKUSiPolicy_zeros : ¬Sound (delivering (List.replicate 68 0) (by decide)) 0 := by
  rintro ⟨r,table,hparse,hsound⟩
  have hcode : parseSKUSiPolicy (delivering (List.replicate 68 0) (by decide)) 0 = some (true,[]) := by
    decide +kernel
  obtain ⟨rfl,rfl⟩ := Prod.mk.inj (Option.some.inj (hcode.symm.trans hparse))
  obtain ⟨content,p,⟨-,-,hcontent,-,-⟩,hwell,-⟩ := hsound rfl
  obtain rfl : List.replicate 68 (0 : UInt8) = content := Option.some.inj hcontent
  have hpolicy := hwell.holds p.encode_ne_nil 0
  rw [Policy.encode,List.append_assoc,List.append_assoc] at hpolicy
  have hlength := header_headerLength (holds_append.mp hpolicy).1
  revert hlength
  decide +kernel

end Policies

end SecureWipeOut.SkuPolicy
