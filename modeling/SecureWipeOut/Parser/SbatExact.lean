import SecureWipeOut.Parser.SbatLines

/-! # Exactness of the SBAT revocation

No level that `GetSbatEntries` returns is that of a comment, so a line the scan comes
to is decided as it should be. Compared with the lines of the text, the scan loses the
line after one of exactly two fields and everything behind a line without a comma.
-/
namespace SecureWipeOut.Sbat
open CText Loop Text

section Levels

theorem charAt_set_nul_ne {buf : Buf} {j k : ℕ} (h : charAt buf k ≠ '#') :
    charAt (buf.set j nul) k ≠ '#' := by
  unfold charAt at h ⊢
  rw [List.getD_eq_getElem?_getD,List.getElem?_set]
  split
  · split
    · decide
    · decide
  · rwa [← List.getD_eq_getElem?_getD]

theorem head_cstr_ne {buf : Buf} {k : ℕ} (h : charAt buf k ≠ '#') : (cstr buf k).head? ≠ some '#' := by
  intro hh
  cases hd : buf.drop k with
  | nil => simp [cstr,hd] at hh
  | cons c rest =>
    rw [charAt_of_drop hd] at h
    rw [cstr,hd,List.takeWhile_cons] at hh
    split at hh
    · exact h (by simpa using hh)
    · cases hh

/-- No product recorded so far begins with a `#`. -/
def LevelScan.NoComment (s : LevelScan) : Prop :=
  (∀ e ∈ s.entries, charAt s.sbatlevel e.1 ≠ '#') ∧ ∀ k ∈ s.pending, charAt s.sbatlevel k ≠ '#'

theorem levelEntry_spec (s : LevelScan) (comma : ℕ) :
    comma < (levelEntry s comma).i ∧ (levelEntry s comma).sbatlevel.length = s.sbatlevel.length ∧
      (s.NoComment → charAt s.sbatlevel s.i ≠ '#' → (levelEntry s comma).NoComment) := by
  let b := s.sbatlevel.set comma nul
  let k := scan fieldEnd b (comma + 1)
  have hle : comma + 1 ≤ k := le_scan ..
  have hkeep : ∀ {j : ℕ}, charAt s.sbatlevel j ≠ '#' → charAt (b.set k nul) j ≠ '#' :=
    fun h => charAt_set_nul_ne (charAt_set_nul_ne h)
  have hi : comma < if charAt b k = nul ∨ charAt b k = '\n' then (if charAt b k = nul then k else k + 1)
      else scan lineEnd (b.set k nul) (if charAt b k = nul then k else k + 1) := by
    have := le_scan lineEnd (b.set k nul) (if charAt b k = nul then k else k + 1)
    split_ifs at this ⊢ <;> omega
  unfold levelEntry
  dsimp only
  split
  · refine ⟨hi,by simp,fun hs hc => ⟨?_,by simp⟩⟩
    intro e he
    rcases List.mem_append.mp he with he | he
    · exact hkeep (hs.1 e he)
    · obtain rfl := List.mem_singleton.mp he
      exact hkeep hc
  · refine ⟨hi,by simp,fun hs hc => ⟨fun e he => hkeep (hs.1 e he),?_⟩⟩
    intro j hj
    obtain rfl := Option.mem_some.mp hj
    exact hkeep hc

/-- A step of `GetSbatEntries` moves on, and records the index it started from unless
that is the index of a comment. -/
theorem levelStep_inl {s s' : LevelScan} (h : levelStep s = .inl s') :
    s.i < s.sbatlevel.length ∧ s.i < s'.i ∧ s'.sbatlevel.length = s.sbatlevel.length ∧
      (s.NoComment → s'.NoComment) := by
  unfold levelStep at h
  split at h
  next => cases h
  next hnul =>
    have hlen := lt_length_of_charAt hnul
    split at h
    next =>
      obtain rfl := Sum.inl.inj h
      exact ⟨hlen,Nat.lt_succ_self _,rfl,id⟩
    next hnl =>
      split at h
      next hcomment =>
        obtain rfl := Sum.inl.inj h
        exact ⟨hlen,lt_scan hlen (by simp [lineEnd,hnul,hnl]),rfl,id⟩
      next hcomment =>
        dsimp only at h
        split at h
        next => cases h
        next =>
          obtain rfl := Sum.inl.inj h
          obtain ⟨hlt,hlength,hkeep⟩ := levelEntry_spec s (scan fieldEnd s.sbatlevel s.i)
          exact ⟨hlen,(le_scan ..).trans_lt hlt,hlength,fun hs => hkeep hs hcomment⟩

theorem levelStep_inr {s s' : LevelScan} (h : levelStep s = .inr s') (hs : s.NoComment) :
    s'.NoComment := by
  unfold levelStep at h
  split at h
  next =>
    obtain rfl := Sum.inr.inj h
    exact hs
  next =>
    split at h
    next => cases h
    next =>
      split at h
      next => cases h
      next hcomment =>
        dsimp only at h
        split at h
        next =>
          obtain rfl := Sum.inr.inj h
          exact ⟨hs.1,by simpa using hcomment⟩
        next => cases h

/-- The level text is parsed to its end, and no level is that of a comment. -/
theorem levelScan_spec (sbatlevel : Buf) :
    ∃ s, run levelStep (sbatlevel.length + 1) ⟨sbatlevel,0,[],none⟩ = some s ∧ s.NoComment := by
  have hstep : ∀ s s' : LevelScan, s.NoComment → levelStep s = .inl s' →
      s'.NoComment ∧ s'.sbatlevel.length - s'.i < s.sbatlevel.length - s.i := by
    intro s s' hs h
    obtain ⟨hlen,hlt,heq,hkeep⟩ := levelStep_inl h
    exact ⟨hkeep hs,by omega⟩
  have h0 : LevelScan.NoComment ⟨sbatlevel,0,[],none⟩ := ⟨by simp,by simp⟩
  obtain ⟨s,hs⟩ := run_terminates (fun s : LevelScan => s.sbatlevel.length - s.i) hstep h0
    (show sbatlevel.length - 0 < sbatlevel.length + 1 by omega)
  exact ⟨s,hs,run_rule (fun s s' hs h => (hstep s s' hs h).1) (fun s r hs h => levelStep_inr h hs) h0 hs⟩

theorem product_no_comment {sbatlevel : Option Buf} {levels : List SbatEntry}
    (h : getSbatEntries sbatlevel = some levels) : ∀ e ∈ levels, e.product.head? ≠ some '#' := by
  cases sbatlevel with
  | none => cases h
  | some sbatlevel =>
    obtain ⟨s,hs,hno⟩ := levelScan_spec sbatlevel
    rw [getSbatEntries,Option.bind_some,hs,Option.bind_some] at h
    split at h
    next => cases h
    next =>
      obtain rfl := Option.some.inj h
      intro e he
      rcases List.mem_append.mp he with he | he
      · obtain ⟨x,hx,rfl⟩ := List.mem_map.mp he
        exact head_cstr_ne (hno.1 x hx)
      · obtain ⟨x,hx,rfl⟩ := List.mem_map.mp he
        exact head_cstr_ne (hno.2 x (by simpa using hx))

end Levels

section Exactness
variable {levels : List SbatEntry}

theorem lowerThanLevel_iff (product : List Char) (version : ℕ) :
    lowerThanLevel levels product version = true ↔
      ∃ e ∈ levels, e.product = product ∧ version < e.version := by
  simp only [lowerThanLevel,List.any_eq_true,Bool.and_eq_true,beq_iff_eq,decide_eq_true_eq]
  constructor
  · rintro ⟨e,he,hp,hlt⟩
    exact ⟨e,he,hp.symm,hlt⟩
  · rintro ⟨e,he,hp,hlt⟩
    exact ⟨e,he,hp.symm,hlt⟩

theorem revokes_iff_of_fields (hlevels : ∀ e ∈ levels, e.product.head? ≠ some '#') {p v r : List Char}
    {fs : List Line} (h : (p ++ ',' :: r).splitOn ',' = p :: v :: fs) :
    revokes levels (p ++ ',' :: r) = true ↔ RevokedLine levels (p ++ ',' :: r) := by
  unfold revokes RevokedLine
  rw [h]
  simp only [Bool.and_eq_true,decide_eq_true_eq,lowerThanLevel_iff]
  constructor
  · rintro ⟨hv,e,he,rfl,hlt⟩
    refine ⟨?_,_,v,fs,rfl,hv,e,he,rfl,hlt⟩
    have hhead := hlevels e he
    cases hp : e.product with
    | nil => simp
    | cons c p => simpa [hp] using hhead
  · rintro ⟨-,p',v',fs',heq,hv,e,he,hep,hlt⟩
    obtain ⟨rfl,rfl,rfl⟩ : p = p' ∧ v = v' ∧ fs = fs' := by simpa using heq
    exact ⟨hv,e,he,hep,hlt⟩

/-- The scan decides every line it comes to as it should be decided. -/
theorem revokes_iff (hlevels : ∀ e ∈ levels, e.product.head? ≠ some '#') (l : Line) :
    revokes levels l = true ↔ RevokedLine levels l := by
  cases fields l with
  | one h hp => simp [revokes,RevokedLine,h]
  | two p v h hline hp hv =>
    subst hline
    exact revokes_iff_of_fields hlevels h
  | more p v w f fs h hline hp hv =>
    subst hline
    exact revokes_iff_of_fields hlevels h

theorem examined_subset (swallowed : Bool) (ls : List Line) : ∀ l ∈ examined swallowed ls, l ∈ ls := by
  induction ls generalizing swallowed with
  | nil => simp [examined]
  | cons l ls ih =>
    intro l' hl'
    rw [examined] at hl'
    split at hl'
    · exact List.mem_cons_of_mem l (ih false l' hl')
    · split at hl'
      · exact List.mem_cons_of_mem l (ih false l' hl')
      · split at hl'
        · rcases List.mem_cons.mp hl' with rfl | hl'
          · exact List.mem_cons_self
          · exact List.mem_cons_of_mem l (ih true l' hl')
        · rcases List.mem_cons.mp hl' with rfl | hl'
          · exact List.mem_cons_self
          · exact List.mem_cons_of_mem l (ih false l' hl')
        · cases hl'

/-- The result for a text and its NUL padding. -/
theorem isRevokedBySbat_eq {text : List Char} (ht : nul ∉ text) (n : ℕ) :
    isRevokedBySbat (some levels) (some (text ++ List.replicate (n + 2) nul)) =
      some ((examined false (text.splitOn '\n')).any (revokes levels)) := by
  rw [isRevokedBySbat,Option.some_or]
  refine run_examined _ text (n + 2) _ 0 (by simp) (by omega) ht ?_
  simp only [List.length_append]
  omega

/-- The revocation is exact if and only if, where a line is revoked, a revoked line is
among those the scan comes to. -/
theorem isRevokedBySbat_exact_iff {sbatlevel : Buf} {levels : List SbatEntry}
    (hlevels : getSbatEntries (some sbatlevel) = some levels) {text : List Char} (ht : nul ∉ text)
    (n : ℕ) :
    (∃ b, isRevokedBySbat (some levels) (some (text ++ List.replicate (n + 2) nul)) = some b) ∧
    ((isRevokedBySbat (some levels) (some (text ++ List.replicate (n + 2) nul)) = some true ↔
        ∃ l ∈ text.splitOn '\n', RevokedLine levels l) ↔
      ((∃ l ∈ text.splitOn '\n', RevokedLine levels l) →
        ∃ l ∈ examined false (text.splitOn '\n'), RevokedLine levels l)) := by
  have hno := product_no_comment hlevels
  have hscan : isRevokedBySbat (some levels) (some (text ++ List.replicate (n + 2) nul)) = some true ↔
      ∃ l ∈ examined false (text.splitOn '\n'), RevokedLine levels l := by
    rw [isRevokedBySbat_eq ht,Option.some_inj,List.any_eq_true]
    simp only [revokes_iff hno]
  refine ⟨⟨_,isRevokedBySbat_eq ht n⟩,?_⟩
  rw [hscan]
  constructor
  · exact fun h => h.mpr
  · refine fun h => ⟨?_,h⟩
    rintro ⟨l,hl,hrev⟩
    exact ⟨l,examined_subset false _ l hl,hrev⟩

theorem getSbatEntries_grub : getSbatEntries (some "grub,3".toList) = some [⟨"grub".toList,3⟩] := by
  decide

theorem isRevokedBySbat_exact_iff_grub :
    (isRevokedBySbat (some [⟨"grub".toList,3⟩]) (some ("grub,1".toList ++ List.replicate (0 + 2) nul)) =
        some true ↔
      ∃ l ∈ "grub,1".toList.splitOn '\n', RevokedLine [⟨"grub".toList,3⟩] l) := by
  refine (isRevokedBySbat_exact_iff getSbatEntries_grub (by decide) 0).2.mpr ?_
  rintro -
  refine ⟨"grub,1".toList,by decide,by decide,"grub".toList,"1".toList,[],by decide,by decide,?_⟩
  exact ⟨⟨"grub".toList,3⟩,by decide,by decide,by decide⟩

/-- A line of two fields hides the revoked line behind it. -/
theorem isRevokedBySbat_swallows : getSbatEntries (some "grub,3".toList) = some [⟨"grub".toList,3⟩] ∧
    ¬ (isRevokedBySbat (some [⟨"grub".toList,3⟩])
        (some ("sbat,1\ngrub,1".toList ++ List.replicate (0 + 2) nul)) = some true ↔
      ∃ l ∈ "sbat,1\ngrub,1".toList.splitOn '\n', RevokedLine [⟨"grub".toList,3⟩] l) := by
  refine ⟨getSbatEntries_grub,fun h => ?_⟩
  have hrevoked : ∃ l ∈ "sbat,1\ngrub,1".toList.splitOn '\n', RevokedLine [⟨"grub".toList,3⟩] l := by
    refine ⟨"grub,1".toList,by decide,by decide,"grub".toList,"1".toList,[],by decide,by decide,?_⟩
    exact ⟨⟨"grub".toList,3⟩,by decide,by decide,by decide⟩
  have htrue := h.mpr hrevoked
  rw [isRevokedBySbat_eq (by decide)] at htrue
  exact absurd htrue (by decide)

end Exactness

end SecureWipeOut.Sbat
