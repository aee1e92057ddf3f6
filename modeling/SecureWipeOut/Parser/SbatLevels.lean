import SecureWipeOut.Parser.SbatLevelLines

/-! # The entries of a level text

The run of `GetSbatEntries` on the lines of its text. A line without a comma stays
behind as an entry of version 0, and so does a last line of version 0; on all other
texts the entries are those of the well-formed lines.
-/
namespace SecureWipeOut.Sbat
open CText Loop Text

section Steps

/-- The entries recorded so far, as the final list shows them. -/
def LevelScan.shown (s : LevelScan) : List SbatEntry :=
  s.entries.map fun e => ⟨cstr s.sbatlevel e.1,e.2⟩

/-- The products recorded lie before the index of the loop. -/
def LevelScan.Settled (s : LevelScan) : Prop :=
  ∀ e ∈ s.entries, e.1 + (cstr s.sbatlevel e.1).length < s.i

theorem cstr_set_of_lt {buf : Buf} {j k : ℕ} (h : k + (cstr buf k).length < j) (d : Char) :
    cstr (buf.set j d) k = cstr buf k := by
  have hdrop : buf.drop k = cstr buf k ++ (buf.drop k).dropWhile fun c => c != nul :=
    List.takeWhile_append_dropWhile.symm
  have hstop : ∀ c ∈ (((buf.drop k).dropWhile fun c => c != nul).set
      (j - k - (cstr buf k).length) d).head?, c = nul := by
    intro c hc
    cases hw : (buf.drop k).dropWhile fun c => c != nul with
    | nil => simp [hw] at hc
    | cons b rest =>
      have hhead := List.head?_dropWhile_not (fun c => c != nul) (buf.drop k)
      obtain ⟨m,hm⟩ : ∃ m, j - k - (cstr buf k).length = m + 1 := ⟨j - k - (cstr buf k).length - 1,by omega⟩
      rw [hw,hm] at hc
      rw [hw] at hhead
      obtain rfl : b = c := by simpa using hc
      simpa using hhead
  have hset : (buf.set j d).drop k = cstr buf k ++ ((buf.drop k).dropWhile fun c => c != nul).set
      (j - k - (cstr buf k).length) d := by
    rw [List.drop_set,if_neg (by omega)]
    conv_lhs => rw [hdrop]
    rw [List.set_append_right _ _ (by omega)]
  refine cstr_eq hset ?_ hstop
  intro hmem
  simpa using List.mem_takeWhile_imp hmem

theorem set_nul_eq {buf : Buf} {i : ℕ} (h : charAt buf i = nul) : buf.set i nul = buf := by
  apply List.ext_getElem?
  intro j
  rw [List.getElem?_set]
  split
  · next hij =>
    subst hij
    split
    · next hlt => simpa [charAt,List.getD_eq_getElem?_getD,hlt,eq_comm] using h
    · next hge => exact (List.getElem?_eq_none (not_lt.mp hge)).symm
  · rfl

/-- Where the loop is after a version, given what lies behind the version. -/
inductive Behind : List Char → List Char → Prop
  | eof {rest} (h : ∀ c ∈ rest.head?, c = nul) : Behind rest rest
  | eol (after) : Behind ('\n' :: after) after
  | fields {w after} (hw : ∀ c ∈ w, lineEnd c = false) (h : ∀ c ∈ after.head?, lineEnd c = true) :
      Behind (',' :: (w ++ after)) after

theorem Behind.fieldEnd_head {rest after : List Char} (h : Behind rest after) :
    ∀ c ∈ rest.head?, fieldEnd c = true := by
  cases h with
  | eof h =>
    intro c hc
    rw [h c hc]
    rfl
  | eol => simp [fieldEnd]
  | fields => simp [fieldEnd]

theorem head_nul {rest : List Char} : ∀ c ∈ (rest.set 0 nul).head?, c = nul := by
  cases rest with
  | nil => simp
  | cons c rest => simp

theorem drop_set_nul {buf pre rest : Buf} {i : ℕ} (h : buf.drop i = pre ++ rest) :
    (buf.set (i + pre.length) nul).drop i = pre ++ rest.set 0 nul := by
  rw [List.drop_set,if_neg (by omega),h,Nat.add_sub_cancel_left,List.set_append_right _ _ (le_refl _),
    Nat.sub_self]

theorem charAt_end {buf rest : Buf} {i : ℕ} (h : buf.drop i = rest) (hrest : ∀ c ∈ rest.head?, c = nul) :
    charAt buf i = nul := by
  cases rest with
  | nil => exact charAt_of_drop_nil h
  | cons c rest => rw [charAt_of_drop h,hrest c rfl]

theorem levelVersion_eq {buf v rest : Buf} {i : ℕ} (h : buf.drop i = v ++ rest) (hv : nul ∉ v)
    (hrest : ∀ c ∈ rest.head?, c = nul) : levelVersion buf i = fieldVersion v := by
  have hcstr : cstr buf i = v := cstr_eq h hv hrest
  have hx : (charAt buf i = '0' ∧ charAt buf (i + 1) = 'x') ↔ v.take 2 = ['0','x'] := by
    match v, h with
    | [], h => simp [charAt_end h hrest,nul]
    | [c], h =>
      have hend : charAt buf (i + 1) = nul := charAt_end (drop_succ h) hrest
      simp [hend,nul]
    | c :: d :: v, h => simp [charAt_of_drop h,charAt_of_drop (drop_succ h)]
  simp only [levelVersion,fieldVersion,hx,hcstr]

/-- The index the loop goes on from, where a version ends at `k`. -/
def nextIndex (buf : Buf) (k : ℕ) : ℕ :=
  if charAt buf k = nul ∨ charAt buf k = '\n' then (if charAt buf k = nul then k else k + 1)
  else scan lineEnd (buf.set k nul) (if charAt buf k = nul then k else k + 1)

theorem le_nextIndex (buf : Buf) (k : ℕ) : k ≤ nextIndex buf k := by
  have h := le_scan lineEnd (buf.set k nul) (if charAt buf k = nul then k else k + 1)
  unfold nextIndex
  split_ifs at h ⊢ <;> omega

theorem levelEntry_eq (s : LevelScan) {comma k version : ℕ}
    (hk : scan fieldEnd (s.sbatlevel.set comma nul) (comma + 1) = k)
    (hversion : levelVersion ((s.sbatlevel.set comma nul).set k nul) (comma + 1) = version) :
    levelEntry s comma = if version ≠ 0 then
        ⟨(s.sbatlevel.set comma nul).set k nul,nextIndex (s.sbatlevel.set comma nul) k,
          s.entries ++ [(s.i,version)],none⟩
      else ⟨(s.sbatlevel.set comma nul).set k nul,nextIndex (s.sbatlevel.set comma nul) k,
        s.entries,some s.i⟩ := by
  subst hk hversion
  rfl

theorem drop_nextIndex {buf rest after : Buf} {k : ℕ} (h : buf.drop k = rest)
    (hafter : Behind rest after) : (buf.set k nul).drop (nextIndex buf k) = after := by
  unfold nextIndex
  have hset : (buf.set k nul).drop k = rest.set 0 nul := by
    simpa using @drop_set_nul buf [] rest k (by simpa using h)
  cases hafter with
  | eof hend =>
    have hk := charAt_end h hend
    rw [if_pos (Or.inl hk),if_pos hk,set_nul_eq hk,h]
  | eol =>
    have hk := charAt_of_drop h
    rw [if_pos (Or.inr hk),if_neg (by rw [hk]; decide)]
    exact drop_succ hset
  | fields hw hend =>
    have hk := charAt_of_drop h
    have hd := drop_succ hset
    rw [if_neg (by rw [hk]; decide),if_neg (by rw [hk]; decide),scan_eq hd hw hend]
    exact drop_add hd

/-- What one turn makes of a line with a comma. -/
theorem levelStep_entry {s : LevelScan} {p v rest after : List Char}
    (h : s.sbatlevel.drop s.i = p ++ ',' :: (v ++ rest)) (hp : FieldText p) (hv : FieldText v)
    (hhead : p.head? ≠ some '#') (hafter : Behind rest after) (hs : s.Settled) :
    ∃ s', levelStep s = .inl s' ∧ s'.sbatlevel.drop s'.i = after ∧ s'.Settled ∧
      s'.shown = s.shown ++ (if fieldVersion v = 0 then [] else [⟨p,fieldVersion v⟩]) ∧
      s'.pending.isSome = decide (fieldVersion v = 0) := by
  let comma := s.i + p.length
  let b := s.sbatlevel.set comma nul
  let k := comma + 1 + v.length
  have hcomma : scan fieldEnd s.sbatlevel s.i = comma := scan_eq h hp (by simp [fieldEnd])
  have hc : charAt s.sbatlevel comma = ',' := charAt_of_drop (drop_add h)
  have hb : b.drop s.i = p ++ nul :: (v ++ rest) := drop_set h
  have hb' : b.drop (comma + 1) = v ++ rest := drop_succ (drop_add hb)
  have hk : scan fieldEnd b (comma + 1) = k := scan_eq hb' hv hafter.fieldEnd_head
  have hb2 : (b.set k nul).drop (comma + 1) = v ++ rest.set 0 nul := drop_set_nul hb'
  have hversion : levelVersion (b.set k nul) (comma + 1) = fieldVersion v :=
    levelVersion_eq hb2 hv.nul_notMem head_nul
  have hproduct : cstr b s.i = p := cstr_eq hb hp.nul_notMem (by simp)
  have hproduct' : cstr (b.set k nul) s.i = p := by
    rw [cstr_set_of_lt (by rw [hproduct]; omega),hproduct]
  have hkeep : ∀ e ∈ s.entries, cstr (b.set k nul) e.1 = cstr s.sbatlevel e.1 := by
    intro e he
    have hlt := hs e he
    have hkb : cstr b e.1 = cstr s.sbatlevel e.1 := cstr_set_of_lt (by omega) nul
    rw [cstr_set_of_lt (by rw [hkb]; omega),hkb]
  have hfirst : charAt s.sbatlevel s.i ≠ nul ∧ charAt s.sbatlevel s.i ≠ '\n' ∧
      charAt s.sbatlevel s.i ≠ '#' := by
    cases p with
    | nil =>
      rw [charAt_of_drop h]
      decide
    | cons c p =>
      rw [charAt_of_drop h]
      exact ⟨(hp.ne List.mem_cons_self).1,(hp.ne List.mem_cons_self).2,by simpa using hhead⟩
  have hi : s.i + p.length < nextIndex (s.sbatlevel.set comma nul) k := by
    have hle : k ≤ nextIndex (s.sbatlevel.set comma nul) k := le_nextIndex b k
    omega
  have hnext := drop_nextIndex (drop_add hb') hafter
  have hstep : levelStep s = .inl (levelEntry s comma) := by
    rw [levelStep,if_neg hfirst.1,if_neg hfirst.2.1,if_neg hfirst.2.2]
    simp only [hcomma]
    rw [if_neg (by rw [hc]; decide)]
  have hentry := levelEntry_eq s hk hversion
  refine ⟨_,hstep,?_⟩
  by_cases hzero : fieldVersion v = 0
  · rw [hentry,if_neg (by simpa using hzero)]
    refine ⟨hnext,?_,?_,by simp [hzero]⟩
    · intro e he
      have hlt := hs e he
      rw [hkeep e he]
      dsimp only
      omega
    · rw [if_pos hzero,List.append_nil]
      exact List.map_congr_left fun e he => by rw [hkeep e he]
  · rw [hentry,if_pos hzero]
    refine ⟨hnext,?_,?_,by simp [hzero]⟩
    · intro e he
      dsimp only
      rcases List.mem_append.mp he with he | he
      · have hlt := hs e he
        rw [hkeep e he]
        omega
      · obtain rfl := List.mem_singleton.mp he
        rw [hproduct']
        omega
    · rw [if_neg hzero,LevelScan.shown,List.map_append]
      refine congrArg₂ _ (List.map_congr_left fun e he => by rw [hkeep e he]) ?_
      exact congrArg (fun product => [SbatEntry.mk product (fieldVersion v)]) hproduct'

theorem levelStep_end {s : LevelScan} (h : charAt s.sbatlevel s.i = nul) : levelStep s = .inr s := by
  rw [levelStep,if_pos h]

theorem levelStep_blank {s : LevelScan} (h : charAt s.sbatlevel s.i = '\n') :
    levelStep s = .inl {s with i := s.i + 1} := by
  rw [levelStep,if_neg (by rw [h]; decide),if_pos h]

theorem levelStep_comment {s : LevelScan} {line rest : List Char}
    (h : s.sbatlevel.drop s.i = ('#' :: line) ++ rest) (hline : ∀ c ∈ '#' :: line, lineEnd c = false)
    (hrest : ∀ c ∈ rest.head?, lineEnd c = true) :
    levelStep s = .inl {s with i := s.i + ('#' :: line).length} := by
  have hc : charAt s.sbatlevel s.i = '#' := charAt_of_drop h
  rw [levelStep,if_neg (by rw [hc]; decide),if_neg (by rw [hc]; decide),if_pos hc,scan_eq h hline hrest]

theorem levelStep_noComma {s : LevelScan} {p rest : List Char} (h : s.sbatlevel.drop s.i = p ++ rest)
    (hp : FieldText p) (hne : p ≠ []) (hhead : p.head? ≠ some '#')
    (hrest : ∀ c ∈ rest.head?, lineEnd c = true) :
    levelStep s = .inr {s with i := s.i + p.length, pending := some s.i} := by
  obtain ⟨c,p,rfl⟩ := List.exists_cons_of_ne_nil hne
  have hc : charAt s.sbatlevel s.i = c := charAt_of_drop h
  have hstop : ∀ d ∈ rest.head?, fieldEnd d = true := by
    intro d hd
    have hd' := hrest d hd
    simp only [lineEnd,Bool.or_eq_true,beq_iff_eq] at hd'
    rcases hd' with rfl | rfl <;> rfl
  have hend : charAt s.sbatlevel (s.i + (c :: p).length) = nul ∨
      charAt s.sbatlevel (s.i + (c :: p).length) = '\n' := by
    cases rest with
    | nil => exact Or.inl (charAt_of_drop_nil (drop_add h))
    | cons d rest =>
      rw [charAt_of_drop (drop_add h)]
      simpa [lineEnd] using hrest d rfl
  rw [levelStep,hc,if_neg (hp.ne List.mem_cons_self).1,if_neg (hp.ne List.mem_cons_self).2,
    if_neg (by simpa using hhead),scan_eq h hp hstop,if_pos hend]

end Steps

section Runs

theorem isLevelLine_iff (l : Line) : isLevelLine l = true ↔ l ≠ [] ∧ l.head? ≠ some '#' := by
  simp [isLevelLine]

/-- How the remaining lines are reached behind the version of a line. -/
theorem behind_of_lineBreak {more tail : List Char} (hmore : LineBreak more)
    (htail : ∀ c ∈ tail.head?, c = nul) :
    ∃ text, Behind (more ++ tail) (text ++ tail) ∧ text.length ≤ more.length ∧ (∀ c ∈ text, c ∈ more) ∧
      ∀ r, scanLines r (text.splitOn '\n') = scanLines r (linesAfter more) := by
  rcases hmore with rfl | ⟨t,rfl⟩
  · exact ⟨[],.eof htail,le_refl _,by simp,fun r => scanLines_skip rfl r []⟩
  · exact ⟨t,.eol (t ++ tail),by simp,fun c hc => List.mem_cons_of_mem _ hc,fun r => rfl⟩

theorem lineEnd_head {more tail : List Char} (hmore : LineBreak more)
    (htail : ∀ c ∈ tail.head?, c = nul) : ∀ c ∈ (more ++ tail).head?, lineEnd c = true := by
  intro c hc
  rcases hmore with rfl | ⟨t,rfl⟩
  · rw [htail c hc]
    rfl
  · obtain rfl : '\n' = c := by simpa using hc
    rfl

/-- A turn on a line with a comma, followed by the rest of the run. -/
theorem run_comma {s : LevelScan} {fuel : ℕ} {p v q rest after : List Char} {fs ls : List Line}
    (hsplit : (p ++ ',' :: q).splitOn ',' = p :: v :: fs) (hhead : (p ++ ',' :: q).head? ≠ some '#')
    (h : s.sbatlevel.drop s.i = p ++ ',' :: (v ++ rest)) (hp : FieldText p) (hv : FieldText v)
    (hafter : Behind rest after) (hs : s.Settled)
    (hrun : ∀ s₁ : LevelScan, s₁.sbatlevel.drop s₁.i = after → s₁.Settled →
      ∃ s', run levelStep fuel s₁ = some s' ∧
        (s'.shown,s'.pending.isSome) = scanLines (s₁.shown,s₁.pending.isSome) ls) :
    ∃ s', run levelStep (fuel + 1) s = some s' ∧ (s'.shown,s'.pending.isSome) =
      scanLines (s.shown ++ (lineEntry (p ++ ',' :: q)).toList,
        decide (lineEntry (p ++ ',' :: q) = none)) ls := by
  have hp' : p.head? ≠ some '#' := by
    cases p with
    | nil => simp
    | cons c p => simpa using hhead
  obtain ⟨s₁,hstep,hdrop,hs₁,hshown,hpending⟩ := levelStep_entry h hp hv hp' hafter hs
  obtain ⟨s',hs',heq⟩ := hrun s₁ hdrop hs₁
  refine ⟨s',by rw [run,hstep]; exact hs',?_⟩
  rw [heq,hshown,hpending,lineEntry,if_neg hhead,hsplit]
  by_cases hzero : fieldVersion v = 0
  · simp [hzero]
  · simp [hzero]

/-- The run on a text records what `scanLines` makes of its lines. -/
theorem run_scanLines (tail : List Char) (htail : ∀ c ∈ tail.head?, c = nul) (fuel : ℕ) :
    ∀ (text : List Char) (s : LevelScan), s.sbatlevel.drop s.i = text ++ tail → nul ∉ text →
      text.length < fuel → s.Settled → ∃ s', run levelStep fuel s = some s' ∧
        (s'.shown,s'.pending.isSome) = scanLines (s.shown,s.pending.isSome) (text.splitOn '\n') := by
  induction fuel with
  | zero => intro text s _ _ hf; omega
  | succ fuel ih =>
    intro text s h hnul hfuel hs
    obtain ⟨line,more,rfl,hline,hmore,hlines⟩ := exists_line text
    rw [List.append_assoc] at h
    simp only [List.mem_append,not_or] at hnul
    simp only [List.length_append] at hfuel
    cases hl : isLevelLine line with
    | false =>
      rw [hlines,scanLines_skip hl]
      match line, h, hline with
      | [], h, _ =>
        rcases hmore with rfl | ⟨t,rfl⟩
        · exact ⟨s,by rw [run,levelStep_end (charAt_end h htail)],rfl⟩
        · rw [run,levelStep_blank (charAt_of_drop h)]
          simp only [List.mem_cons,not_or,List.length_cons] at hnul hfuel
          refine ih t _ (drop_succ h) hnul.2.2 (by omega) fun e he => (hs e he).trans ?_
          exact Nat.lt_succ_self _
      | c :: line, h, hline =>
        obtain rfl : c = '#' := by simpa [isLevelLine] using hl
        rw [run,levelStep_comment h (lineText_of hnul.1 hline) (lineEnd_head hmore htail),
          ← scanLines_linesAfter _ hmore]
        simp only [List.length_cons] at hfuel
        refine ih more _ (drop_add h) hnul.2 (by omega) fun e he => (hs e he).trans ?_
        simp
    | true =>
      obtain ⟨hne,hhead⟩ := (isLevelLine_iff line).mp hl
      by_cases hcomma : ',' ∈ line
      · rw [hlines,scanLines_comma hl hcomma]
        cases fields line with
        | one hsplit hno => exact absurd hcomma hno
        | two p v hsplit hpv hp hv =>
          subst hpv
          simp only [List.mem_append,List.mem_cons,not_or] at hnul hline
          obtain ⟨text,hafter,hlen,hsub,hscan⟩ := behind_of_lineBreak hmore htail
          rw [← hscan]
          simp only [List.length_append,List.length_cons] at hfuel
          refine run_comma hsplit hhead (by simpa using h) (fieldText_of hp hnul.1.1 hline.1)
            (fieldText_of hv hnul.1.2.2 hline.2.2) hafter hs fun s₁ h₁ hs₁ =>
              ih text s₁ h₁ (fun hmem => hnul.2 (hsub _ hmem)) (by omega) hs₁
        | more p v w f fs hsplit hpv hp hv =>
          subst hpv
          simp only [List.mem_append,List.mem_cons,not_or] at hnul hline
          rw [← scanLines_linesAfter _ hmore]
          simp only [List.length_append,List.length_cons] at hfuel
          refine run_comma hsplit hhead (by simpa using h) (fieldText_of hp hnul.1.1 hline.1)
            (fieldText_of hv hnul.1.2.2.1 hline.2.2.1)
            (.fields (lineText_of hnul.1.2.2.2.2 hline.2.2.2.2) (lineEnd_head hmore htail)) hs
            fun s₁ h₁ hs₁ => ih more s₁ h₁ hnul.2 (by omega) hs₁
      · have hstep := levelStep_noComma h (fieldText_of hcomma hnul.1 hline) hne hhead
          (lineEnd_head hmore htail)
        refine ⟨_,by rw [run,hstep],?_⟩
        rw [hlines,scanLines_noComma hl hcomma]
        rfl

/-- The entries shown, with the product that is left over, in terms of the lines. -/
theorem levelScan_lines (sbatlevel : Buf) :
    ∃ s, run levelStep (sbatlevel.length + 1) ⟨sbatlevel,0,[],none⟩ = some s ∧
      (s.shown,s.pending.isSome) = scanLines ([],false) ((cstr sbatlevel 0).splitOn '\n') := by
  have hdrop : sbatlevel.drop 0 = cstr sbatlevel 0 ++ sbatlevel.dropWhile fun c => c != nul := by
    rw [cstr,List.drop_zero,List.takeWhile_append_dropWhile]
  have htail : ∀ c ∈ (sbatlevel.dropWhile fun c => c != nul).head?, c = nul := by
    intro c hc
    have hhead := List.head?_dropWhile_not (fun c => c != nul) sbatlevel
    rw [Option.mem_def.mp hc] at hhead
    simpa using hhead
  have hnul : nul ∉ cstr sbatlevel 0 := fun h => by simpa using List.mem_takeWhile_imp h
  have hlen : (cstr sbatlevel 0).length ≤ sbatlevel.length := by
    have := congrArg List.length hdrop
    simp only [List.drop_zero,List.length_append] at this
    omega
  exact run_scanLines _ htail _ _ ⟨sbatlevel,0,[],none⟩ hdrop hnul (by omega) (by simp [LevelScan.Settled])

end Runs

section Exactness

theorem list_eq (s : LevelScan) : ∃ left, s.list = s.shown ++ left ∧ left.length = s.pending.isSome.toNat ∧
    ∀ e ∈ left, e.version = 0 := by
  refine ⟨_,rfl,?_,?_⟩
  · cases s.pending <;> rfl
  · intro e he
    obtain ⟨product,-,rfl⟩ := List.mem_map.mp he
    rfl

theorem length_splitOn_newline (text : List Char) : (text.splitOn '\n').length = text.count '\n' + 1 := by
  induction text with
  | nil => rfl
  | cons c text ih =>
    rw [List.splitOn_cons_eq_if_modifyHead,List.count_cons]
    split
    · rw [List.length_cons,ih]
    · rw [List.length_modifyHead,ih,Nat.add_zero]

/-- The entries returned are those of the well-formed lines if and only if there are
none at all, or every line but the blank ones and the comments has a comma and the last
of them a nonzero version. The array allocated is never exceeded. -/
theorem getSbatEntries_exact_iff (sbatlevel : Buf) :
    (∃ s, run levelStep (sbatlevel.length + 1) ⟨sbatlevel,0,[],none⟩ = some s ∧
      s.list.length ≤ (cstr sbatlevel 0).count '\n' + 1) ∧
    ((getSbatEntries (some sbatlevel)).getD [] = levelEntries (cstr sbatlevel 0) ↔
      (∀ l ∈ (cstr sbatlevel 0).splitOn '\n', lineEntry l = none) ∨
        Clean ((cstr sbatlevel 0).splitOn '\n')) := by
  obtain ⟨s,hs,hlines⟩ := levelScan_lines sbatlevel
  obtain ⟨left,hlist,hleft,hzero⟩ := list_eq s
  have hresult : getSbatEntries (some sbatlevel) = if s.entries = [] then none else some s.list := by
    rw [getSbatEntries,Option.bind_some,hs,Option.bind_some]
  have hnil : s.entries = [] ↔ s.shown = [] := List.map_eq_nil_iff.symm
  rw [← scanLines_clean_iff,← hlines]
  refine ⟨⟨s,hs,?_⟩,?_⟩
  · have hlen := scanLines_length ((cstr sbatlevel 0).splitOn '\n') ([],false)
    rw [← hlines,length_splitOn_newline] at hlen
    rw [hlist,List.length_append,hleft]
    simpa using hlen
  · rw [hresult]
    by_cases hshown : s.shown = []
    · -- without an entry nothing is returned
      rw [if_pos (hnil.mpr hshown),hshown,Option.getD_none,eq_comm,levelEntries,
        List.filterMap_eq_nil_iff]
      refine ⟨Or.inl,?_⟩
      rintro (h | h)
      · exact h
      · rw [Prod.mk.injEq] at h
        exact List.filterMap_eq_nil_iff.mp h.1.symm
    · rw [if_neg fun h => hshown (hnil.mp h),Option.getD_some,hlist]
      have hmem := scanLines_mem ((cstr sbatlevel 0).splitOn '\n') ([],false)
      rw [← hlines] at hmem
      constructor
      · intro heq
        have hno : left = [] := by
          rw [List.eq_nil_iff_forall_not_mem]
          intro e he
          have hentry : e ∈ levelEntries (cstr sbatlevel 0) := heq ▸ List.mem_append_right _ he
          obtain ⟨l,-,hl⟩ := List.mem_filterMap.mp hentry
          exact lineEntry_version hl (hzero e he)
        rw [hno] at heq hleft
        refine Or.inr (Prod.ext (by simpa [levelEntries] using heq) ?_)
        cases hp : s.pending.isSome with
        | false => rfl
        | true => simp [hp] at hleft
      · rintro (h | h)
        · obtain ⟨e,he⟩ := List.exists_mem_of_ne_nil _ hshown
          rcases hmem e he with he | he
          · cases he
          · rw [List.filterMap_eq_nil_iff.mpr h] at he
            cases he
        · rw [Prod.mk.injEq] at h
          rw [h.2] at hleft
          rw [List.length_eq_zero_iff.mp hleft,List.append_nil,h.1]
          rfl

/-- The lines behind one without a comma are lost. -/
theorem getSbatEntries_drops :
    getSbatEntries (some "sbat,1\nshim\ngrub,3".toList) =
        some [⟨"sbat".toList,1⟩,⟨"shim\ngrub,3".toList,0⟩] ∧
      (getSbatEntries (some "sbat,1\nshim\ngrub,3".toList)).getD [] ≠
        levelEntries (cstr "sbat,1\nshim\ngrub,3".toList 0) := by
  constructor
  · decide
  · decide

end Exactness

end SecureWipeOut.Sbat
