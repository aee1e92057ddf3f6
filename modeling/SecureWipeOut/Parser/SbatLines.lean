import SecureWipeOut.Parser.Sbat

/-! # The lines the SBAT scan comes to

One turn of `IsRevokedBySbat` read off the text it starts from, and the whole scan as
a decision on the lines it comes to.
-/
namespace SecureWipeOut.Sbat
open CText Loop Text

section Steps
variable {levels : List SbatEntry}

/-- Behind the last line only line breaks are left. -/
theorem sbatStep_end {buf nl : Buf} {i n : ℕ} (h : buf.drop i = nl ++ List.replicate n nul)
    (hnl : ∀ c ∈ nl, c = '\n') : sbatStep levels (buf,i) = .inr false := by
  have hend : ∀ {k}, buf.drop k = List.replicate n nul → charAt buf k = nul := by
    intro k hk
    cases n with
    | zero => exact charAt_of_drop_nil hk
    | succ n => exact charAt_of_drop (hk.trans List.replicate_succ)
  have hstop : ∀ c ∈ (List.replicate n nul).head?, (c != '\n') = true := by
    intro c hc
    obtain rfl := List.eq_of_mem_replicate (List.mem_of_mem_head? hc)
    decide
  have h1 := scan_eq h (fun c hc => by simp [hnl c hc]) hstop
  simp only [sbatStep,h1,hend (drop_add h),if_true,ite_self]

/-- A part of a line that no separator interrupts. -/
def FieldText (s : List Char) : Prop := ∀ c ∈ s, fieldEnd c = false

theorem FieldText.nul_notMem {s : List Char} (h : FieldText s) : nul ∉ s := by
  intro hn
  have := h nul hn
  simp [fieldEnd] at this

theorem FieldText.ne {s : List Char} (h : FieldText s) {c : Char} (hc : c ∈ s) :
    c ≠ nul ∧ c ≠ '\n' := by
  have := h c hc
  simp only [fieldEnd,Bool.or_eq_false_iff,beq_eq_false_iff_ne] at this
  exact ⟨this.1.2,this.2⟩

/-- The scan passes the line breaks before a line. -/
theorem line_start {buf nl line : Buf} {i : ℕ} (h : buf.drop i = nl ++ line)
    (hnl : ∀ c ∈ nl, c = '\n') (hline : line ≠ []) (hfirst : ∀ c ∈ line.head?, c ≠ nul ∧ c ≠ '\n') :
    charAt buf i ≠ nul ∧ scan (fun c => c != '\n') buf i = i + nl.length ∧
      charAt buf (i + nl.length) ≠ nul := by
  obtain ⟨c,line,rfl⟩ := List.exists_cons_of_ne_nil hline
  have hc := hfirst c rfl
  refine ⟨?_,scan_eq h (fun d hd => by simp [hnl d hd]) (by simpa using hc.2),?_⟩
  · cases nl with
    | nil =>
      rw [charAt_of_drop h]
      exact hc.1
    | cons d nl =>
      rw [charAt_of_drop h,hnl d (by simp)]
      decide
  · rw [charAt_of_drop (drop_add h)]
    exact hc.1

theorem sbatStep_noComma {buf nl p rest : Buf} {sep : Char} {i : ℕ}
    (h : buf.drop i = nl ++ (p ++ sep :: rest)) (hnl : ∀ c ∈ nl, c = '\n') (hne : p ≠ [])
    (hp : FieldText p) (hsep : sep = nul ∨ sep = '\n') : sbatStep levels (buf,i) = .inr false := by
  have hfirst : ∀ c ∈ (p ++ sep :: rest).head?, c ≠ nul ∧ c ≠ '\n' := by
    obtain ⟨d,p,rfl⟩ := List.exists_cons_of_ne_nil hne
    intro c hc
    obtain rfl : d = c := by simpa using hc
    exact hp.ne (by simp)
  obtain ⟨hc0,h1,hc1⟩ := line_start h hnl (by simp) hfirst
  have hd1 := drop_add h
  have hstop : ∀ c ∈ (sep :: rest).head?, fieldEnd c = true := by
    rcases hsep with rfl | rfl <;> simp [fieldEnd]
  have h2 := scan_eq hd1 hp hstop
  have hc2 : charAt buf (i + nl.length + p.length) = sep := charAt_of_drop (drop_add hd1)
  simp only [sbatStep,if_neg hc0,h1,if_neg hc1,h2,hc2,if_pos hsep]

/-- What one turn makes of a line with a comma: its product and version decide, and
the rest of its line, or of the next one, is skipped. -/
theorem sbatStep_entry {buf nl p v skipped rest : Buf} {sep : Char} {i : ℕ}
    (h : buf.drop i = nl ++ (p ++ ',' :: (v ++ sep :: (skipped ++ rest))))
    (hnl : ∀ c ∈ nl, c = '\n') (hp : FieldText p) (hv : FieldText v) (hsep : fieldEnd sep = true)
    (hskip : ∀ c ∈ skipped, lineEnd c = false) (hrest : ∀ c ∈ rest.head?, lineEnd c = true) :
    ∃ sbat' i', sbat'.drop i' = rest ∧ sbatStep levels (buf,i) =
      if versionOf v = 0 then .inl (sbat',i')
      else if lowerThanLevel levels p (versionOf v) then .inr true else .inl (sbat',i') := by
  have hfirst : ∀ c ∈ (p ++ ',' :: (v ++ sep :: (skipped ++ rest))).head?, c ≠ nul ∧ c ≠ '\n' := by
    intro c hc
    cases p with
    | nil =>
      obtain rfl : ',' = c := by simpa using hc
      decide
    | cons d p =>
      obtain rfl : d = c := by simpa using hc
      exact hp.ne (by simp)
  obtain ⟨hc0,h1,hc1⟩ := line_start h hnl (by simp) hfirst
  have hd1 := drop_add h
  have hcomma : ∀ c ∈ (',' :: (v ++ sep :: (skipped ++ rest))).head?, fieldEnd c = true := by
    simp [fieldEnd]
  have h2 := scan_eq hd1 hp hcomma
  have hc2 : charAt buf (i + nl.length + p.length) = ',' := charAt_of_drop (drop_add hd1)
  have hc2' : ¬ (charAt buf (i + nl.length + p.length) = nul ∨
      charAt buf (i + nl.length + p.length) = '\n') := by
    rw [hc2]
    decide
  -- the product and the version are terminated in place
  let b := i + nl.length
  let sbat := buf.set (b + p.length) nul
  have hs1 : sbat.drop b = p ++ nul :: (v ++ sep :: (skipped ++ rest)) := drop_set hd1
  have hd3 : sbat.drop (b + p.length + 1) = v ++ sep :: (skipped ++ rest) := drop_succ (drop_add hs1)
  have hstop : ∀ c ∈ (sep :: (skipped ++ rest)).head?, fieldEnd c = true := by simp [hsep]
  have h3 := scan_eq hd3 hv hstop
  let sbat' := sbat.set (b + p.length + 1 + v.length) nul
  have hs2 : sbat'.drop (b + p.length + 1) = v ++ nul :: (skipped ++ rest) := drop_set hd3
  have hs2' : sbat'.drop b = p ++ nul :: (v ++ nul :: (skipped ++ rest)) := by
    have hs1' : sbat.drop b = (p ++ nul :: v) ++ sep :: (skipped ++ rest) := by simpa using hs1
    have hset := drop_set (d := nul) hs1'
    have hlen : b + (p ++ nul :: v).length = b + p.length + 1 + v.length := by
      simp only [List.length_append,List.length_cons]
      omega
    rw [hlen] at hset
    simpa using hset
  have hproduct : cstr sbat' b = p := cstr_eq hs2' hp.nul_notMem (by simp)
  have hversion : cstr sbat' (b + p.length + 1) = v := cstr_eq hs2 hv.nul_notMem (by simp)
  have hd4 : sbat'.drop (b + p.length + 1 + v.length + 1) = skipped ++ rest := drop_succ (drop_add hs2)
  have h4 := scan_eq hd4 hskip hrest
  refine ⟨sbat',b + p.length + 1 + v.length + 1 + skipped.length,drop_add hd4,?_⟩
  simp only [sbatStep,if_neg hc0,h1,if_neg hc1,h2,if_neg hc2']
  change (if versionOf (cstr (sbat.set (scan fieldEnd sbat (b + p.length + 1)) nul) (b + p.length + 1)) = 0
    then _ else _) = _
  rw [h3]
  change (if versionOf (cstr sbat' (b + p.length + 1)) = 0 then
      Sum.inl (sbat',scan lineEnd sbat' (b + p.length + 1 + v.length + 1))
    else if lowerThanLevel levels (cstr sbat' b) (versionOf (cstr sbat' (b + p.length + 1))) = true then
      Sum.inr true
    else Sum.inl (sbat',scan lineEnd sbat' (b + p.length + 1 + v.length + 1))) = _
  rw [hproduct,hversion,h4]

end Steps

section Lines

/-- The lines behind a line, where the text behind it is `more`. -/
def linesAfter (more : List Char) : List Line :=
  match more with
  | [] => []
  | _ :: t => t.splitOn '\n'

/-- What follows the first line of a text. -/
def LineBreak (more : List Char) : Prop := more = [] ∨ ∃ t, more = '\n' :: t

theorem exists_line (text : List Char) : ∃ line more, text = line ++ more ∧ '\n' ∉ line ∧
    LineBreak more ∧ text.splitOn '\n' = line :: linesAfter more := by
  obtain ⟨line,more,rfl,hline,hmore⟩ := exists_split (fun c => c == '\n') text
  have hnl : '\n' ∉ line := by
    intro h
    simpa using hline _ h
  refine ⟨line,more,rfl,hnl,?_⟩
  cases more with
  | nil => exact ⟨Or.inl rfl,by simp [linesAfter,List.splitOn_eq_singleton hnl]⟩
  | cons c t =>
    obtain rfl : c = '\n' := by simpa using hmore
    exact ⟨Or.inr ⟨t,rfl⟩,List.splitOn_append_cons_self_of_not_mem hnl t⟩

theorem examined_blank {nl text : List Char} (hnl : ∀ c ∈ nl, c = '\n') :
    examined false ((nl ++ text).splitOn '\n') = examined false (text.splitOn '\n') := by
  induction nl with
  | nil => rfl
  | cons c nl ih =>
    obtain rfl := hnl c (by simp)
    have hsplit : ([] ++ '\n' :: (nl ++ text)).splitOn '\n' = [] :: (nl ++ text).splitOn '\n' :=
      List.splitOn_append_cons_self_of_not_mem (by simp) _
    rw [List.cons_append,← List.nil_append ('\n' :: (nl ++ text)),hsplit,examined,
      if_neg (by simp),if_pos rfl]
    exact ih fun d hd => hnl d (by simp [hd])

theorem examined_linesAfter {more : List Char} (h : LineBreak more) :
    examined false (more.splitOn '\n') = examined false (linesAfter more) := by
  rcases h with rfl | ⟨t,rfl⟩
  · rfl
  · have hnl : ∀ c ∈ ['\n'], c = '\n' := by simp
    exact examined_blank hnl

/-- What the scan decides about a line it comes to. -/
def revokes (levels : List SbatEntry) (l : Line) : Bool :=
  match l.splitOn ',' with
  | product :: version :: _ =>
    decide (versionOf version ≠ 0) && lowerThanLevel levels product (versionOf version)
  | _ => false

/-- How the fields of a nonblank line lie in it. -/
inductive Fields (line : List Char) : Prop
  | one (h : line.splitOn ',' = [line]) (hp : ',' ∉ line) : Fields line
  | two (p v : List Char) (h : line.splitOn ',' = [p,v]) (hline : line = p ++ ',' :: v)
      (hp : ',' ∉ p) (hv : ',' ∉ v) : Fields line
  | more (p v w : List Char) (f : Line) (fs : List Line) (h : line.splitOn ',' = p :: v :: f :: fs)
      (hline : line = p ++ ',' :: (v ++ ',' :: w)) (hp : ',' ∉ p) (hv : ',' ∉ v) : Fields line

theorem fields (line : List Char) : Fields line := by
  by_cases hmem : ',' ∈ line
  · obtain ⟨p,r,rfl,hp⟩ := List.eq_append_cons_of_mem hmem
    have hsplit := List.splitOn_append_cons_self_of_not_mem hp r
    by_cases hmem' : ',' ∈ r
    · obtain ⟨v,w,rfl,hv⟩ := List.eq_append_cons_of_mem hmem'
      obtain ⟨f,fs,hfs⟩ := List.exists_cons_of_ne_nil (List.splitOn_ne_nil ',' w)
      have hsplit' := List.splitOn_append_cons_self_of_not_mem hv w
      exact .more p v w f fs (by rw [hsplit,hsplit',hfs]) rfl hp hv
    · exact .two p r (by rw [hsplit,List.splitOn_eq_singleton hmem']) rfl hp hmem'
  · exact .one (List.splitOn_eq_singleton hmem) hmem

end Lines

section Scan
variable {levels : List SbatEntry}

theorem fieldText_of {s : List Char} (h1 : ',' ∉ s) (h2 : nul ∉ s) (h3 : '\n' ∉ s) : FieldText s := by
  intro c hc
  have hc1 : c ≠ ',' := fun h => h1 (h ▸ hc)
  have hc2 : c ≠ nul := fun h => h2 (h ▸ hc)
  have hc3 : c ≠ '\n' := fun h => h3 (h ▸ hc)
  simp [fieldEnd,hc1,hc2,hc3]

theorem lineText_of {s : List Char} (h2 : nul ∉ s) (h3 : '\n' ∉ s) : ∀ c ∈ s, lineEnd c = false := by
  intro c hc
  have hc2 : c ≠ nul := fun h => h2 (h ▸ hc)
  have hc3 : c ≠ '\n' := fun h => h3 (h ▸ hc)
  simp [lineEnd,hc2,hc3]

theorem lineEnd_tail {more : List Char} (h : LineBreak more) (n : ℕ) :
    ∀ c ∈ (more ++ List.replicate n nul).head?, lineEnd c = true := by
  intro c hc
  rcases h with rfl | ⟨t,rfl⟩
  · obtain rfl := List.eq_of_mem_replicate (List.mem_of_mem_head? hc)
    rfl
  · obtain rfl : '\n' = c := by simpa using hc
    rfl

/-- A turn on a line with a comma, followed by the rest of the run. -/
theorem run_entry {s : Buf × ℕ} {sbat' : Buf} {i' fuel : ℕ} {p v line : List Char} {fs : List Line}
    {b : Bool} (hfields : line.splitOn ',' = p :: v :: fs)
    (hstep : sbatStep levels s =
      if versionOf v = 0 then .inl (sbat',i')
      else if lowerThanLevel levels p (versionOf v) then .inr true else .inl (sbat',i'))
    (hrun : run (sbatStep levels) fuel (sbat',i') = some b) :
    run (sbatStep levels) (fuel + 1) s = some (revokes levels line || b) := by
  rw [run,hstep,revokes,hfields]
  by_cases hv : versionOf v = 0
  · simp [hv,hrun]
  · by_cases hl : lowerThanLevel levels p (versionOf v) = true
    · simp [hv,hl]
    · simp [hv,hl,hrun]

/-- The scan ends and decides on the lines it comes to. -/
theorem run_examined (fuel : ℕ) : ∀ (text : List Char) (n : ℕ) (buf : Buf) (i : ℕ),
    buf.drop i = text ++ List.replicate n nul → (text ≠ [] → 1 ≤ n) → nul ∉ text →
    text.length < fuel → run (sbatStep levels) fuel (buf,i) =
      some ((examined false (text.splitOn '\n')).any (revokes levels)) := by
  induction fuel with
  | zero => intro text n buf i _ _ _ hf; omega
  | succ fuel ih =>
    intro text n buf i hbuf hn hnul hfuel
    obtain ⟨nl,text₁,rfl,hnl,hhead⟩ := exists_split (fun c => c != '\n') text
    have hnl' : ∀ c ∈ nl, c = '\n' := fun c hc => by simpa using hnl c hc
    rw [examined_blank hnl']
    obtain ⟨line,more,rfl,hline,hmore,hlines⟩ := exists_line text₁
    rw [hlines]
    by_cases hne : line = []
    · -- only line breaks are left
      subst hne
      have hmore' : more = [] := by
        rcases hmore with rfl | ⟨t,rfl⟩
        · rfl
        · simp at hhead
      subst hmore'
      rw [run,sbatStep_end (by simpa using hbuf) hnl']
      rfl
    obtain ⟨n,rfl⟩ : ∃ m, n = m + 1 := ⟨n - 1,by have := hn (by simp [hne]); omega⟩
    simp only [List.mem_append,not_or] at hnul
    obtain ⟨-,hnline,hnmore⟩ := hnul
    simp only [List.length_append] at hfuel
    have hlen : 0 < line.length := List.length_pos_iff.mpr hne
    rw [examined,if_neg (by simp),if_neg hne]
    cases fields line with
    | one h hp =>
      have hbuf' : ∃ sep rest, buf.drop i = nl ++ (line ++ sep :: rest) ∧ (sep = nul ∨ sep = '\n') := by
        rcases hmore with rfl | ⟨t,rfl⟩
        · exact ⟨nul,List.replicate n nul,by simpa [List.replicate_succ] using hbuf,Or.inl rfl⟩
        · exact ⟨'\n',t ++ List.replicate (n + 1) nul,by simpa using hbuf,Or.inr rfl⟩
      obtain ⟨sep,rest,hdrop,hsep⟩ := hbuf'
      rw [run,sbatStep_noComma hdrop hnl' hne (fieldText_of hp hnline hline) hsep,h]
      rfl
    | two p v h hpv hp hv =>
      subst hpv
      simp only [List.mem_append,List.mem_cons,not_or] at hnline hline
      have hpt := fieldText_of hp hnline.1 hline.1
      have hvt := fieldText_of hv hnline.2.2 hline.2.2
      rw [h]
      rcases hmore with rfl | ⟨t,rfl⟩
      · have hdrop : buf.drop i = nl ++ (p ++ ',' :: (v ++ nul :: ([] ++ List.replicate n nul))) := by
          simpa [List.replicate_succ] using hbuf
        obtain ⟨sbat',i',hdrop',hstep⟩ := sbatStep_entry hdrop hnl' hpt hvt rfl (by simp)
          (lineEnd_tail (Or.inl rfl) n)
        have hrun := ih [] n sbat' i' hdrop' (by simp) (by simp) (by omega)
        exact run_entry h hstep hrun
      · obtain ⟨line₂,more₂,rfl,hline₂,hmore₂,hlines₂⟩ := exists_line t
        have hdrop : buf.drop i = nl ++ (p ++ ',' :: (v ++ '\n' ::
            (line₂ ++ (more₂ ++ List.replicate (n + 1) nul)))) := by
          simpa using hbuf
        simp only [List.mem_cons,List.mem_append,not_or] at hnmore
        obtain ⟨sbat',i',hdrop',hstep⟩ := sbatStep_entry hdrop hnl' hpt hvt rfl
          (lineText_of hnmore.2.1 hline₂) (lineEnd_tail hmore₂ (n + 1))
        simp only [List.length_cons,List.length_append] at hfuel
        have hrun := ih more₂ (n + 1) sbat' i' hdrop' (by omega) hnmore.2.2 (by omega)
        rw [linesAfter,hlines₂,List.any_cons,examined,if_pos rfl,← examined_linesAfter hmore₂]
        exact run_entry h hstep hrun
    | more p v w f fs h hpv hp hv =>
      subst hpv
      simp only [List.mem_append,List.mem_cons,not_or] at hnline hline
      have hpt := fieldText_of hp hnline.1 hline.1
      have hvt := fieldText_of hv hnline.2.2.1 hline.2.2.1
      rw [h]
      have hdrop : buf.drop i = nl ++ (p ++ ',' :: (v ++ ',' ::
          (w ++ (more ++ List.replicate (n + 1) nul)))) := by
        simpa using hbuf
      obtain ⟨sbat',i',hdrop',hstep⟩ := sbatStep_entry hdrop hnl' hpt hvt rfl
        (lineText_of hnline.2.2.2.2 hline.2.2.2.2) (lineEnd_tail hmore (n + 1))
      simp only [List.length_cons,List.length_append] at hfuel
      have hrun := ih more (n + 1) sbat' i' hdrop' (by omega) hnmore (by omega)
      rw [List.any_cons,← examined_linesAfter hmore]
      exact run_entry h hstep hrun

end Scan

end SecureWipeOut.Sbat
