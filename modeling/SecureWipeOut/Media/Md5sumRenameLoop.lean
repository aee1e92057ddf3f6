import SecureWipeOut.Media.Md5sumRenameLines
import SecureWipeOut.Media.Md5sumUpdateLines

/-! # The loop over the paths of boot loaders

The loop is compared with the text that the lines give: what it has written, followed by the text
that it has not copied, does not change while it passes over places where no path of a boot loader
is ended by a line break.
-/
namespace SecureWipeOut.Md5sum
open CText Search TextFile

section Places
variable {text : List Char} {name : List Char} {q i : ℕ}

/-- The name of a boot loader and a line break stand behind a path that begins at an index. -/
def Match (text name : List Char) (q : ℕ) : Prop := name ++ ['\n'] <+: lower (text.drop (q + 12))

theorem hit_iff_match (hocc : bootPath <+: lower (text.drop q)) : Hit name (text.drop q) ↔ Match text name q := by
  have hlead : lead <+: lower (text.drop q) := List.IsPrefix.trans (by decide) hocc
  obtain ⟨rest,hrest⟩ := hlead
  have hdrop : lower (text.drop (q + 12)) = rest := by
    rw [← List.drop_drop,lower_drop,← hrest]
    rfl
  rw [Hit,Match,hdrop,← hrest,List.append_assoc,List.prefix_append_right_inj]

theorem Hit.occurs (hname : name ∈ bootloaderNames) (h : Hit name (text.drop q)) : bootPath <+: lower (text.drop q) := by
  obtain ⟨rest,rfl⟩ := (bootloaderNames_spec name hname).2.2.2.2.2
  refine List.IsPrefix.trans ⟨rest ++ ['\n'],?_⟩ h
  rw [← List.append_assoc,← List.append_assoc]
  rfl

/-- No path begins inside a text without blanks. -/
theorem not_occurs_inside {x : List Char} (hx : ' ' ∉ x.tail) (h : x <+: lower (text.drop q)) {j : ℕ} (hpos : 0 < j)
    (hj : j < x.length) : ¬bootPath <+: lower (text.drop (q + j)) := by
  intro hocc
  have hblank : (lower (text.drop (q + j)))[0]? = some ' ' := List.prefix_iff_getElem?.mp hocc 0 (by decide)
  rw [← List.drop_drop,lower_drop,List.getElem?_drop,Nat.add_zero,List.prefix_iff_getElem?.mp h j hj,Option.some.injEq] at hblank
  have htail : x.tail[j - 1]? = some ' ' := by
    rw [List.getElem?_tail,Nat.sub_add_cancel hpos,List.getElem?_eq_getElem hj,hblank]
  exact hx (List.mem_of_getElem? htail)

/-- At most one name stands behind a path. -/
theorem Match.unique {name' : List Char} (hname : name ∈ bootloaderNames) (hname' : name' ∈ bootloaderNames)
    (h : Match text name q) (h' : Match text name' q) : name = name' := by
  have hline := (bootloaderNames_spec name hname).2.2.1
  have hline' := (bootloaderNames_spec name' hname').2.2.1
  obtain ⟨a,rest,hsplit,hlow⟩ := prefix_lower_iff.mp h
  obtain ⟨a',rest',hsplit',hlow'⟩ := prefix_lower_iff.mp h'
  have ha : '\n' ∉ a := by rwa [← mem_lower_iff (by decide),hlow]
  have ha' : '\n' ∉ a' := by rwa [← mem_lower_iff (by decide),hlow']
  rw [hsplit] at hsplit'
  have hwhile := congrArg (List.takeWhile fun c => c != '\n') hsplit'
  rw [takeWhile_append_stop,takeWhile_append_stop] at hwhile
  · rw [← hlow,← hlow',hwhile]
  · intro c hc
    simpa using fun he : c = '\n' => ha' (he ▸ hc)
  · simp
  · intro c hc
    simpa using fun he : c = '\n' => ha (he ▸ hc)
  · simp

end Places

section Round
variable {text behind : List Char} {r : Renaming} {name : List Char} {q : ℕ}

/-- What the round about a name that stands behind the path makes of the state. -/
def accepted (text behind : List Char) (q : ℕ) (r : Renaming) (name : List Char) : Renaming :=
  let newData := r.newData ++ (text.drop r.s).take (q - r.s + 8 + name.length) ++ "_original.efi\n".toList
  ⟨text ++ nul :: behind,q + 13 + name.length,newData,(r.newSize + 9) % 2 ^ 32,max r.peak (newData.length + 1)⟩

theorem renameOne_match (hnul : nul ∉ text) (hdata : r.md5Data = text ++ nul :: behind) (hs : r.s ≤ q)
    (hname : name ∈ bootloaderNames) (h : Match text name q) : renameOne q r name = accepted text behind q r name := by
  obtain ⟨a,rest,hsplit,hlow⟩ := prefix_lower_iff.mp h
  have ha : a.length = name.length := by rw [← length_lower,hlow]
  have hdrop : r.md5Data.drop (q + 12) = a ++ '\n' :: (rest ++ nul :: behind) := by
    rw [hdata,List.drop_append_of_le_length ?_,hsplit,List.append_assoc,List.cons_append]
    by_contra hlt
    rw [List.drop_eq_nil_of_le (not_le.mp hlt).le] at hsplit
    exact List.append_ne_nil_of_right_ne_nil a (List.cons_ne_nil _ _) hsplit.symm
  have hchar : charAt r.md5Data (q + 12 + name.length) = '\n' := by
    rw [← ha]
    exact charAt_of_drop (drop_add hdrop)
  have hcstr : cstr (r.md5Data.set (q + 12 + name.length) nul) (q + 12) = a := by
    rw [← ha]
    refine cstr_eq (drop_set hdrop) ?_ (by simp)
    intro hmem
    refine hnul (List.mem_of_mem_drop (i := q + 12) ?_)
    rw [hsplit]
    exact List.mem_append_left _ hmem
  have hcmp : lstrcmpi a name = true := by
    rw [lstrcmpi,hlow,(bootloaderNames_spec name hname).1,beq_self_eq_true]
  have hrestore : (r.md5Data.set (q + 12 + name.length) nul).set (q + 12 + name.length) '\n' = text ++ nul :: behind := by
    rw [← hdata,← hchar]
    exact set_restore _ _ _
  have hfour := (bootloaderNames_spec name hname).2.2.2.2.1
  have hle : q + 12 + name.length < text.length := by
    have hlen := congrArg List.length hsplit
    rw [List.length_drop,List.length_append,List.length_cons] at hlen
    omega
  have hcopy : ((r.md5Data.set (q + 12 + name.length) nul).drop r.s).take (q - r.s + 12 + name.length - 4) =
      (text.drop r.s).take (q - r.s + 8 + name.length) := by
    have hsize : q - r.s + 12 + name.length - 4 = q - r.s + 8 + name.length := by omega
    rw [hsize,List.drop_set,if_neg (by omega),List.take_set,List.set_eq_of_length_le,hdata,
      List.drop_append_of_le_length (by omega),List.take_append_of_le_length]
    · rw [List.length_drop]
      omega
    · rw [List.length_take]
      omega
  unfold renameOne accepted
  dsimp only
  rw [if_neg (not_not.mpr hchar),hcstr,hcmp,if_pos rfl,hcopy,hrestore]
  congr 1
  omega

theorem renameOne_of_not (hdata : r.md5Data = text ++ nul :: behind) (hname : name ∈ bootloaderNames)
    (h : ¬Match text name q) (hq : q + 12 ≤ text.length) : renameOne q r name = r := by
  unfold renameOne
  dsimp only
  split
  · rfl
  next hchar =>
    rw [not_not] at hchar
    have hrestore : (r.md5Data.set (q + 12 + name.length) nul).set (q + 12 + name.length) '\n' = r.md5Data := by
      rw [← hchar]
      exact set_restore _ _ _
    have hcmp : lstrcmpi (cstr (r.md5Data.set (q + 12 + name.length) nul) (q + 12)) name = false := by
      rw [Bool.eq_false_iff]
      intro heq
      apply h
      generalize ha : cstr (r.md5Data.set (q + 12 + name.length) nul) (q + 12) = a at heq
      have hlow : lower a = name := by
        rw [lstrcmpi,beq_iff_eq,(bootloaderNames_spec name hname).1] at heq
        exact heq
      have hlen : a.length = name.length := by rw [← length_lower,hlow]
      have hbefore : a <+: (r.md5Data.set (q + 12 + name.length) nul).drop (q + 12) := ha ▸ List.takeWhile_prefix _
      obtain ⟨rest,hrest⟩ := hbefore
      have hin : q + 12 + name.length < r.md5Data.length := by
        refine lt_length_of_charAt ?_
        rw [hchar]
        decide
      cases rest with
      | nil =>
        have hcount := congrArg List.length hrest
        rw [List.append_nil,List.length_drop,List.length_set] at hcount
        omega
      | cons c rest =>
        have hback := drop_set (d := '\n') hrest.symm
        rw [hlen,hrestore,hdata,List.drop_append_of_le_length hq,List.append_cons a] at hback
        have hsep : nul ∉ a ++ ['\n'] := by
          rw [List.mem_append,List.mem_singleton]
          rintro (hmem | hmem)
          · have hnul := (bootloaderNames_spec name hname).2.2.2.1
            rw [← hlow,mem_lower_iff (by decide)] at hnul
            exact hnul hmem
          · exact absurd hmem (by decide)
        have hin : a ++ ['\n'] <+: text.drop (q + 12) := (prefix_append_sep hsep _ behind).mp ⟨rest,hback.symm⟩
        have hmap := hin.map Char.toLower
        rw [List.map_append] at hmap
        rw [Match,← hlow]
        exact hmap
    rw [hcmp,if_neg Bool.false_ne_true,hrestore]

end Round

section Rounds
variable {text behind : List Char} {r : Renaming} {name : List Char} {q : ℕ}

theorem foldl_renameOne_of_not (hdata : r.md5Data = text ++ nul :: behind) (hq : q + 12 ≤ text.length)
    {names : List (List Char)} (hnames : ∀ name ∈ names, name ∈ bootloaderNames) (h : ∀ name ∈ names, ¬Match text name q) :
    names.foldl (renameOne q) r = r := by
  induction names with
  | nil => rfl
  | cons name names ih =>
    rw [List.foldl_cons,renameOne_of_not hdata (hnames name List.mem_cons_self) (h name List.mem_cons_self) hq]
    exact ih (fun m hm => hnames m (List.mem_cons_of_mem _ hm)) fun m hm => h m (List.mem_cons_of_mem _ hm)

/-- The loop over the architectures accepts the one name that stands behind the path. -/
theorem foldl_renameOne_match (hnul : nul ∉ text) (hdata : r.md5Data = text ++ nul :: behind) (hs : r.s ≤ q)
    (hq : q + 12 ≤ text.length) (hname : name ∈ bootloaderNames) (h : Match text name q) :
    bootloaderNames.foldl (renameOne q) r = accepted text behind q r name := by
  obtain ⟨pre,post,hsplit⟩ := List.append_of_mem hname
  have hnodup := bootloaderNames_nodup
  rw [hsplit,List.nodup_middle,List.nodup_cons] at hnodup
  have hother : ∀ m ∈ pre ++ post, m ∈ bootloaderNames ∧ ¬Match text m q := by
    intro m hm
    have hmem : m ∈ bootloaderNames := by
      rw [hsplit]
      rcases List.mem_append.mp hm with hm | hm
      · exact List.mem_append_left _ hm
      · exact List.mem_append_right _ (List.mem_cons_of_mem _ hm)
    refine ⟨hmem,fun hmatch => hnodup.1 ?_⟩
    rwa [Match.unique hname hmem h hmatch]
  rw [hsplit,List.foldl_append,List.foldl_cons]
  rw [foldl_renameOne_of_not hdata hq (fun m hm => (hother m (List.mem_append_left _ hm)).1)
    fun m hm => (hother m (List.mem_append_left _ hm)).2]
  rw [renameOne_match hnul hdata hs hname h]
  exact foldl_renameOne_of_not rfl hq (fun m hm => (hother m (List.mem_append_right _ hm)).1)
    fun m hm => (hother m (List.mem_append_right _ hm)).2

end Rounds

section Loop
variable {text behind : List Char} {r : Renaming} {p : ℕ}

/-- Before a round of the loop: what is not copied yet begins no later than the search, but for the
rest of a name that is changed already, and no path of a boot loader is passed. -/
structure AtRound (text behind : List Char) (r : Renaming) (p : ℕ) : Prop where
  data : r.md5Data = text ++ nul :: behind
  s_le : r.s ≤ text.length
  p_le : p ≤ text.length
  passed : ∀ i, r.s ≤ i → i < p → ∀ name ∈ bootloaderNames, ¬Hit name (text.drop i)
  ahead : ∀ i, p ≤ i → i < r.s → ¬bootPath <+: lower (text.drop i)
  peak : r.peak ≤ r.newData.length + 1
  size : r.newSize < 2 ^ 32

/-- What the loop does to the text that is not copied yet. -/
structure Passed (text behind : List Char) (r r' : Renaming) : Prop where
  data : r'.md5Data = text ++ nul :: behind
  s_le : r'.s ≤ text.length
  written : r'.newData ++ text.drop r'.s = r.newData ++ passText (text.drop r.s)
  size : r'.newSize = (r.newSize + 9 * passCount (text.drop r.s)) % 2 ^ 32
  none : passCount (text.drop r.s) = 0 → r' = r
  some : passCount (text.drop r.s) ≠ 0 → r'.peak = r'.newData.length + 1
  ends : PassEnds (text.drop r.s) ↔ passCount (text.drop r.s) ≠ 0 ∧ r'.s = text.length

theorem strStrI_eq (hnul : nul ∉ text) (h : AtRound text behind r p) :
    strStrI r.md5Data p bootPath = (find bootPath (lower (text.drop p))).map (p + ·) := by
  have hcstr : cstr r.md5Data p = text.drop p := by
    have hdrop : r.md5Data.drop p = text.drop p ++ nul :: behind := by rw [h.data,List.drop_append_of_le_length h.p_le]
    exact cstr_eq hdrop (fun hmem => hnul (List.mem_of_mem_drop hmem)) (by simp)
  have hlow : lower bootPath = bootPath := by decide
  rw [strStrI,hcstr,hlow]

/-- Where the search stops, the text is copied as it is. -/
theorem AtRound.stop (h : AtRound text behind r p) (hfind : find bootPath (lower (text.drop p)) = none) :
    Passed text behind r r := by
  have hclear : ∀ i, ∀ name ∈ bootloaderNames, ¬Hit name ((text.drop r.s).drop i) := by
    intro i name hname hhit
    rw [List.drop_drop] at hhit
    rcases Nat.lt_or_ge (r.s + i) p with hlt | hge
    · exact h.passed _ (Nat.le_add_right _ _) hlt name hname hhit
    · refine (find_eq_none_iff (by decide)).mp hfind (r.s + i - p) ?_
      rw [Occurs,← lower_drop,List.drop_drop,Nat.add_sub_cancel' hge]
      exact hhit.occurs hname
  obtain ⟨htext,hcount,hends⟩ := pass_none hclear
  refine ⟨h.data,h.s_le,by rw [htext],?_,fun _ => rfl,fun hne => absurd hcount hne,?_⟩
  · rw [hcount,Nat.mul_zero,Nat.add_zero,Nat.mod_eq_of_lt h.size]
  · exact ⟨fun hlast => absurd hlast hends,fun hne => absurd hcount hne.1⟩

/-- A place that the search finds. -/
structure Found (text : List Char) (r : Renaming) (p q : ℕ) : Prop where
  p_le : p ≤ q
  s_le : r.s ≤ q
  le : q + 16 ≤ text.length
  occurs : bootPath <+: lower (text.drop q)
  clear : ∀ i, r.s ≤ i → i < q → ∀ name ∈ bootloaderNames, ¬Hit name (text.drop i)

theorem AtRound.found (h : AtRound text behind r p) {k : ℕ} (hfind : find bootPath (lower (text.drop p)) = some k) :
    Found text r p (p + k) := by
  obtain ⟨-,hocc,hleast⟩ := find_eq_some_iff.mp hfind
  have hat : ∀ i, Occurs bootPath (lower (text.drop p)) i ↔ bootPath <+: lower (text.drop (p + i)) := by
    intro i
    rw [Occurs,← lower_drop,List.drop_drop]
  rw [hat] at hocc
  have hlen := hocc.length_le
  have hsixteen : bootPath.length = 16 := by decide
  rw [hsixteen,length_lower,List.length_drop] at hlen
  refine ⟨Nat.le_add_right _ _,?_,by omega,hocc,fun i hsi hi name hname hhit => ?_⟩
  · by_contra hlt
    exact h.ahead _ (Nat.le_add_right _ _) (not_le.mp hlt) hocc
  · rcases Nat.lt_or_ge i p with hlt | hge
    · exact h.passed i hsi hlt name hname hhit
    · obtain ⟨j,rfl⟩ := Nat.exists_eq_add_of_le hge
      exact hleast j (by omega) ((hat j).mpr (hhit.occurs hname))

/-- The search goes on inside a path that is not accepted. -/
theorem AtRound.refuse {q : ℕ} (h : AtRound text behind r p) (hf : Found text r p q)
    (hno : ∀ name ∈ bootloaderNames, ¬Match text name q) : AtRound text behind r (q + 12) := by
  have hle := hf.le
  have hs := hf.s_le
  refine ⟨h.data,h.s_le,by omega,fun i hsi hi name hname hhit => ?_,fun i hi his => by omega,h.peak,h.size⟩
  rcases lt_trichotomy i q with hlt | rfl | hgt
  · exact hf.clear i hsi hlt name hname hhit
  · exact hno name hname ((hit_iff_match hf.occurs).mp hhit)
  · obtain ⟨j,rfl⟩ := Nat.exists_eq_add_of_lt hgt
    refine not_occurs_inside (j := j + 1) (by decide) hf.occurs (Nat.succ_pos j) ?_ (hhit.occurs hname)
    have hsixteen : bootPath.length = 16 := by decide
    omega

/-- The search goes on in the name of a path that is accepted. -/
theorem AtRound.accept {q : ℕ} {name : List Char} (h : AtRound text behind r p) (hf : Found text r p q) (hname : name ∈ bootloaderNames)
    (hhit : Hit name (text.drop q)) : AtRound text behind (accepted text behind q r name) (q + 12) := by
  have hlead : lead.length = 12 := by decide
  have hle := hf.le
  have hlong : q + 13 + name.length ≤ text.length := by
    have hlen := hhit.length_le
    simp only [List.length_append,hlead,List.length_singleton,length_lower,List.length_drop] at hlen
    omega
  refine ⟨rfl,hlong,by omega,fun i hi hlt => ?_,fun i hi hlt => ?_,?_,Nat.mod_lt _ (by decide)⟩
  · simp only [accepted] at hi
    omega
  · simp only [accepted] at hlt
    obtain ⟨j,rfl⟩ := Nat.exists_eq_add_of_le (show q ≤ i by omega)
    refine not_occurs_inside ?_ hhit (by omega) ?_
    · have htail : (lead ++ name ++ ['\n']).tail = lead.tail ++ name ++ ['\n'] := rfl
      rw [htail,List.mem_append,List.mem_append]
      rintro ((hmem | hmem) | hmem)
      · exact absurd hmem (by decide)
      · exact (bootloaderNames_spec name hname).2.1 hmem
      · exact absurd hmem (by decide)
    · simp only [List.length_append,hlead,List.length_singleton]
      omega
  · have hpeak := h.peak
    simp only [accepted,List.length_append]
    omega

/-- A path that is accepted, and what the loop does to the text behind it. -/
theorem Passed.accept {q : ℕ} {name : List Char} {r' : Renaming} (h : AtRound text behind r p) (hf : Found text r p q)
    (hname : name ∈ bootloaderNames) (hhit : Hit name (text.drop q)) (hpass : Passed text behind (accepted text behind q r name) r') :
    Passed text behind r r' := by
  have hsq := Nat.add_sub_cancel' hf.s_le
  have hle := hf.le
  obtain ⟨htext,hcount,hends⟩ : passText (text.drop r.s) = (text.drop r.s).take (q - r.s) ++ passText (text.drop q) ∧
      passCount (text.drop r.s) = passCount (text.drop q) ∧ (PassEnds (text.drop r.s) ↔ PassEnds (text.drop q)) := by
    have hcopy := pass_drop (t := text.drop r.s) (n := q - r.s) (by rw [List.length_drop]; omega) fun i hi => by
      rw [List.drop_drop]
      exact hf.clear _ (Nat.le_add_right _ _) (by omega)
    rwa [List.drop_drop,hsq] at hcopy
  obtain ⟨htext',hcount',hends'⟩ := pass_hit hname hhit
  rw [List.drop_drop,← Nat.add_assoc] at htext' hcount' hends'
  have hsplit : (text.drop r.s).take (q - r.s + 8 + name.length) =
      (text.drop r.s).take (q - r.s) ++ (text.drop q).take (8 + name.length) := by
    rw [Nat.add_assoc,List.take_add,List.drop_drop,hsq]
  have hwritten := hpass.written
  have hsize := hpass.size
  have hnone := hpass.none
  have hsome := hpass.some
  have hlast := hpass.ends
  have hlong := (h.accept hf hname hhit).s_le
  simp only [accepted] at hwritten hsize hnone hsome hlast hlong
  have hboth := hcount.trans hcount'
  refine ⟨hpass.data,hpass.s_le,?_,?_,fun hzero => ?_,fun _ => ?_,?_⟩
  · rw [hwritten,htext,htext',hsplit]
    simp only [List.append_assoc]
  · rw [hsize,hboth]
    omega
  · rw [hboth] at hzero
    exact absurd hzero (Nat.succ_ne_zero _)
  · by_cases hzero : passCount (text.drop (q + 13 + name.length)) = 0
    · rw [hnone hzero]
      have hpeak := h.peak
      simp only [List.length_append]
      omega
    · exact hsome hzero
  · rw [hends,hends',hlast,List.drop_eq_nil_iff,hboth]
    by_cases hzero : passCount (text.drop (q + 13 + name.length)) = 0
    · rw [hnone hzero]
      simp only [hzero]
      omega
    · have hlt : ¬text.length ≤ q + 13 + name.length := by
        intro hge
        rw [List.drop_eq_nil_of_le hge] at hzero
        exact hzero rfl
      rw [or_iff_right hlt]
      exact ⟨fun h => ⟨Nat.succ_ne_zero _,h.2⟩,fun h => ⟨hzero,h.2⟩⟩

theorem renameLoop_passed (hnul : nul ∉ text) (h : AtRound text behind r p) : Passed text behind r (renameLoop r p) := by
  induction hlen : text.length - p using Nat.strongRecOn generalizing r p with
  | ind n ih =>
    have hsearch := strStrI_eq hnul h
    rw [renameLoop]
    split
    next hnone =>
      rw [hsearch,Option.map_eq_none_iff] at hnone
      exact h.stop hnone
    next q hq =>
      rw [hsearch,Option.map_eq_some_iff] at hq
      obtain ⟨k,hk,rfl⟩ := hq
      have hf := h.found hk
      have hle := hf.le
      by_cases hmatch : ∃ name ∈ bootloaderNames, Match text name (p + k)
      · obtain ⟨name,hname,hm⟩ := hmatch
        have hhit := (hit_iff_match hf.occurs).mpr hm
        rw [foldl_renameOne_match hnul h.data hf.s_le (by omega) hname hm]
        exact Passed.accept h hf hname hhit (ih _ (by omega) (h.accept hf hname hhit) rfl)
      · have hno : ∀ name ∈ bootloaderNames, ¬Match text name (p + k) := fun name hname hm => hmatch ⟨name,hname,hm⟩
        rw [foldl_renameOne_of_not h.data (by omega) (fun _ hm => hm) hno]
        exact ih _ (by omega) (h.refuse hf hno) rfl

end Loop

end SecureWipeOut.Md5sum
