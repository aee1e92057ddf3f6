import SecureWipeOut.Parser.TokenPatchLine

/-! # What the file becomes

Every line is written as it is or with the text replaced in its data, and the bytes of the copy are
those of the lines behind the same byte order mark.
-/
namespace SecureWipeOut.TokenPatch
open CText TextFile TokenFile Search Encodings

section Line
variable {token src rep line : List Char}

theorem skip_eq_drop (s : List Char) : skip s = s.drop (s.takeWhile wspace).length := by
  have hsplit : s.takeWhile wspace ++ s.dropWhile wspace = s := List.takeWhile_append_dropWhile
  calc skip s = (s.takeWhile wspace ++ s.dropWhile wspace).drop (s.takeWhile wspace).length := List.drop_left.symm
    _ = s.drop (s.takeWhile wspace).length := by rw [hsplit]

theorem mem_replaceFirst {n : ℕ} {s : List Char} {c : Char} (h : c ∈ replaceFirst src rep n s) : c ∈ s ∨ c ∈ rep := by
  induction n generalizing s with
  | zero => exact Or.inl h
  | succ n ih =>
    rw [replaceFirst] at h
    split at h
    · exact Or.inl h
    · rcases List.mem_append.mp h with h | h
      · exact Or.inl (List.mem_of_mem_take h)
      · rcases List.mem_append.mp h with h | h
        · exact Or.inr h
        · exact (ih h).imp_left List.mem_of_mem_drop

/-- Where the data of a line begins. -/
structure DataAt (token line : List Char) (m : ℕ) : Prop where
  le : m ≤ line.length
  data : dataOf token line = some (line.drop m)

theorem DataAt.patch {m : ℕ} (h : DataAt token line m) :
    patchLine token src rep line = line.take m ++ replaceFirst src rep maxOccurrences (line.drop m) := by
  have hle := h.le
  have hm : line.length - (line.drop m).length = m := by
    rw [List.length_drop]
    omega
  rw [patchLine,h.data,Option.map_some,Option.getD_some,replaceBehind,hm]

theorem DataAt.hits {m : ℕ} (h : DataAt token line m) (src : List Char) : hits token src line = (find src (line.drop m)).isSome := by
  rw [TokenPatch.hits,h.data]
  rfl

theorem mem_patchLine {c : Char} (h : c ∈ patchLine token src rep line) : c ∈ line ∨ c ∈ rep := by
  unfold patchLine at h
  cases hdata : dataOf token line with
  | none =>
    rw [hdata] at h
    exact Or.inl h
  | some data =>
    rw [hdata] at h
    have hsub : ∀ d ∈ data, d ∈ line := by
      intro d hd
      unfold dataOf behindToken at hdata
      dsimp only at hdata
      split at hdata
      · obtain rfl := Option.some.inj hdata
        rw [skip_eq_drop,skip_eq_drop line] at hd
        exact List.mem_of_mem_drop (List.mem_of_mem_drop (List.mem_of_mem_drop hd))
      · cases hdata
    rcases List.mem_append.mp h with h | h
    · exact Or.inl (List.mem_of_mem_take h)
    · exact (mem_replaceFirst h).imp_left (hsub c)

theorem takeWhile_length_eq_zero (s : List Char) : (s.takeWhile wspace).length = 0 ↔ s.head?.any wspace = false := by
  cases s with
  | nil => exact iff_of_true rfl rfl
  | cons c s =>
    rw [List.takeWhile_cons,List.head?_cons,Option.any_some]
    cases hc : wspace c with
    | true => exact iff_of_false (Nat.succ_ne_zero _) (Bool.noConfusion ·)
    | false => exact iff_of_true rfl rfl

/-- How the code decides about a line: it has another token, no blank behind the token, or data. -/
inductive Decision (token line : List Char) : Prop
  | other : wcsnicmp (cstr line (wcsspn line 0)) token = false → dataOf token line = none → Decision token line
  | joined : wcsnicmp (cstr line (wcsspn line 0)) token = true → wcsspn line (wcsspn line 0 + token.length) = 0 →
      dataOf token line = none → Decision token line
  | data : wcsnicmp (cstr line (wcsspn line 0)) token = true → wcsspn line (wcsspn line 0 + token.length) ≠ 0 →
      DataAt token line (wcsspn line 0 + token.length + wcsspn line (wcsspn line 0 + token.length)) → Decision token line

theorem decision (token line : List Char) (hnul : nul ∉ line) : Decision token line := by
  have hfirst : line.drop (wcsspn line 0) = skip line := (skip_eq_drop line).symm
  have hskip : nul ∉ skip line := fun hmem => hnul (List.mem_of_mem_drop (hfirst ▸ hmem))
  have hcstr : cstr line (wcsspn line 0) = skip line := cstr_drop hfirst hskip
  have hrest : line.drop (wcsspn line 0 + token.length) = (skip line).drop token.length := by
    rw [← List.drop_drop,hfirst]
  have hzero := takeWhile_length_eq_zero ((skip line).drop token.length)
  have hspan : wcsspn line (wcsspn line 0 + token.length) = (((skip line).drop token.length).takeWhile wspace).length := by
    rw [wcsspn,hrest]
  rw [← hspan] at hzero
  cases hcmp : wcsnicmp (skip line) token with
  | false =>
    refine Decision.other (hcstr ▸ hcmp) ?_
    rw [dataOf,behindToken,hcmp]
    rfl
  | true =>
    cases hblank : ((skip line).drop token.length).head?.any wspace with
    | false =>
      refine Decision.joined (hcstr ▸ hcmp) (hzero.mpr hblank) ?_
      rw [dataOf,behindToken,hcmp,hblank]
      rfl
    | true =>
      refine Decision.data (hcstr ▸ hcmp) (fun h => ?_) ⟨?_,?_⟩
      · rw [hzero.mp h] at hblank
        cases hblank
      · have hlen := congrArg List.length (beq_iff_eq.mp hcmp)
        have hle : (((skip line).drop token.length).takeWhile wspace).length ≤ ((skip line).drop token.length).length :=
          (List.takeWhile_prefix _).length_le
        have hall := congrArg List.length hfirst
        rw [List.length_map,List.length_map,List.length_take] at hlen
        rw [← hspan,List.length_drop] at hle
        rw [List.length_drop] at hall
        have hin : wcsspn line 0 ≤ line.length := (List.takeWhile_prefix _).length_le
        omega
      · rw [dataOf,behindToken,hcmp,hblank,← List.drop_drop,hrest,hspan,← skip_eq_drop]
        rfl

end Line

section Lines
variable {mode : Encoding} {token src rep line : List Char} {c : Copy}

theorem write_out {text : List Char} (h : ∀ d ∈ text, fits mode d = true) : (c.write mode text).out = c.out ++ text := by
  change c.out ++ text.takeWhile (fits mode) = _
  rw [List.takeWhile_eq_self_iff.mpr h]

theorem foldl_write {pieces : List (List Char)} (h : ∀ d ∈ pieces.flatten, fits mode d = true) :
    pieces.foldl (Copy.write mode) c = {c with out := c.out ++ pieces.flatten} := by
  induction pieces generalizing c with
  | nil =>
    rw [List.flatten_nil,List.append_nil]
    rfl
  | cons text pieces ih =>
    rw [List.flatten_cons] at h ⊢
    rw [List.foldl_cons,ih fun d hd => h d (List.mem_append_right _ hd),write_out fun d hd => h d (List.mem_append_left _ hd),
      List.append_assoc]
    rfl

/-- What a round of the loop over the lines does. -/
structure Copied (token src rep line : List Char) (c c' : Copy) : Prop where
  out : c'.out = c.out ++ patchLine token src rep line
  ret : c'.ret = (c.ret || hits token src line)
  last : c'.torep maxOccurrences = none

theorem copied_whole (hdata : dataOf token line = none) (hnul : nul ∉ line) (hfits : ∀ d ∈ line, fits mode d = true)
    (hlast : c.torep maxOccurrences = none) : Copied token src rep line c (c.write mode (cstr line 0)) := by
  have hcstr : cstr line 0 = line := cstr_drop rfl hnul
  refine ⟨?_,?_,hlast⟩
  · rw [hcstr,write_out hfits,patchLine,hdata]
    rfl
  · rw [hits,hdata]
    exact (Bool.or_false _).symm

theorem atPlace_start {m : ℕ} {torep : ℕ → Option ℕ} (p : ℕ → ℕ) (hnul : nul ∉ line) (hm : m ≤ line.length)
    (hlast : torep maxOccurrences = none) :
    AtPlace maxOccurrences 0 ⟨line,m,Function.update p 0 0,torep⟩ (line.take m) (line.drop m) := by
  have hzero : Function.update p 0 0 0 = 0 := Function.update_self _ _ _
  refine ⟨?_,?_,fun hmem => hnul (List.mem_of_mem_take hmem),fun hmem => hnul (List.mem_of_mem_drop hmem),hlast⟩
  · change line.drop (Function.update p 0 0 0) = _
    rw [hzero,List.take_append_drop]
    rfl
  · change m = Function.update p 0 0 0 + _
    rw [hzero,List.length_take,Nat.min_eq_left hm,Nat.zero_add]

theorem copyLine_copied (hsrc : src ≠ []) (hnul : nul ∉ line) (hfits : ∀ d ∈ line, fits mode d = true)
    (hrep : ∀ d ∈ rep, fits mode d = true) (hlast : c.torep maxOccurrences = none) :
    Copied token src rep line c (copyLine mode token src rep c line) := by
  unfold copyLine
  dsimp only
  rcases decision token line hnul with ⟨hcmp,hdata⟩ | ⟨hcmp,hjoin,hdata⟩ | ⟨hcmp,hblank,hdata⟩
  · rw [hcmp,if_pos (by decide)]
    exact copied_whole hdata hnul hfits hlast
  · rw [hcmp,if_neg (by decide),if_pos hjoin]
    exact copied_whole hdata hnul hfits hlast
  · rw [hcmp,if_neg (by decide),if_neg hblank]
    generalize wcsspn line 0 + token.length + wcsspn line (wcsspn line 0 + token.length) = m at hdata
    have hplace := atPlace_start c.p hnul hdata.le hlast
    have hwritten := fragments_splitLoop rep hsrc hplace
    have hfound : (splitLoop src maxOccurrences 0 ⟨line,m,Function.update c.p 0 0,c.torep⟩).torep 0 = none ↔
        find src (line.drop m) = none := splitLoop_first hplace
    have hend := (splitLoop_framed src maxOccurrences 0 ⟨line,m,Function.update c.p 0 0,c.torep⟩).torep maxOccurrences (Or.inr le_rfl)
    have hhits := hdata.hits src
    rw [← hdata.patch] at hwritten
    cases hfind : find src (line.drop m) with
    | none =>
      have hsame : patchLine token src rep line = line := by
        rw [hdata.patch,maxOccurrences,replaceFirst,hfind]
        exact List.take_append_drop m line
      have hstop : splitLoop src maxOccurrences 0 ⟨line,m,Function.update c.p 0 0,c.torep⟩ =
          ⟨line,m,Function.update c.p 0 0,Function.update c.torep 0 none⟩ := splitLoop_none (hplace.cstr_i.symm ▸ hfind)
      rw [if_pos (hfound.mpr hfind),hstop]
      have hcstr : cstr line 0 = line := cstr_drop rfl hnul
      refine ⟨?_,?_,?_⟩
      · rw [hcstr,write_out hfits,hsame]
      · rw [hhits,hfind]
        exact (Bool.or_false _).symm
      · have hother : maxOccurrences ≠ 0 := by decide
        change Function.update c.torep 0 none maxOccurrences = none
        rw [Function.update_of_ne hother,hlast]
    | some k =>
      have hall : ∀ d ∈ (fragments rep (splitLoop src maxOccurrences 0 ⟨line,m,Function.update c.p 0 0,c.torep⟩)
          (maxOccurrences + 1) 0).flatten, fits mode d = true := by
        intro d hd
        rw [hwritten] at hd
        exact (mem_patchLine hd).elim (hfits d) (hrep d)
      rw [if_neg (fun hnone => Option.some_ne_none k (hfind.symm.trans (hfound.mp hnone))),foldl_write hall,hwritten]
      refine ⟨rfl,?_,hend.trans hlast⟩
      rw [hhits,hfind]
      exact (Bool.or_true _).symm

/-- What the loop over the lines does. -/
theorem foldl_copyLine (hsrc : src ≠ []) (hrep : ∀ d ∈ rep, fits mode d = true) {ls : List (List Char)}
    (hls : ∀ l ∈ ls, nul ∉ l ∧ ∀ d ∈ l, fits mode d = true) (hlast : c.torep maxOccurrences = none) :
    (ls.foldl (copyLine mode token src rep) c).out = c.out ++ (ls.map (patchLine token src rep)).flatten ∧
      (ls.foldl (copyLine mode token src rep) c).ret = (c.ret || ls.any (hits token src)) := by
  induction ls generalizing c with
  | nil => exact ⟨(List.append_nil _).symm,(Bool.or_false _).symm⟩
  | cons l ls ih =>
    obtain ⟨hnul,hfits⟩ := hls l List.mem_cons_self
    obtain ⟨hout,hret,hnext⟩ := copyLine_copied hsrc hnul hfits hrep hlast
    obtain ⟨hout',hret'⟩ := ih (fun k hk => hls k (List.mem_cons_of_mem _ hk)) hnext
    rw [List.foldl_cons,hout',hret',hout,hret,List.map_cons,List.flatten_cons,List.any_cons,List.append_assoc,Bool.or_assoc]
    exact ⟨rfl,rfl⟩

end Lines

section Streams

theorem load_sublist (s : List Char) : (load s).Sublist s := by
  fun_induction load s with
  | case1 => exact List.Sublist.slnil
  | case2 s ih => exact (ih.cons_cons '\n').cons '\r'
  | case3 c s _ ih => exact ih.cons_cons c

theorem mem_store {s : List Char} {c : Char} (h : c ∈ store s) : c ∈ s ∨ c = '\r' := by
  fun_induction store s with
  | case1 => exact Or.inl h
  | case2 s ih =>
    rcases List.mem_cons.mp h with h | h
    · exact Or.inr h
    rcases List.mem_cons.mp h with h | h
    · exact Or.inl (h ▸ List.mem_cons_self)
    · exact (ih h).imp_left (List.mem_cons_of_mem _)
  | case3 d s _ ih =>
    rcases List.mem_cons.mp h with h | h
    · exact Or.inl (h ▸ List.mem_cons_self)
    · exact (ih h).imp_left (List.mem_cons_of_mem _)

/-- The carriage returns that a stream adds are removed with the others. -/
theorem filter_store (s : List Char) : (store s).filter (· != '\r') = s.filter (· != '\r') := by
  fun_induction store s with
  | case1 => rfl
  | case2 s ih =>
    rw [List.filter_cons_of_neg (by decide),List.filter_cons_of_pos (by decide),List.filter_cons_of_pos (by decide),ih]
  | case3 c s _ ih => rw [List.filter_cons,List.filter_cons,ih]

theorem length_le_wideChars (l : List Char) : l.length ≤ (l.flatMap wideChars).length := by
  induction l with
  | nil => exact le_rfl
  | cons c l ih =>
    have hpos : 0 < (wideChars c).length := by
      unfold wideChars
      split <;> exact Nat.succ_pos _
    rw [List.length_cons,List.flatMap_cons,List.length_append]
    omega

/-- A line with something to replace has a token and the text in its data. -/
theorem two_le_of_hits {token src l : List Char} (htoken : token ≠ []) (hsrc : src ≠ []) (h : hits token src l = true) :
    2 ≤ l.length := by
  unfold hits dataOf behindToken at h
  dsimp only at h
  split at h
  next hcond =>
    obtain ⟨hcmp,-⟩ := Bool.and_eq_true_iff.mp hcond
    obtain ⟨k,hk⟩ := Option.isSome_iff_exists.mp h
    have hdata := (find_eq_some_iff.mp hk).2.1.le_length hsrc
    have htext := congrArg List.length (beq_iff_eq.mp hcmp)
    rw [List.length_map,List.length_map,List.length_take] at htext
    rw [skip_eq_drop,List.length_drop,List.length_drop] at hdata
    have hle : (skip l).length ≤ l.length := by
      rw [skip_eq_drop,List.length_drop]
      omega
    have h1 := List.length_pos_of_ne_nil htoken
    have h2 := List.length_pos_of_ne_nil hsrc
    omega
  · cases h

theorem modeOf_isSome {bytes : List UInt8} (h : 2 ≤ bytes.length) : modeOf bytes ≠ none := by
  unfold modeOf
  split
  · exact Option.some_ne_none _
  · exact Option.some_ne_none _
  · exact Option.some_ne_none _
  next hno =>
    obtain ⟨a,rest,rfl⟩ := List.exists_cons_of_length_pos (show 0 < bytes.length by omega)
    obtain ⟨b,rest,rfl⟩ := List.exists_cons_of_length_pos (show 0 < rest.length by rw [List.length_cons] at h; omega)
    exact absurd rfl (hno a b rest)

end Streams

section Exact
variable (p : Patch)

theorem Patch.mem_lines {p : Patch} {l : List Char} (hl : l ∈ p.lines) {c : Char} (hc : c ∈ l) : c ∈ p.file.text := by
  have hload : c ∈ load p.file.text := by
    rw [← flatten_lines (load p.file.text)]
    exact List.mem_flatten.mpr ⟨l,hl,hc⟩
  exact (load_sublist _).mem hload

/-- The characters of the copy are those of the file and of the new text. -/
theorem Patch.mem_copied {p : Patch} {c : Char} (h : c ∈ (p.lines.map (patchLine p.token p.src p.rep)).flatten) :
    c ∈ p.file.text ∨ c ∈ p.rep := by
  obtain ⟨t,ht,hc⟩ := List.mem_flatten.mp h
  obtain ⟨l,hl,rfl⟩ := List.mem_map.mp ht
  exact (mem_patchLine hc).imp_left (Patch.mem_lines hl)

theorem length_encode_ansi (text : List Char) : (encode .ansi text).length = text.length := by
  induction text with
  | nil => rfl
  | cons c text ih => exact congrArg Nat.succ ih

/-- The encoding is recognized, unless the file is too short to have a token in it. -/
theorem Patch.mode {p : Patch} (h : p.lines.any (hits p.token p.src) = true ∨ modeOf p.file.bytes ≠ none) :
    modeOf p.file.bytes = some p.file.encoding := by
  cases he : p.file.encoding with
  | utf8 =>
    rw [Stored.bytes,he]
    rfl
  | utf16le =>
    rw [Stored.bytes,he]
    rfl
  | ansi =>
    have hsome : modeOf p.file.bytes ≠ none := by
      refine h.elim (fun hany => modeOf_isSome ?_) id
      obtain ⟨l,hl,hhits⟩ := List.any_eq_true.mp hany
      have hline := (List.sublist_flatten_of_mem hl).length_le
      rw [Patch.lines,flatten_lines] at hline
      rw [Stored.bytes,he,length_encode_ansi]
      exact (two_le_of_hits p.token_ne p.src_ne hhits).trans (hline.trans (load_sublist _).length_le)
    obtain ⟨h8,h16⟩ := p.unmarked he
    obtain ⟨mode,hmode⟩ := Option.ne_none_iff_exists'.mp hsome
    cases mode with
    | ansi => exact hmode
    | utf8 => exact absurd hmode h8
    | utf16le => exact absurd hmode h16

theorem Patch.foldl_eq (mode : Encoding) (hmode : mode = p.file.encoding) :
    ((fgets 1024 [] (load p.file.text)).foldl (copyLine mode p.token p.src p.rep) ⟨fun _ => 0,fun _ => none,[],false⟩).out =
        (p.lines.map (patchLine p.token p.src p.rep)).flatten ∧
      ((fgets 1024 [] (load p.file.text)).foldl (copyLine mode p.token p.src p.rep) ⟨fun _ => 0,fun _ => none,[],false⟩).ret =
        p.lines.any (hits p.token p.src) := by
  subst hmode
  have hlines : fgets 1024 [] (load p.file.text) = p.lines :=
    fgets_eq_lines List.not_mem_nil fun l hl => (length_le_wideChars l).trans_lt (p.short l hl)
  rw [hlines]
  refine foldl_copyLine p.src_ne p.rep_fits (fun l hl => ⟨fun hnul => ?_,fun d hd => ?_⟩) rfl
  · exact p.isText.1 (Patch.mem_lines hl hnul)
  · exact p.file_fits d (Patch.mem_lines hl hd)

/-- The bytes of the copy behind the last pass. -/
theorem Patch.dropUnits_eq : dropUnits (unitSize p.file.encoding) (fun b => p.dos2unix && b == cr)
    (encode p.file.encoding (store (p.lines.map (patchLine p.token p.src p.rep)).flatten)) = encode p.file.encoding p.result := by
  unfold Patch.result
  dsimp only
  cases hdos : p.dos2unix with
  | false =>
    simp only [Bool.false_and]
    rw [dropUnits_encode_none,if_neg Bool.false_ne_true]
  | true =>
    simp only [Bool.true_and]
    rw [if_pos trivial,← filter_store]
    refine dropUnits_encode (fun c hc => ?_) fun he c hc => ?_
    · rcases mem_store hc with hc | rfl
      · exact (Patch.mem_copied hc).elim (p.file_fits c) (p.rep_fits c)
      · cases p.file.encoding <;> decide
    · rcases mem_store hc with hc | rfl
      · exact p.plain he hdos c (Patch.mem_copied hc)
      · exact Or.inl rfl

/-- When a line has the text in the data of the token, the file becomes the text with the first
occurrences replaced in each such line; else it is left as it is. -/
theorem replaceInTokenData_eq : replaceInTokenData p.file p.token p.src p.rep p.dos2unix =
    if p.lines.any (hits p.token p.src) then some (encode p.file.encoding p.result) else none := by
  have hargs : ¬(p.token.isEmpty || p.src.isEmpty || p.src == p.rep) = true := by
    simp [p.token_ne,p.src_ne,p.src_ne_rep]
  rw [replaceInTokenData,if_neg hargs]
  by_cases hmode : modeOf p.file.bytes = none
  · have hany : ¬p.lines.any (hits p.token p.src) = true := fun hany => by
      have hsome := Patch.mode (Or.inl hany)
      rw [hmode] at hsome
      cases hsome
    rw [hmode,if_neg hany]
    rfl
  · rw [Patch.mode (Or.inr hmode)]
    obtain ⟨hout,hret⟩ := p.foldl_eq p.file.encoding rfl
    rw [Option.bind_some]
    dsimp only
    rw [hout,hret,p.dropUnits_eq]

/-- A keyword is added to the options of a kernel. -/
def addedKeyword : Patch where
  file := ⟨.utf16le,"  Append boot=casper quiet\r\n".toList⟩
  token := "append".toList
  src := "boot=casper".toList
  rep := "boot=casper persistent".toList
  dos2unix := true
  token_ne := by decide
  src_ne := by decide
  src_ne_rep := by decide
  isText := by decide
  short := by decide
  unmarked he := nomatch he
  file_fits _ _ := rfl
  rep_fits _ _ := rfl
  plain _ _ c hc := by
    have hall : ("  Append boot=casper quiet\r\n".toList ++ "boot=casper persistent".toList).all (fun c => decide (Plain c)) = true := by
      decide
    exact of_decide_eq_true (List.all_eq_true.mp hall c (List.mem_append.mpr hc))

example : addedKeyword.result = "  Append boot=casper persistent quiet\n".toList := by decide

/-- A file in which nothing is replaced keeps its carriage returns, the blanks behind the token are
no part of the data, and the line feeds of a copy whose carriage returns are kept are stored with
one. -/
theorem replaceInTokenData_keeps : ¬ReplacesOnly ⟨.ansi,"a\r\n".toList⟩ ['t'] ['x'] ['y'] true ∧
    ¬ReplacesOnly ⟨.ansi,"t x\n".toList⟩ ['t'] [' ','x'] ['y'] true ∧
    ¬ReplacesOnly ⟨.ansi,"t x\n".toList⟩ ['t'] ['x'] ['y'] false := by
  have hcopy : replaceInTokenData ⟨.ansi,"t x\n".toList⟩ ['t'] ['x'] ['y'] false =
      some (dropUnits (unitSize .ansi) (fun _ => false) (encode .ansi "t y\r\n".toList)) := by rfl
  refine ⟨?_,?_,?_⟩
  · unfold ReplacesOnly
    decide
  · unfold ReplacesOnly
    decide
  · unfold ReplacesOnly after
    rw [hcopy,dropUnits_encode_none]
    decide

end Exact

end SecureWipeOut.TokenPatch
