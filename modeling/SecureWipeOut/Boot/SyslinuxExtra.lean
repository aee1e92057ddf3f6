import SecureWipeOut.Boot.SyslinuxScan

/-! # The extra version

The comparison runs over the version, the slash and what has been compared already. What is left
of the string behind the part that it passes is trimmed at the end and freed of the characters
that no name may have.
-/
namespace SecureWipeOut.SyslinuxVersion
open CText

/-- The number of characters that agree, up to the first blank. -/
def matching : List Char → List Char → ℕ
  | a :: as,b :: bs => if a = b ∧ a ≠ ' ' then matching as bs + 1 else 0
  | _,_ => 0

section parts
variable (buf : Buf) (i q : ℕ)

/-- What stands behind the character that ends the version. -/
def behind : List Char := buf.drop (q + 1)

/-- The number of characters behind the version that repeat it, the slash included. -/
def repeated : ℕ := matching ((buf.drop i).take (q - i) ++ '/' :: behind buf q) (behind buf q)

/-- The same with a dash behind them. -/
def withDash : ℕ :=
  if (behind buf q).getD (repeated buf i q) nul = '-' then repeated buf i q + 1
  else repeated buf i q

/-- How much of it is passed over. -/
def passed : ℕ := if 4 ≤ withDash buf i q then withDash buf i q else 0

/-- The string behind that, without the blanks and stars at its end. -/
def extraText : List Char :=
  (cstr buf (q + 1 + passed buf i q)).rdropWhile isTail

end parts

section compare
variable {buf : Buf} {bufSize i p : ℕ}

theorem dupLoop_eq (hlength : buf.length = bufSize + 1) (hi : i ≤ p) {fuel j : ℕ}
    (hfuel : bufSize + 1 ≤ p + j + fuel) :
    dupLoop bufSize buf i p fuel j =
      if matching (buf.drop (i + j)) (buf.drop (p + 1 + j)) < (buf.drop (p + 1 + j)).length then
        some (j + matching (buf.drop (i + j)) (buf.drop (p + 1 + j)))
      else none := by
  induction fuel generalizing j with
  | zero =>
    have hnil : buf.drop (p + 1 + j) = [] := List.drop_eq_nil_iff.mpr (by omega)
    rw [dupLoop,hnil,List.length_nil,if_neg (Nat.not_lt_zero _)]
  | succ fuel ih =>
    rw [dupLoop]
    split
    · next hbehind =>
      have hnil : buf.drop (p + 1 + j) = [] := List.drop_eq_nil_iff.mpr (by omega)
      rw [hnil,List.length_nil,if_neg (Nat.not_lt_zero _)]
    · next hinside =>
      have hright := List.drop_eq_getElem_cons (l := buf) (i := p + 1 + j) (by omega)
      have hleft := List.drop_eq_getElem_cons (l := buf) (i := i + j) (by omega)
      rw [charAt_of_drop hright,charAt_of_drop hleft,hright,hleft,matching]
      split
      · rw [ih (by omega),List.length_cons,← Nat.add_assoc i,← Nat.add_assoc (p + 1)]
        simp only [Nat.add_lt_add_iff_right]
        split
        · congr 1
          omega
        · rfl
      · rw [if_pos (by rw [List.length_cons]; omega),Nat.add_zero]

end compare

section strings
variable {head post s : List Char}

theorem cstr_slash (hs : nul ∉ s) :
    cstr (head ++ '/' :: s ++ nul :: post) head.length = '/' :: s := by
  have hdrop : (head ++ '/' :: s ++ nul :: post).drop head.length = ('/' :: s) ++ nul :: post := by
    rw [List.append_assoc,List.drop_left]
  have hnul : nul ∉ '/' :: s := by
    rw [List.mem_cons,not_or]
    exact ⟨by decide,hs⟩
  exact cstr_eq hdrop hnul (by simp)

theorem strlen_slash (hs : nul ∉ s) :
    strlen (head ++ '/' :: s ++ nul :: post) head.length = s.length + 1 := by
  rw [strlen,cstr_slash hs]
  rfl

theorem cstr_behind (hs : nul ∉ s) :
    cstr (head ++ '/' :: s ++ nul :: post) (head.length + 1) = s := by
  have hdrop : (head ++ '/' :: s ++ nul :: post).drop (head.length + 1) = s ++ nul :: post := by
    rw [← List.drop_drop,List.append_assoc,List.drop_left]
    rfl
  exact cstr_eq hdrop hs (by simp)

theorem trimLoop_eq (head s post : List Char) : ∃ post',
    trimLoop head.length s.length (head ++ '/' :: s ++ nul :: post) =
      head ++ '/' :: s.rdropWhile isTail ++ nul :: post' := by
  induction s using List.reverseRecOn generalizing post with
  | nil => exact ⟨post,rfl⟩
  | append_singleton t c ih =>
    have hsplit : head ++ '/' :: (t ++ [c]) ++ nul :: post = (head ++ '/' :: t) ++ c :: nul :: post := by
      simp
    have hindex : head.length + (t.length + 1) = (head ++ '/' :: t).length := by simp
    rw [List.length_append,List.length_singleton,trimLoop,hindex,hsplit,charAt_append]
    cases hc : isTail c with
    | true =>
      have hset : ((head ++ '/' :: t) ++ c :: nul :: post).set (head ++ '/' :: t).length nul =
          head ++ '/' :: t ++ nul :: nul :: post := by simp
      obtain ⟨post',hpost⟩ := ih (nul :: post)
      rw [if_pos rfl,hset,List.rdropWhile_concat_pos _ _ _ hc]
      exact ⟨post',hpost⟩
    | false =>
      rw [if_neg Bool.false_ne_true,List.rdropWhile_concat_neg _ _ _ (by rw [hc]; exact Bool.false_ne_true)]
      exact ⟨post,by simp⟩

theorem foldl_replace {us : List Char} (hus : '_' ∉ us) {buf : Buf} {x : ℕ} (hx : x < buf.length) :
    us.foldl (fun buf u => if charAt buf x = u then buf.set x '_' else buf) buf =
      if us.contains (charAt buf x) then buf.set x '_' else buf := by
  induction us generalizing buf with
  | nil => simp
  | cons u us ih =>
    rw [List.mem_cons,not_or] at hus
    rw [List.foldl_cons]
    by_cases hu : charAt buf x = u
    · have hset : charAt (buf.set x '_') x = '_' := by
        simp [charAt,List.getD_eq_getElem?_getD,hx]
      rw [if_pos hu,ih hus.2 (by rwa [List.length_set]),hset,if_neg,if_pos]
      · simp [hu]
      · simpa using hus.2
    · rw [if_neg hu,ih hus.2 hx]
      simp [hu]

theorem replaceAt_eq (c : Char) (rest : List Char) (j : ℕ) {done : List Char}
    (hj : j = done.length + 1) :
    replaceAt head.length j (head ++ '/' :: done ++ c :: rest) =
      head ++ '/' :: done ++ clean c :: rest := by
  have hindex : head.length + j = (head ++ '/' :: done).length := by
    rw [List.length_append,List.length_cons,hj]
  rw [replaceAt,hindex,foldl_replace (by decide) (by simp),charAt_append,clean]
  split
  · simp
  · rfl

theorem clean_ne_nul {c : Char} (h : c ≠ nul) : clean c ≠ nul := by
  rw [clean]
  split
  · decide
  · exact h

theorem sanitizeLoop_eq (head post done todo : List Char) (fuel j : ℕ) (hdone : nul ∉ done)
    (htodo : nul ∉ todo) (hfuel : todo.length ≤ fuel) (hj : j = done.length + 1) :
    sanitizeLoop head.length fuel j (head ++ '/' :: (done ++ todo) ++ nul :: post) =
      head ++ '/' :: (done ++ todo.map clean) ++ nul :: post := by
  induction todo generalizing done fuel j with
  | nil =>
    cases fuel with
    | zero => rfl
    | succ fuel =>
      rw [sanitizeLoop,strlen_slash (by simpa using hdone),if_neg (by rw [List.append_nil]; omega)]
      rfl
  | cons c todo ih =>
    obtain ⟨fuel,rfl⟩ := Nat.exists_eq_add_of_le' (Nat.one_le_of_lt hfuel)
    rw [List.mem_cons,not_or] at htodo
    have hnul : nul ∉ done ++ c :: todo := by
      rw [List.mem_append,List.mem_cons,not_or,not_or]
      exact ⟨hdone,htodo⟩
    have hdone' : nul ∉ done ++ [clean c] := by
      rw [List.mem_append,List.mem_singleton,not_or]
      exact ⟨hdone,fun h => clean_ne_nul (Ne.symm htodo.1) h.symm⟩
    have hsplit : head ++ '/' :: (done ++ c :: todo) ++ nul :: post =
        head ++ '/' :: done ++ c :: (todo ++ nul :: post) := by simp
    have hjoin : head ++ '/' :: done ++ clean c :: (todo ++ nul :: post) =
        head ++ '/' :: ((done ++ [clean c]) ++ todo) ++ nul :: post := by simp
    rw [sanitizeLoop,strlen_slash hnul,if_pos (by rw [List.length_append,List.length_cons]; omega),
      hsplit,replaceAt_eq c _ j hj,hjoin,
      ih _ fuel _ hdone' htodo.2 (Nat.le_of_succ_le_succ hfuel) (by rw [List.length_append,hj]; rfl)]
    simp

theorem nul_notMem_clean (hs : nul ∉ s) : nul ∉ s.map clean := by
  intro hmem
  obtain ⟨c,hc,hzero⟩ := List.mem_map.mp hmem
  exact clean_ne_nul (fun hcnul => hs (hcnul ▸ hc)) hzero

theorem nul_notMem_trimmed (hs : nul ∉ s) : nul ∉ s.rdropWhile isTail :=
  fun hmem => hs ((List.rdropWhile_prefix isTail s).subset hmem)

/-- What both loops make of the text behind the slash. -/
theorem tidy_eq (head post : List Char) (hs : nul ∉ s) :
    let trimmed := trimLoop head.length (strlen (head ++ '/' :: s ++ nul :: post) head.length - 1)
      (head ++ '/' :: s ++ nul :: post)
    ∃ post', sanitizeLoop head.length (strlen trimmed head.length) 1 trimmed =
      head ++ '/' :: (s.rdropWhile isTail).map clean ++ nul :: post' := by
  intro trimmed
  obtain ⟨post',htrim⟩ := trimLoop_eq head s post
  have hs' := nul_notMem_trimmed hs
  have htrimmed : trimmed = head ++ '/' :: s.rdropWhile isTail ++ nul :: post' := by
    change trimLoop _ _ _ = _
    rw [strlen_slash hs,Nat.add_sub_cancel,htrim]
  have hloop := sanitizeLoop_eq head post' [] (s.rdropWhile isTail)
    ((s.rdropWhile isTail).length + 1) 1 List.not_mem_nil hs' (Nat.le_succ _) rfl
  rw [List.nil_append,List.nil_append] at hloop
  exact ⟨post',by rw [htrimmed,strlen_slash hs',hloop]⟩

/-- The string behind the slash is empty when the first character behind it is the NUL. -/
theorem charAt_behind (hs : nul ∉ s) :
    charAt (head ++ '/' :: s ++ nul :: post) (head.length + 1) = nul ↔ s = [] := by
  have hchar : charAt (head ++ '/' :: s ++ nul :: post) (head.length + 1) =
      (s ++ nul :: post).getD 0 nul := by
    rw [charAt_add,List.append_assoc,List.drop_left]
    rfl
  rw [hchar]
  cases s with
  | nil => exact iff_of_true rfl rfl
  | cons c s => exact iff_of_false (fun hc => hs (List.mem_cons.mpr (Or.inl hc.symm))) (List.cons_ne_nil c s)

end strings

section extra
variable {data : List Char} {i q : ℕ}

theorem exists_terminator {x : ℕ} (hx : x ≤ data.length) : ∃ post,
    (terminated data).drop x = cstr (terminated data) x ++ nul :: post := by
  have hmem : nul ∈ (terminated data).drop x := by
    rw [terminated,List.drop_append_of_le_length hx]
    exact List.mem_append_right _ (List.mem_singleton_self nul)
  have hsplit := List.takeWhile_append_dropWhile (p := fun c => c != nul) (l := (terminated data).drop x)
  cases hrest : ((terminated data).drop x).dropWhile fun c => c != nul with
  | nil =>
    have hall := List.dropWhile_eq_nil_iff.mp hrest nul hmem
    simp at hall
  | cons c post =>
    have hhead := List.head?_dropWhile_not (fun c => c != nul) ((terminated data).drop x)
    rw [hrest] at hhead hsplit
    obtain rfl : c = nul := by simpa using hhead
    exact ⟨post,hsplit.symm⟩

theorem nul_notMem_cstr (buf : Buf) (x : ℕ) : nul ∉ cstr buf x := fun h => by
  simpa using List.mem_takeWhile_imp h

theorem length_behind (hq : q ≤ data.length) : (behind (terminated data) q).length = data.length - q := by
  rw [behind,List.length_drop,length_terminated]
  omega

/-- What is passed over lies ahead of the last NUL. -/
theorem passed_lt (hq : q ≤ data.length)
    (h : repeated (terminated data) i q < (behind (terminated data) q).length) :
    q + 1 + passed (terminated data) i q ≤ data.length := by
  have hlength := length_behind hq
  have hlast : repeated (terminated data) i q + 1 = data.length - q →
      (behind (terminated data) q).getD (repeated (terminated data) i q) nul = nul := by
    intro hend
    have hindex : q + 1 + repeated (terminated data) i q = data.length := by omega
    have hchar := charAt_add (terminated data) (q + 1) (repeated (terminated data) i q)
    rw [hindex,charAt_terminated] at hchar
    exact hchar.symm
  have hdashed : q + 1 + withDash (terminated data) i q ≤ data.length := by
    rw [withDash]
    split
    · next hdash =>
      by_contra hlong
      rw [hlast (by omega)] at hdash
      exact absurd hdash (by decide)
    · omega
  rw [passed]
  split
  · exact hdashed
  · omega

theorem set_slash {buf : Buf} (hq : q < buf.length) :
    buf.set q '/' = buf.take q ++ '/' :: buf.drop (q + 1) := by
  rw [List.set_eq_take_append_cons_drop,if_pos hq]

theorem drop_set_slash {buf : Buf} (hi : i ≤ q) (hq : q < buf.length) :
    (buf.set q '/').drop i = (buf.drop i).take (q - i) ++ '/' :: behind buf q := by
  rw [set_slash hq,List.drop_append_of_le_length,List.drop_take]
  · rfl
  · rw [List.length_take]
    omega

theorem dupLoop_slash (hi : i ≤ q) (hq : q ≤ data.length) :
    dupLoop data.length ((terminated data).set q '/') i q (data.length + 1) 0 =
      if repeated (terminated data) i q < (behind (terminated data) q).length then
        some (repeated (terminated data) i q)
      else none := by
  have hlt : q < (terminated data).length := by
    rw [length_terminated]
    omega
  have hbehind : ((terminated data).set q '/').drop (q + 1) = behind (terminated data) q :=
    List.drop_set_of_lt (Nat.lt_succ_self q)
  rw [dupLoop_eq (by rw [List.length_set,length_terminated]) hi (by omega),Nat.add_zero,Nat.add_zero,
    drop_set_slash hi hlt,hbehind,Nat.zero_add]
  rfl

theorem extraVersion_outside (version : ℕ) (hi : i ≤ q) (hq : q ≤ data.length)
    (h : (behind (terminated data) q).length ≤ repeated (terminated data) i q) :
    extraVersion data.length (terminated data) i q version = .outOfBounds := by
  rw [extraVersion,dupLoop_slash hi hq,if_neg (Nat.not_lt.mpr h)]

/-- The buffer when the slash has its place, as far as that and behind it. -/
theorem exists_slash {k : ℕ} (hk : q + 1 + k ≤ data.length) :
    ∃ head : List Char, head.length = q + k ∧
      ((terminated data).set q '/').set (q + k) '/' = head ++ '/' :: (terminated data).drop (q + 1 + k) := by
  have hlt : q + k < ((terminated data).set q '/').length := by
    rw [List.length_set,length_terminated]
    omega
  refine ⟨((terminated data).set q '/').take (q + k),?_,?_⟩
  · rw [List.length_take]
    omega
  · rw [set_slash hlt,List.drop_set_of_lt (by omega)]
    congr 3
    omega

theorem extraVersion_inside (version : ℕ) (hi : i ≤ q) (hq : q ≤ data.length)
    (h : repeated (terminated data) i q < (behind (terminated data) q).length) :
    ∃ buf', extraVersion data.length (terminated data) i q version =
        .returned version
          (if extraText (terminated data) i q = [] then none
            else some (q + passed (terminated data) i q)) buf' ∧
      charAt buf' (q + passed (terminated data) i q) = '/' ∧
      cstr buf' (q + passed (terminated data) i q + 1) = (extraText (terminated data) i q).map clean := by
  have hpassed := passed_lt hq h
  have hdash : charAt ((terminated data).set q '/') (q + repeated (terminated data) i q + 1) =
      (behind (terminated data) q).getD (repeated (terminated data) i q) nul := by
    have hindex : q + repeated (terminated data) i q + 1 = q + 1 + repeated (terminated data) i q := by
      omega
    rw [hindex,charAt_add,List.drop_set_of_lt (Nat.lt_succ_self q)]
    rfl
  have hplace : (if 4 ≤ withDash (terminated data) i q then
      ((terminated data).set q '/').set (q + withDash (terminated data) i q) '/'
      else (terminated data).set q '/') =
      ((terminated data).set q '/').set (q + passed (terminated data) i q) '/' := by
    rw [passed]
    split
    · rfl
    · rw [Nat.add_zero,List.set_set]
  have hindex : (if 4 ≤ withDash (terminated data) i q then q + withDash (terminated data) i q else q) =
      q + passed (terminated data) i q := by
    rw [passed]
    split <;> rfl
  rw [extraVersion,dupLoop_slash hi hq,if_pos h]
  dsimp only
  rw [hdash,← withDash]
  rw [hplace,hindex]
  obtain ⟨head,hhead,hbuf⟩ := exists_slash hpassed
  obtain ⟨post,hpost⟩ := exists_terminator hpassed
  have hnul := nul_notMem_cstr (terminated data) (q + 1 + passed (terminated data) i q)
  have htext : extraText (terminated data) i q =
      (cstr (terminated data) (q + 1 + passed (terminated data) i q)).rdropWhile isTail := rfl
  rw [hbuf,hpost,htext,← hhead]
  generalize cstr (terminated data) (q + 1 + passed (terminated data) i q) = s at hnul
  have hsplit : head ++ '/' :: (s ++ nul :: post) = head ++ '/' :: s ++ nul :: post := by simp
  have hinside : ¬ nul ∉ (head ++ '/' :: s ++ nul :: post).drop head.length := by
    rw [List.append_assoc,List.drop_left,not_not]
    exact List.mem_append_right _ List.mem_cons_self
  have hclean := nul_notMem_clean (nul_notMem_trimmed hnul)
  obtain ⟨post',htidy⟩ := tidy_eq head post hnul
  rw [hsplit,if_neg hinside]
  refine ⟨head ++ '/' :: (s.rdropWhile isTail).map clean ++ nul :: post',?_,?_,cstr_behind hclean⟩
  · simp only [htidy,charAt_behind hclean,List.map_eq_nil_iff]
  · rw [List.append_assoc]
    exact charAt_append head '/' _

end extra

end SecureWipeOut.SyslinuxVersion
