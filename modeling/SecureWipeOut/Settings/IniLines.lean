import SecureWipeOut.Settings.Backends
import SecureWipeOut.Parser.TokenLine
import Mathlib

/-! # The lines of a settings file

A file that only the settings have written has a line `key = data` for each key. On such a file
the writer replaces the data of one line or appends one, and the reader finds the data of the
line of its key.
-/
namespace SecureWipeOut.Settings
open CText TextFile TokenFile

/-- A key that the reader and the writer find at the beginning of its line, and in no other. -/
structure IsKey (key : List Char) : Prop where
  nonempty : key ≠ []
  signs : '=' ∉ key ∧ '>' ∉ key
  oneLine : '\r' ∉ key ∧ '\n' ∉ key
  head : ∀ c ∈ key.head?, wspace c = false ∧ c ≠ ';' ∧ c ≠ '[' ∧ c ≠ '<'
  last : ∀ c ∈ key.getLast?, wspace c = false
  ansi : ∀ c ∈ key, c ≠ nul ∧ c ≠ ctrlZ ∧ c.toNat < 256

/-- Data that the reader returns as it has been written. -/
structure IsData (data : List Char) : Prop where
  nonempty : data ≠ []
  oneLine : '\r' ∉ data ∧ '\n' ∉ data
  head : ∀ c ∈ data.head?, wspace c = false ∧ c ≠ '"'
  ansi : ∀ c ∈ data, c ≠ nul ∧ c ≠ ctrlZ ∧ c.toNat < 256

def fold (key : List Char) : List Char := key.map Char.toLower

section Lines

theorem of_toLower {c : Char} : (c.toLower = '=' → c = '=') ∧ (c.toLower = ' ' → c = ' ') := by
  by_cases hc : c.toNat < 128
  · have h : ∀ n < 128, ((Char.ofNat n).toLower = '=' → Char.ofNat n = '=') ∧
        ((Char.ofNat n).toLower = ' ' → Char.ofNat n = ' ') := by decide
    simpa using h c.toNat hc
  · have hup : ¬(c.val ≥ 'A'.val ∧ c.val ≤ 'Z'.val) := by
      rintro ⟨-,h⟩
      have hle : c.toNat ≤ 90 := UInt32.le_iff_toNat_le.mp h
      omega
    rw [Char.toLower,dif_neg hup]
    exact ⟨id,id⟩

variable {t k d : List Char}

theorem IsKey.head_append (hk : IsKey k) (s : List Char) :
    ∀ c ∈ (k ++ s).head?, wspace c = false ∧ c ≠ ';' ∧ c ≠ '[' ∧ c ≠ '<' := by
  intro c hc
  rw [List.head?_append_of_ne_nil _ hk.nonempty] at hc
  exact hk.head c hc

theorem newLine_eq (k d : List Char) : newLine k d = k ++ (' ' :: '=' :: ' ' :: (d ++ ['\n'])) := by
  simp [newLine]

/-- What follows the match of a token with the beginning of a line. -/
theorem skip_drop_of_match (ht : IsKey t) (hk : IsKey k) (h : wcsnicmp (newLine k d) t = true) :
    (fold t = fold k ∧ skip ((newLine k d).drop t.length) = '=' :: ' ' :: (d ++ ['\n'])) ∨
      (fold t ≠ fold k ∧ ∃ c s, skip ((newLine k d).drop t.length) = c :: s ∧ c ≠ '=' ∧ c ≠ '>') := by
  rw [wcsnicmp_iff,newLine_eq] at h
  rw [newLine_eq]
  rcases lt_trichotomy t.length k.length with hlt | heq | hgt
  · have hdrop : k.drop t.length ≠ [] := by simpa using hlt
    have hlast : ∀ c ∈ (k.drop t.length).getLast?, wspace c = false := by
      intro c hc
      refine hk.last c ?_
      rwa [List.getLast?_drop,if_neg (by omega)] at hc
    refine Or.inr ⟨fun hfold => ?_,?_⟩
    · have := congrArg List.length hfold
      simp only [fold,List.length_map] at this
      omega
    · obtain ⟨b,hb,hw⟩ := exists_blanks (k.drop t.length)
      cases hs : skip (k.drop t.length) with
      | nil =>
        have hblank := List.dropWhile_eq_nil_iff.mp hs _ (List.getLast_mem hdrop)
        rw [hlast _ (List.getLast?_eq_some_getLast hdrop)] at hblank
        cases hblank
      | cons c s =>
        have hmem : c ∈ k := by
          apply List.mem_of_mem_drop (i := t.length)
          rw [hw,hs]
          exact List.mem_append_right b List.mem_cons_self
        have hc := head?_skip (k.drop t.length)
        rw [hs,List.head?_cons] at hc
        refine ⟨c,s ++ ' ' :: '=' :: ' ' :: (d ++ ['\n']),?_,fun h => hk.signs.1 (h ▸ hmem),
          fun h => hk.signs.2 (h ▸ hmem)⟩
        rw [List.drop_append_of_le_length hlt.le,hw,hs,List.append_assoc,skip_blanks hb]
        exact skip_of_head hc
  · rw [heq,List.take_left] at h
    refine Or.inl ⟨h.symm,?_⟩
    rw [heq,List.drop_left]
    rfl
  · -- The blank and the sign behind the key are no part of another key.
    exfalso
    have hat : ∀ i, i < t.length → (t[i]?).map Char.toLower =
        ((k ++ ' ' :: '=' :: ' ' :: (d ++ ['\n']))[i]?).map Char.toLower := by
      intro i hi
      have hi' := congrArg (fun l => l[i]?) h
      simp only [List.getElem?_map,List.getElem?_take_of_lt hi] at hi'
      exact hi'.symm
    rcases Nat.lt_or_eq_of_le (Nat.succ_le_of_lt hgt) with hlong | hone
    · have hsign := hat (k.length + 1) hlong
      rw [List.getElem?_append_right (by omega),Nat.add_sub_cancel_left] at hsign
      obtain ⟨c,hc,hlow⟩ := Option.map_eq_some_iff.mp hsign
      rw [of_toLower.1 hlow] at hc
      exact ht.signs.1 (List.mem_of_getElem? hc)
    · have hblank := hat k.length hgt
      rw [List.getElem?_append_right le_rfl,Nat.sub_self] at hblank
      obtain ⟨c,hc,hlow⟩ := Option.map_eq_some_iff.mp hblank
      rw [of_toLower.2 hlow] at hc
      have hlast := ht.last ' ' (by rw [List.getLast?_eq_getElem?,← hone,Nat.succ_sub_one]; exact hc)
      exact absurd hlast (by decide)

theorem dataField_line (hd : IsData d) : dataField false (' ' :: (d ++ ['\n'])) = some d := by
  obtain ⟨c,s,rfl⟩ := List.exists_cons_of_ne_nil hd.nonempty
  obtain ⟨hblank,hquote⟩ := hd.head c rfl
  have hskip : skip (' ' :: (c :: s ++ ['\n'])) = c :: s ++ ['\n'] := by
    rw [skip,List.dropWhile_cons_of_pos rfl]
    exact skip_of_head (by simpa using hblank)
  have hfield : dataField false (' ' :: (c :: s ++ ['\n'])) = dataText false false (c :: s ++ ['\n']) := by
    rw [dataField,hskip]
    split
    next h => exact absurd (List.cons.inj h).1 hquote
    next => rfl
  have hall : (c :: s ++ ['\n']).takeWhile (inData false false) = c :: s ++ ['\n'] := by
    apply List.takeWhile_eq_self_iff.mpr
    intro x _
    by_cases h1 : x = '"' <;> by_cases h2 : x = '<' <;> simp [inData,h1,h2]
  have hend : (c :: s ++ ['\n']).rdropWhile isEol = c :: s := by
    rw [rdropWhile_append_of_all (by simp [isEol])]
    apply List.rdropWhile_eq_self_iff.mpr
    intro hl h
    have hmem := List.getLast_mem hl
    rcases (by simpa [isEol] using h : (c :: s).getLast hl = '\r' ∨ (c :: s).getLast hl = '\n') with h | h
    · exact hd.oneLine.1 (h ▸ hmem)
    · exact hd.oneLine.2 (h ▸ hmem)
  rw [hfield,dataText,hall,hend,if_neg (by simp)]

theorem skip_newLine (hk : IsKey k) (d : List Char) : skip (newLine k d) = newLine k d := by
  apply skip_of_head
  rw [newLine_eq]
  exact fun c hc => (hk.head_append _ c hc).1

theorem match_of_fold (h : fold t = fold k) (d : List Char) : wcsnicmp (newLine k d) t = true := by
  have hlen := congrArg List.length h
  simp only [fold,List.length_map] at hlen
  rw [wcsnicmp_iff,newLine_eq,hlen,List.take_left]
  exact h.symm

theorem getTokenDataLine_newLine (ht : IsKey t) (hk : IsKey k) (hd : IsData d) :
    getTokenDataLine t (newLine k d) = if fold t = fold k then some d else none := by
  have hopen : skipOpening (newLine k d) = newLine k d := by
    rw [skipOpening_of_ne,skip_newLine hk]
    rw [skip_newLine hk,newLine_eq]
    exact fun h => (hk.head_append _ _ h).2.2.2 rfl
  rw [getTokenDataLine,hopen]
  by_cases hmatch : wcsnicmp (newLine k d) t = true
  · rw [if_pos hmatch]
    rcases skip_drop_of_match ht hk hmatch with ⟨hfold,hskip⟩ | ⟨hfold,c,s,hskip,heq,hgt⟩
    · rw [hskip,if_pos hfold]
      exact dataField_line hd
    · rw [hskip,if_neg hfold,signedField]
      · exact fun _ h => hgt (List.cons.inj h).1
      · exact fun _ h => heq (List.cons.inj h).1
  · rw [if_neg hmatch,if_neg fun hfold => hmatch (match_of_fold hfold d)]

theorem keptOf_newLine (ht : IsKey t) (hk : IsKey k) (hd : IsData d) :
    keptOf t (newLine k d) = if fold t = fold k then some (k ++ [' ','=',' ']) else none := by
  have hplain : ¬((newLine k d).head? = some ';' ∨ (newLine k d).head? = some '[') := by
    rw [newLine_eq]
    rintro (h | h)
    · exact (hk.head_append _ _ h).2.1 rfl
    · exact (hk.head_append _ _ h).2.2.1 rfl
  rw [keptOf,skip_newLine hk,if_neg hplain]
  by_cases hmatch : wcsnicmp (newLine k d) t = true
  · rw [if_pos hmatch]
    rcases skip_drop_of_match ht hk hmatch with ⟨hfold,hskip⟩ | ⟨hfold,c,s,hskip,heq,-⟩
    · have hdata : skip (' ' :: (d ++ ['\n'])) = d ++ ['\n'] := by
        rw [skip,List.dropWhile_cons_of_pos rfl]
        apply skip_of_head
        rw [List.head?_append_of_ne_nil _ hd.nonempty]
        exact fun c hc => (hd.head c hc).1
      rw [hskip,if_pos hfold]
      simp only [hdata]
      exact congrArg some (take_of_append (by simp [newLine]))
    · rw [hskip,if_neg hfold]
      split
      next h => exact absurd (List.cons.inj h).1 heq
      next => rfl
  · rw [if_neg hmatch,if_neg fun hfold => hmatch (match_of_fold hfold d)]

end Lines

section Files

structure IsEntry (e : List Char × List Char) : Prop where
  key : IsKey e.1
  data : IsData e.2
  short : e.1.length + e.2.length + 4 < 1024

def lineOf (e : List Char × List Char) : List Char := newLine e.1 e.2

/-- The file with these entries. -/
def fileOf (entries : List (List Char × List Char)) : List Char := store (entries.map lineOf).flatten

def dataOf (entries : List (List Char × List Char)) (key : List Char) : Option (List Char) :=
  (entries.find? fun e => fold key == fold e.1).map Prod.snd

def setEntry (key data : List Char) (entries : List (List Char × List Char)) : List (List Char × List Char) :=
  if entries.any fun e => fold key == fold e.1 then
    entries.map fun e => if fold key = fold e.1 then (e.1,data) else e
  else entries ++ [(key,data)]

variable {entries : List (List Char × List Char)} {key data : List Char}

theorem lineOf_terminated {e : List Char × List Char} (h : IsEntry e) : Terminated (lineOf e) := by
  refine ⟨e.1 ++ ' ' :: '=' :: ' ' :: e.2,by simp [lineOf,newLine],?_⟩
  simp [h.key.oneLine.2,h.data.oneLine.2]

theorem fgets_fileOf (h : ∀ e ∈ entries, IsEntry e) : fgets 1024 [] (load (fileOf entries)) = entries.map lineOf := by
  have hterm : ∀ l ∈ entries.map lineOf, Terminated l := List.forall_mem_map.mpr fun e he => lineOf_terminated (h e he)
  have hshort : ∀ l ∈ entries.map lineOf, l.length < 1024 := by
    intro l hl
    obtain ⟨e,he,rfl⟩ := List.mem_map.mp hl
    have hlen := (h e he).short
    simp only [lineOf,newLine,List.length_append,List.length_cons,List.length_nil]
    omega
  have hread := fgets_append hterm hshort []
  rwa [List.append_nil,show fgets 1024 [] [] = [] from rfl,List.append_nil,← load_store (entries.map lineOf).flatten]
    at hread

theorem get_fileOf (h : ∀ e ∈ entries, IsEntry e) (hk : IsKey key) :
    getTokenDataFileIndexed key (some (fileOf entries)) 1 = dataOf entries key := by
  have hvalues : ∀ entries : List (List Char × List Char), (∀ e ∈ entries, IsEntry e) →
      (values key (entries.map lineOf)).head? = dataOf entries key := by
    intro entries h
    induction entries with
    | nil => rfl
    | cons e entries ih =>
      obtain ⟨he,hrest⟩ := List.forall_mem_cons.mp h
      have hline := getTokenDataLine_newLine hk he.key he.data
      by_cases hfold : fold key = fold e.1
      · rw [if_pos hfold] at hline
        simp [values,lineOf,hline,dataOf,hfold]
      · rw [if_neg hfold] at hline
        have hskip : values key (lineOf e :: entries.map lineOf) = values key (entries.map lineOf) :=
          List.filterMap_cons_none hline
        rw [List.map_cons,hskip,ih hrest,dataOf,dataOf,List.find?_cons_of_neg (by simpa using hfold)]
  rw [getTokenDataFileIndexed,if_neg (by simpa using hk.nonempty),Option.bind_some,fgets_fileOf h,findIndexed_first]
  exact hvalues entries h

theorem rewrite_lineOf {e : List Char × List Char} (h : IsEntry e) (hk : IsKey key) :
    rewrite key data (lineOf e) = lineOf (if fold key = fold e.1 then (e.1,data) else e) := by
  rw [rewrite,lineOf,keptOf_newLine hk h.key h.data]
  by_cases hfold : fold key = fold e.1
  · rw [if_pos hfold,if_pos hfold]
    simp [lineOf,newLine]
  · rw [if_neg hfold,if_neg hfold]
    rfl

theorem set_fileOf (h : ∀ e ∈ entries, IsEntry e) (hk : IsKey key) (hd : data ≠ []) :
    setTokenDataFile key data (some (fileOf entries)) = some (fileOf (setEntry key data entries)) := by
  have hmap : (entries.map lineOf).map (rewrite key data) =
      (entries.map fun e => if fold key = fold e.1 then (e.1,data) else e).map lineOf := by
    rw [List.map_map,List.map_map]
    exact List.map_congr_left fun e he => rewrite_lineOf (h e he) hk
  have hany : ((entries.map lineOf).any fun l => (keptOf key l).isSome) = entries.any fun e => fold key == fold e.1 := by
    rw [List.any_map,Bool.eq_iff_iff,List.any_eq_true,List.any_eq_true]
    refine exists_congr fun e => and_congr_right fun he => ?_
    change (keptOf key (newLine e.1 e.2)).isSome = true ↔ _
    rw [keptOf_newLine hk (h e he).key (h e he).data]
    by_cases hfold : fold key = fold e.1 <;> simp [hfold]
  rw [setTokenDataFile,if_neg (by simp [hk.nonempty,hd]),Option.map_some]
  dsimp only
  rw [fgets_fileOf h,copyLines_eq,List.nil_append,Bool.false_or,hany,hmap,setEntry]
  by_cases hfound : (entries.any fun e => fold key == fold e.1) = true
  · rw [if_pos hfound,if_pos hfound]
    rfl
  · have hsame : (entries.map fun e => if fold key = fold e.1 then (e.1,data) else e) = entries := by
      refine (List.map_congr_left fun e he => if_neg fun hfold => hfound ?_).trans (List.map_id entries)
      exact List.any_eq_true.mpr ⟨e,he,beq_iff_eq.mpr hfold⟩
    rw [if_neg hfound,if_neg hfound,hsame,fileOf,List.map_append,List.flatten_append]
    simp [lineOf]

/-- An entry has the new data if it is for the key, and is as before if it is not. -/
theorem mem_setEntry {e : List Char × List Char} (h : e ∈ setEntry key data entries) :
    (e.2 = data ∧ (e.1 = key ∨ ∃ e' ∈ entries, e'.1 = e.1 ∧ fold key = fold e.1)) ∨
      (e ∈ entries ∧ fold key ≠ fold e.1) := by
  unfold setEntry at h
  split at h
  next =>
    obtain ⟨e',he',rfl⟩ := List.mem_map.mp h
    split
    next hfold => exact Or.inl ⟨rfl,Or.inr ⟨e',he',rfl,hfold⟩⟩
    next hfold => exact Or.inr ⟨he',hfold⟩
  next hfound =>
    rcases List.mem_append.mp h with he | he
    · refine Or.inr ⟨he,fun hfold => hfound ?_⟩
      exact List.any_eq_true.mpr ⟨e,he,beq_iff_eq.mpr hfold⟩
    · rw [List.mem_singleton.mp he]
      exact Or.inl ⟨rfl,Or.inl rfl⟩

theorem exists_mem_setEntry (key data : List Char) (entries : List (List Char × List Char)) :
    (∃ e ∈ setEntry key data entries, fold key = fold e.1) ∧
      ∀ e ∈ entries, ∃ e' ∈ setEntry key data entries, e'.1 = e.1 := by
  unfold setEntry
  split
  next hfound =>
    obtain ⟨e,he,hfold⟩ := List.any_eq_true.mp hfound
    have hkey : ∀ e ∈ entries, ∃ e' ∈ entries.map fun e => if fold key = fold e.1 then (e.1,data) else e, e'.1 = e.1 :=
      fun e he => ⟨_,List.mem_map_of_mem he,by split <;> rfl⟩
    refine ⟨?_,hkey⟩
    obtain ⟨e',he',hsame⟩ := hkey e he
    exact ⟨e',he',by rw [hsame]; exact beq_iff_eq.mp hfold⟩
  next =>
    exact ⟨⟨_,List.mem_append_right _ List.mem_cons_self,rfl⟩,fun e he => ⟨e,List.mem_append_left _ he,rfl⟩⟩

end Files

end SecureWipeOut.Settings
