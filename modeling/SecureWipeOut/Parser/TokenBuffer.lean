import SecureWipeOut.Parser.TokenFile

/-! # Tokens of a buffer

`get_token_data_buffer` looks for the values of a token in text from a server. A line ends at
a line break outside of braces. The conversion from UTF-8 is that of the system, which makes no
more characters than there are bytes.
-/
namespace SecureWipeOut.TokenFile
open CText

section Model

structure Decoder where
  convert : List UInt8 → Option (List Char)
  length_le : ∀ bytes text, convert bytes = some text → text.length ≤ bytes.length

/-- `curly_count` is unsigned. -/
def curlyStep (curly : ℕ) (c : Char) : ℕ :=
  if c = '\x7b' then (curly + 1) % 2 ^ 32 else if c = '\x7d' then (curly + (2 ^ 32 - 1)) % 2 ^ 32 else curly

/-- The lines that a scan cuts, where `step` counts the braces. -/
def cutLines (step : ℕ → Char → ℕ) : ℕ → List Char → List (List Char)
  | _,[] => [[]]
  | curly,c :: s =>
    if curly = 0 ∧ isEol c = true then [] :: cutLines step 0 s
    else
      match cutLines step (step curly c) s with
      | [] => [[c]]
      | l :: ls => (c :: l) :: ls

/-- The loop over the lines: `j` values have come before, and `wdata` is what the line before
has given. -/
def searchLines (wtoken : List Char) (n : ℕ) : ℕ → Option (List Char) → List (List Char) → Option (List Char)
  | _,wdata,[] => wdata
  | j,wdata,wline :: rest =>
    if j = n then wdata
    else
      let wdata := getTokenDataLine wtoken wline
      searchLines wtoken n (if wdata.isSome then j + 1 else j) wdata rest

def getTokenDataBuffer (utf8 : Decoder) (token : List UInt8) (n : ℕ) (buffer : List UInt8) : Option (List Char) :=
  if buffer.length ≤ 4 ∨ 65536 < buffer.length then none
  else if buffer.getLast? ≠ some 0 then none
  else
    match utf8.convert (buffer.takeWhile fun c => c != 0),utf8.convert token with
    | some wbuffer,some wtoken => searchLines wtoken n 0 none (cutLines curlyStep 0 wbuffer)
    | _,_ => none

end Model

section Specification

/-- A brace that closes nothing does not count. -/
def depthStep (depth : ℕ) (c : Char) : ℕ :=
  if c = '\x7b' then depth + 1 else if c = '\x7d' then depth - 1 else depth

/-- The lines of a text, whose ends are the line breaks outside of balanced braces. -/
def logicalLines (text : List Char) : List (List Char) := cutLines depthStep 0 text

/-- No brace of the text closes nothing. -/
def noStray : ℕ → List Char → Bool
  | _,[] => true
  | depth,c :: s => !(c == '\x7d' && depth == 0) && noStray (depthStep depth c) s

end Specification

section Lines

theorem cutLines_ne_nil (step : ℕ → Char → ℕ) (curly : ℕ) (text : List Char) : cutLines step curly text ≠ [] := by
  cases text with
  | nil => exact List.cons_ne_nil _ _
  | cons c s =>
    rw [cutLines]
    split
    · exact List.cons_ne_nil _ _
    · split <;> exact List.cons_ne_nil _ _

theorem cutLines_cons {step : ℕ → Char → ℕ} {curly : ℕ} {c : Char} {s l : List Char} {ls : List (List Char)}
    (h : ¬(curly = 0 ∧ isEol c = true)) (hs : cutLines step (step curly c) s = l :: ls) :
    cutLines step curly (c :: s) = (c :: l) :: ls := by
  rw [cutLines,if_neg h,hs]

theorem curlyStep_eq {depth : ℕ} {c : Char} (hlt : depth + 1 < 2 ^ 32) (h : ¬(c = '\x7d' ∧ depth = 0)) :
    curlyStep depth c = depthStep depth c := by
  unfold curlyStep depthStep
  split
  · exact Nat.mod_eq_of_lt hlt
  · split
    next hc =>
      have hpos : 0 < depth := Nat.pos_of_ne_zero fun h0 => h ⟨hc,h0⟩
      rw [show depth + (2 ^ 32 - 1) = depth - 1 + 2 ^ 32 by omega,Nat.add_mod_right,Nat.mod_eq_of_lt (by omega)]
    next => rfl

theorem depthStep_le (depth : ℕ) (c : Char) : depthStep depth c ≤ depth + 1 := by
  unfold depthStep
  split
  · exact le_rfl
  · split <;> omega

/-- Up to the first brace that closes nothing, the scan cuts the logical lines. -/
theorem cutLines_agree {text : List Char} {depth : ℕ} (hlt : depth + text.length < 2 ^ 32) :
    ∃ l ls l' ls', cutLines depthStep depth text = l :: ls ∧ cutLines curlyStep depth text = l' :: ls' ∧
      (noStray depth l = true → l' = l ∧ ls.takeWhile (noStray 0) <+: ls' ∧
        ((∀ k ∈ ls, noStray 0 k = true) → ls' = ls)) := by
  induction text generalizing depth with
  | nil => exact ⟨[],[],[],[],rfl,rfl,fun _ => ⟨rfl,List.prefix_rfl,fun _ => rfl⟩⟩
  | cons c s ih =>
    rw [List.length_cons] at hlt
    by_cases hend : depth = 0 ∧ isEol c = true
    · obtain ⟨l,ls,l',ls',hl,hl',hagree⟩ := ih (show 0 + s.length < 2 ^ 32 by omega)
      refine ⟨[],l :: ls,[],l' :: ls',by rw [cutLines,if_pos hend,hl],by rw [cutLines,if_pos hend,hl'],fun _ => ?_⟩
      refine ⟨rfl,?_,fun hall => ?_⟩
      · rw [List.takeWhile_cons]
        split
        next hstray =>
          obtain ⟨rfl,hpre,-⟩ := hagree hstray
          exact (List.prefix_cons_inj l').mpr hpre
        next => exact List.nil_prefix
      · obtain ⟨hstray,hrest⟩ := List.forall_mem_cons.mp hall
        obtain ⟨rfl,-,hls⟩ := hagree hstray
        rw [hls hrest]
    · by_cases hstray : c = '\x7d' ∧ depth = 0
      · obtain ⟨l,ls,hl⟩ := List.exists_cons_of_ne_nil (cutLines_ne_nil depthStep (depthStep depth c) s)
        obtain ⟨l',ls',hl'⟩ := List.exists_cons_of_ne_nil (cutLines_ne_nil curlyStep (curlyStep depth c) s)
        refine ⟨_,_,_,_,cutLines_cons hend hl,cutLines_cons hend hl',fun h => ?_⟩
        simp [noStray,hstray.1,hstray.2] at h
      · have hstep := depthStep_le depth c
        obtain ⟨l,ls,l',ls',hl,hl',hagree⟩ := ih (show depthStep depth c + s.length < 2 ^ 32 by omega)
        rw [← curlyStep_eq (by omega) hstray] at hl'
        refine ⟨_,_,_,_,cutLines_cons hend hl,cutLines_cons hend hl',fun h => ?_⟩
        have hrest : noStray (depthStep depth c) l = true := by
          rw [noStray,Bool.and_eq_true] at h
          exact h.2
        obtain ⟨rfl,hpre,hls⟩ := hagree hrest
        exact ⟨rfl,hpre,hls⟩

theorem takeWhile_prefix_cutLines {text : List Char} (hlt : text.length < 2 ^ 32) :
    (logicalLines text).takeWhile (noStray 0) <+: cutLines curlyStep 0 text ∧
      ((∀ l ∈ logicalLines text, noStray 0 l = true) → cutLines curlyStep 0 text = logicalLines text) := by
  obtain ⟨l,ls,l',ls',hl,hl',hagree⟩ := cutLines_agree (show 0 + text.length < 2 ^ 32 by omega)
  rw [logicalLines,hl,hl']
  refine ⟨?_,fun hall => ?_⟩
  · rw [List.takeWhile_cons]
    split
    next hstray =>
      obtain ⟨rfl,hpre,-⟩ := hagree hstray
      exact (List.prefix_cons_inj l').mpr hpre
    next => exact List.nil_prefix
  · obtain ⟨hstray,hrest⟩ := List.forall_mem_cons.mp hall
    obtain ⟨rfl,-,hls⟩ := hagree hstray
    rw [hls hrest]

end Lines

section Search
variable (t : List Char) {n j : ℕ} {wdata : Option (List Char)}

theorem searchLines_done (n : ℕ) (wdata : Option (List Char)) (ls : List (List Char)) :
    searchLines t n n wdata ls = wdata := by
  cases ls with
  | nil => rfl
  | cons l ls => rw [searchLines,if_pos rfl]

/-- What the last line gives, behind a line that gave `wdata`. -/
theorem getLast?_map_cons (l : List Char) (ls : List (List Char)) :
    ((l :: ls).getLast?.map (getTokenDataLine t)).getD wdata =
      (ls.getLast?.map (getTokenDataLine t)).getD (getTokenDataLine t l) := by
  cases ls with
  | nil => rfl
  | cons k ks => rw [List.getLast?_cons_cons,List.getLast?_eq_some_getLast (List.cons_ne_nil k ks)]; rfl

/-- The loop returns the value it looks for, or else what the last line gives. -/
theorem searchLines_eq (hj : j < n) (ls : List (List Char)) : searchLines t n j wdata ls =
    if n - j ≤ (values t ls).length then (values t ls)[n - j - 1]?
    else (ls.getLast?.map (getTokenDataLine t)).getD wdata := by
  induction ls generalizing j wdata with
  | nil =>
    have hmore : ¬ n - j ≤ (values t []).length := by
      simp only [values,List.filterMap_nil,List.length_nil]
      omega
    rw [if_neg hmore]
    rfl
  | cons l ls ih =>
    rw [searchLines,if_neg (by omega),getLast?_map_cons]
    dsimp only
    cases h : getTokenDataLine t l with
    | none =>
      have hv : values t (l :: ls) = values t ls := List.filterMap_cons_none h
      rw [hv]
      exact ih hj
    | some d =>
      have hv : values t (l :: ls) = d :: values t ls := List.filterMap_cons_some h
      rw [hv,List.length_cons,Option.isSome_some,if_pos rfl]
      by_cases hlast : j + 1 = n
      · rw [hlast,searchLines_done,if_pos (by omega),show n - j - 1 = 0 by omega]
        rfl
      · rw [ih (by omega),show n - j - 1 = n - (j + 1) - 1 + 1 by omega,List.getElem?_cons_succ]
        by_cases hle : n - (j + 1) ≤ (values t ls).length
        · rw [if_pos hle,if_pos (by omega)]
        · rw [if_neg hle,if_neg (by omega)]

end Search

section Exactness
variable {utf8 : Decoder} {token buffer : List UInt8} {n : ℕ} {wbuffer wtoken : List Char}

/-- The data of a logical line, as asked for. -/
def nthData (wtoken wbuffer : List Char) (n : ℕ) : Option (List Char) :=
  (values wtoken (logicalLines wbuffer))[n - 1]?

/-- The data is found ahead of the first brace that closes nothing, or there is no such brace and the
last line has no data when there are fewer values. -/
structure Findable (wtoken wbuffer : List Char) (n : ℕ) : Prop where
  found : n ≤ (values wtoken ((logicalLines wbuffer).takeWhile (noStray 0))).length ∨
    ((∀ l ∈ logicalLines wbuffer, noStray 0 l = true) ∧
      (n ≤ (values wtoken (logicalLines wbuffer)).length ∨
        (logicalLines wbuffer).getLast?.bind (getTokenDataLine wtoken) = none))

theorem getTokenDataBuffer_eq (hsize : 4 < buffer.length ∧ buffer.length ≤ 65536) (hnul : buffer.getLast? = some 0)
    (hbuffer : utf8.convert (buffer.takeWhile fun c => c != 0) = some wbuffer)
    (htoken : utf8.convert token = some wtoken) (hn : 0 < n) : getTokenDataBuffer utf8 token n buffer =
      if n ≤ (values wtoken (cutLines curlyStep 0 wbuffer)).length then
        (values wtoken (cutLines curlyStep 0 wbuffer))[n - 1]?
      else (cutLines curlyStep 0 wbuffer).getLast?.bind (getTokenDataLine wtoken) := by
  rw [getTokenDataBuffer,if_neg (by omega),if_neg (by simp [hnul]),hbuffer,htoken]
  dsimp only
  rw [searchLines_eq wtoken hn,Nat.sub_zero]
  split
  · rfl
  · cases (cutLines curlyStep 0 wbuffer).getLast? <;> rfl

theorem length_wbuffer (hsize : 4 < buffer.length ∧ buffer.length ≤ 65536)
    (hbuffer : utf8.convert (buffer.takeWhile fun c => c != 0) = some wbuffer) : wbuffer.length < 2 ^ 32 := by
  have hlen := utf8.length_le _ _ hbuffer
  have htake := ( List.takeWhile_prefix (fun c : UInt8 => c != 0) (l := buffer)).length_le
  omega

theorem getElem?_of_isPrefix {α : Type} {l m : List α} (h : l <+: m) {i : ℕ} (hi : i < l.length) : m[i]? = l[i]? := by
  obtain ⟨rest,rfl⟩ := h
  exact List.getElem?_append_left hi

theorem values_prefix (t : List Char) {ls ms : List (List Char)} (h : ls <+: ms) : values t ls <+: values t ms := by
  obtain ⟨rest,rfl⟩ := h
  exact ⟨values t rest,List.filterMap_append.symm⟩

/-- The data that is asked for is returned where it is found ahead of every brace that closes nothing.
Without such a brace, it is returned exactly if there are enough values or the last line has none. -/
theorem getTokenDataBuffer_iff (utf8 : Decoder) (token buffer : List UInt8) (n : ℕ) (wbuffer wtoken : List Char)
    (hsize : 4 < buffer.length ∧ buffer.length ≤ 65536) (hnul : buffer.getLast? = some 0)
    (hbuffer : utf8.convert (buffer.takeWhile fun c => c != 0) = some wbuffer)
    (htoken : utf8.convert token = some wtoken) (hn : 0 < n) :
    (Findable wtoken wbuffer n → getTokenDataBuffer utf8 token n buffer = nthData wtoken wbuffer n) ∧
      ((∀ l ∈ logicalLines wbuffer, noStray 0 l = true) →
        (getTokenDataBuffer utf8 token n buffer = nthData wtoken wbuffer n ↔ Findable wtoken wbuffer n)) := by
  obtain ⟨hahead',hsame⟩ := takeWhile_prefix_cutLines (length_wbuffer hsize hbuffer)
  have heq := getTokenDataBuffer_eq hsize hnul hbuffer htoken hn
  have hwhole : (∀ l ∈ logicalLines wbuffer, noStray 0 l = true) →
      (getTokenDataBuffer utf8 token n buffer = nthData wtoken wbuffer n ↔
        n ≤ (values wtoken (logicalLines wbuffer)).length ∨
          (logicalLines wbuffer).getLast?.bind (getTokenDataLine wtoken) = none) := by
    intro hall
    rw [heq,hsame hall,nthData]
    by_cases hle : n ≤ (values wtoken (logicalLines wbuffer)).length
    · rw [if_pos hle]
      exact ⟨fun _ => Or.inl hle,fun _ => rfl⟩
    · rw [if_neg hle,List.getElem?_eq_none (by omega)]
      exact ⟨Or.inr,fun h => h.resolve_left hle⟩
  have hahead : n ≤ (values wtoken ((logicalLines wbuffer).takeWhile (noStray 0))).length →
      getTokenDataBuffer utf8 token n buffer = nthData wtoken wbuffer n := by
    intro hle
    have hcut := values_prefix wtoken hahead'
    have hlog := values_prefix wtoken ( List.takeWhile_prefix (noStray 0) (l := logicalLines wbuffer))
    rw [heq,if_pos (hle.trans hcut.length_le),nthData,getElem?_of_isPrefix hcut (by omega),
      getElem?_of_isPrefix hlog (by omega)]
  refine ⟨fun h => ?_,fun hall => ⟨fun h => ⟨Or.inr ⟨hall,(hwhole hall).mp h⟩⟩,fun h => ?_⟩⟩
  · rcases h.found with hle | ⟨hall,hfound⟩
    · exact hahead hle
    · exact (hwhole hall).mpr hfound
  · rcases h.found with hle | ⟨-,hfound⟩
    · exact hahead hle
    · exact (hwhole hall).mpr hfound

/-- Text of one byte for each character. -/
def ascii : Decoder where
  convert bytes := some (bytes.map fun b => Char.ofNat b.toNat)
  length_le bytes text h := by
    rw [← Option.some.inj h,List.length_map]

def asciiBytes (s : String) : List UInt8 := s.toList.map fun c => UInt8.ofNat c.toNat

def versionBuffer : List UInt8 := asciiBytes "version = 1.2" ++ [0]

theorem getTokenDataBuffer_version : getTokenDataBuffer ascii (asciiBytes "version") 1 versionBuffer =
    nthData "version".toList "version = 1.2".toList 1 :=
  (getTokenDataBuffer_iff ascii (asciiBytes "version") versionBuffer 1 "version = 1.2".toList "version".toList
    (by decide) (by decide) (by decide +kernel) (by decide +kernel) (by decide)).1 ⟨Or.inl (by decide +kernel)⟩

/-- The value on the last line is returned also when a second one is asked for. -/
theorem getTokenDataBuffer_last : getTokenDataBuffer ascii (asciiBytes "version") 2 versionBuffer =
      some "1.2".toList ∧ nthData "version".toList "version = 1.2".toList 2 = none := by
  decide +kernel

/-- A brace that closes nothing hides the lines that follow it. -/
theorem getTokenDataBuffer_stray :
    getTokenDataBuffer ascii (asciiBytes "url") 1 (asciiBytes "a\x7d\nurl = b" ++ [0]) = none ∧
      nthData "url".toList "a\x7d\nurl = b".toList 1 = some ['b'] := by
  decide +kernel

end Exactness

end SecureWipeOut.TokenFile
