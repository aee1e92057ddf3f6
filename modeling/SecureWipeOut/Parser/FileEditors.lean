import SecureWipeOut.Parser.TokenPatchLine

/-! # The editors of configuration files

Three functions change a text file through a copy: `set_token_data_file`, `insert_section_data`
and `replace_in_token_data`. Each writes the copy next to the file and, when something has been
changed, opens both once more to copy it back. They return NULL when the copy or the file cannot
be opened for that, and say that the original file has been left unmodified.
-/
namespace SecureWipeOut.FileEditors
open CText TextFile TokenFile TokenPatch Search Encodings

/-- What a file gives when it is read as text: its first two bytes, if they can be read, the
buffers that are filled from its beginning, and those filled where the first bytes could not
be read. -/
structure Runtime where
  bom : List UInt8 → Option UInt16
  fgetws : List UInt8 → List Buf
  unread : List UInt8 → List Buf

def bomMode (bom : UInt16) : Encoding :=
  if bom = 0xFEFF then .utf16le else if bom = 0xBBEF then .utf8 else .ansi

/-- The mode that the first bytes tell, for want of them the same as for a file without mark. -/
def Runtime.mode (r : Runtime) (file : List UInt8) : Encoding := bomMode ((r.bom file).getD 0)

/-- The buffers of the loop over the lines. -/
def Runtime.bufs (r : Runtime) (file : List UInt8) : List Buf :=
  if (r.bom file).isSome then r.fgetws file else r.unread file

/-- Which of the calls succeed: the conversions of names and texts, opening the file, allocating
the name of the copy, opening the copy, and opening the copy and the file once more. -/
structure Calls where
  converted : Bool
  source : Bool
  allocated : Bool
  temporary : Bool
  reopened : Bool
  target : Bool

/-- The file and its copy. -/
structure Files where
  file : List UInt8
  tmp : Option (List UInt8)

/-- The files after a call, and whether it returned something. -/
structure Edited where
  files : Files
  ret : Bool

/-- The text of the copy, and whether something was changed in it. -/
structure Copied where
  out : List Char
  ret : Bool

/-- A stream converts what is written to it up to the first character that it cannot hold. -/
def fputws (mode : Encoding) (out text : List Char) : List Char := out ++ text.takeWhile (fits mode)

section edit
variable (r : Runtime) (c : Calls)

/-- Copying back. Opening the file for that empties it. -/
def writeBack (copy : List UInt8 → List UInt8) (fs : Files) : Edited :=
  let opened := if c.target then { fs with file := [] } else fs
  if c.reopened && c.target then ⟨{ opened with file := copy (fs.tmp.getD []) },true⟩
  else ⟨opened,false⟩

/-- What the editors share. They differ in whether the first two bytes have to be there, in the
check of their arguments, in what they write for the lines and in the bytes left out when the copy
is copied back. -/
def edit (required valid : Bool) (copy : Encoding → List Buf → Copied) (drop : UInt8 → Bool)
    (fs : Files) : Edited :=
  if !valid || !c.converted || !c.source then ⟨fs,false⟩
  else
    if required && (r.bom fs.file).isNone || !c.allocated then ⟨fs,false⟩
    else if !c.temporary then ⟨{ fs with tmp := none },false⟩
    else
      let mode := r.mode fs.file
      let w := copy mode (r.bufs fs.file)
      let fs := { fs with tmp := some (encode mode (store w.out)) }
      let e := if w.ret then writeBack c (dropUnits (unitSize mode) drop) fs else ⟨fs,false⟩
      ⟨{ e.files with tmp := none },e.ret⟩

/-- The body of the loop of `set_token_data_file`. -/
def setLine (wtoken wdata : List Char) (mode : Encoding) (w : Copied) (buf : Buf) : Copied :=
  match keptOf wtoken (cstr buf 0) with
  | none => ⟨fputws mode w.out (cstr buf 0),w.ret⟩
  | some kept => ⟨fputws mode (fputws mode w.out kept) (wdata ++ ['\n']),true⟩

/-- A line is appended when no line has been replaced. -/
def setLines (wtoken wdata : List Char) (mode : Encoding) (bufs : List Buf) : Copied :=
  let w := bufs.foldl (setLine wtoken wdata mode) ⟨[],false⟩
  if w.ret then w else ⟨fputws mode w.out (newLine wtoken wdata),true⟩

def setTokenDataFile (token data filename : List Char) (fs : Files) : Edited :=
  edit r c false (!filename.isEmpty && !token.isEmpty && !data.isEmpty) (setLines token data)
    (fun _ => false) fs

/-- The test for the section in a line. -/
def beginsSection (wsection : List Char) (buf : Buf) : Bool :=
  wcsnicmp (cstr buf (wcsspn buf 0)) wsection

def insertLine (wsection wdata : List Char) (mode : Encoding) (w : Copied) (buf : Buf) : Copied :=
  let out := fputws mode w.out (cstr buf 0)
  if beginsSection wsection buf then ⟨fputws mode out (wdata ++ ['\n']),true⟩ else ⟨out,w.ret⟩

def insertSectionData (filename wsection data : List Char) (dos2unix : Bool) (fs : Files) : Edited :=
  edit r c true (!filename.isEmpty && !wsection.isEmpty && !data.isEmpty)
    (fun mode bufs => bufs.foldl (insertLine wsection data mode) ⟨[],false⟩)
    (fun b => dos2unix && b == cr) fs

/-- The loop of `replace_in_token_data`. -/
def replaceLines (wtoken wsrc wrep : List Char) (mode : Encoding) (bufs : List Buf) : Copied :=
  let w := bufs.foldl (copyLine mode wtoken wsrc wrep) ⟨fun _ => 0,fun _ => none,[],false⟩
  ⟨w.out,w.ret⟩

def replaceInTokenData (filename token src rep : List Char) (dos2unix : Bool) (fs : Files) : Edited :=
  edit r c true (!filename.isEmpty && !token.isEmpty && !src.isEmpty && src != rep)
    (replaceLines token src rep) (fun b => dos2unix && b == cr) fs

end edit

/-- A call that returns NULL has left the file as it was. -/
def Unmodified (fs : Files) (e : Edited) : Prop := e.ret = false → e.files.file = fs.file

/-- The copy has been written and cannot be opened again, and the file can. -/
def Calls.Clobber (c : Calls) : Prop :=
  c.converted = true ∧ c.source = true ∧ c.allocated = true ∧ c.temporary = true ∧
    c.reopened = false ∧ c.target = true

section atomic
variable {r : Runtime} {c : Calls} {fs : Files}

theorem writeBack_unmodified (copy : List UInt8 → List UInt8) (fs : Files) :
    Unmodified fs (writeBack c copy fs) ↔
      ¬ (c.reopened = false ∧ c.target = true ∧ fs.file ≠ []) := by
  rw [Unmodified,writeBack]
  cases c.target <;> cases c.reopened <;> simp [eq_comm]

/-- What the editors have in common decides when the file is lost, up to whether they change
something. -/
theorem edit_unmodified (required valid : Bool) (copy : Encoding → List Buf → Copied)
    (drop : UInt8 → Bool) : Unmodified fs (edit r c required valid copy drop fs) ↔
      ¬ (valid = true ∧ c.Clobber ∧ (required = true → (r.bom fs.file).isSome = true) ∧
        (copy (r.mode fs.file) (r.bufs fs.file)).ret = true ∧ fs.file ≠ []) := by
  rw [edit]
  split
  · next hearly =>
    refine iff_of_true (fun _ => rfl) ?_
    rintro ⟨hvalid,⟨hconverted,hsource,-⟩,-⟩
    simp [hvalid,hconverted,hsource] at hearly
  · next hlate =>
    simp only [Bool.or_eq_true,Bool.not_eq_true',not_or,Bool.not_eq_false] at hlate
    obtain ⟨⟨hvalid,hconverted⟩,hsource⟩ := hlate
    dsimp only
    split
    · next hbom =>
      refine iff_of_true (fun _ => rfl) ?_
      rintro ⟨-,⟨-,-,hallocated,-⟩,hrequired,-⟩
      rw [Bool.or_eq_true,Bool.and_eq_true,hallocated] at hbom
      rcases hbom with ⟨hmust,hnone⟩ | hfalse
      · rw [Option.isNone_iff_eq_none] at hnone
        simpa [hnone] using hrequired hmust
      · cases hfalse
    · next hbom =>
      rw [Bool.or_eq_true,not_or,Bool.not_eq_true,Bool.not_eq_true',Bool.not_eq_false] at hbom
      obtain ⟨hmust,hallocated⟩ := hbom
      have hrequired : required = true → (r.bom fs.file).isSome = true := by
        intro hreq
        rw [hreq,Bool.true_and] at hmust
        simpa using hmust
      split
      · next htemporary =>
        refine iff_of_true (fun _ => rfl) ?_
        rintro ⟨-,⟨-,-,-,htrue,-⟩,-⟩
        simp [htrue] at htemporary
      · next htemporary =>
        rw [Bool.not_eq_true',Bool.not_eq_false] at htemporary
        cases hret : (copy (r.mode fs.file) (r.bufs fs.file)).ret with
        | true =>
          refine (writeBack_unmodified (dropUnits (unitSize (r.mode fs.file)) drop)
            { fs with tmp := _ }).trans (not_congr ?_)
          rw [Calls.Clobber]
          simp only [hvalid,hconverted,hsource,hallocated,htemporary,true_and]
          constructor
          · rintro ⟨hreopened,htarget,hne⟩
            exact ⟨⟨hreopened,htarget⟩,hrequired,hne⟩
          · rintro ⟨⟨hreopened,htarget⟩,-,hne⟩
            exact ⟨hreopened,htarget,hne⟩
        | false => exact iff_of_true (fun _ => rfl) fun h => Bool.noConfusion h.2.2.2.1

end atomic

section changes
variable {mode : Encoding}

/-- A loop that notes whether some line is changed. -/
theorem foldl_ret {σ : Type*} (f : σ → Buf → σ) (ret : σ → Bool) {p : Buf → Bool}
    (hf : ∀ w buf, ret (f w buf) = (ret w || p buf)) (bufs : List Buf) (w : σ) :
    ret (bufs.foldl f w) = (ret w || bufs.any p) := by
  induction bufs generalizing w with
  | nil => simp
  | cons buf bufs ih => rw [List.foldl_cons,ih,hf,List.any_cons,Bool.or_assoc]

theorem setLines_ret (token data : List Char) (bufs : List Buf) :
    (setLines token data mode bufs).ret = true := by
  rw [setLines]
  split
  · assumption
  · rfl

theorem insertLine_ret (wsection data : List Char) (w : Copied) (buf : Buf) :
    (insertLine wsection data mode w buf).ret = (w.ret || beginsSection wsection buf) := by
  rw [insertLine]
  cases h : beginsSection wsection buf <;> simp

/-- A line of the token has the text in its data. -/
def hasPlace (token src : List Char) (buf : Buf) : Bool :=
  let i := wcsspn buf 0
  let ns := wcsspn buf (i + token.length)
  wcsnicmp (cstr buf i) token && ns != 0 && (find src (cstr buf (i + token.length + ns))).isSome

theorem splitLoop_torep (src : List Char) (n : ℕ) (s : Split) :
    ((splitLoop src (n + 1) 0 s).torep 0).isSome = (find src (cstr s.buf s.i)).isSome := by
  cases hfind : find src (cstr s.buf s.i) with
  | none => simp [splitLoop_none hfind]
  | some k =>
    rw [splitLoop_some hfind,(splitLoop_framed src n 1 _).torep 0 (Or.inl Nat.zero_lt_one)]
    simp [Split.cut]

theorem copyLine_ret (token src rep : List Char) (w : Copy) (buf : Buf) :
    (copyLine mode token src rep w buf).ret = (w.ret || hasPlace token src buf) := by
  rw [copyLine,hasPlace]
  dsimp only
  split
  · next htoken =>
    rw [Bool.not_eq_true'] at htoken
    rw [htoken,Bool.false_and,Bool.false_and,Bool.or_false]
    rfl
  · next htoken =>
    rw [Bool.not_eq_true',Bool.not_eq_false] at htoken
    split
    · next hns =>
      rw [hns]
      simp [Copy.write]
    · next hns =>
      have htorep := splitLoop_torep src 3 ⟨buf,wcsspn buf 0 + token.length +
        wcsspn buf (wcsspn buf 0 + token.length),Function.update w.p 0 0,w.torep⟩
      dsimp only at htorep
      rw [htoken,← htorep,bne_iff_ne.mpr hns,Bool.true_and,Bool.true_and]
      split
      · next hnone =>
        rw [maxOccurrences] at hnone
        rw [hnone]
        simp [Copy.write]
      · next hsome =>
        rw [maxOccurrences,← ne_eq,Option.ne_none_iff_isSome] at hsome
        rw [hsome,Bool.or_true]

end changes

section editors
variable (r : Runtime) (c : Calls) (fs : Files)

theorem setTokenDataFile_unmodified (token data filename : List Char) :
    Unmodified fs (setTokenDataFile r c token data filename fs) ↔
      ¬ (c.Clobber ∧ fs.file ≠ [] ∧ filename ≠ [] ∧ token ≠ [] ∧ data ≠ []) := by
  rw [setTokenDataFile,edit_unmodified,setLines_ret]
  simp only [Bool.and_eq_true,Bool.not_eq_true',List.isEmpty_eq_false_iff,Bool.false_eq_true,
    false_imp_iff,true_and]
  refine not_congr ⟨?_,?_⟩
  · rintro ⟨⟨⟨hfilename,htoken⟩,hdata⟩,hcalls,hfile⟩
    exact ⟨hcalls,hfile,hfilename,htoken,hdata⟩
  · rintro ⟨hcalls,hfile,hfilename,htoken,hdata⟩
    exact ⟨⟨⟨hfilename,htoken⟩,hdata⟩,hcalls,hfile⟩

theorem any_bufs (p : Buf → Bool) (hbom : (r.bom fs.file).isSome = true) :
    ((r.bufs fs.file).any p = true) ↔ ∃ buf ∈ r.fgetws fs.file, p buf = true := by
  rw [Runtime.bufs,if_pos hbom,List.any_eq_true]

theorem insertSectionData_unmodified (filename wsection data : List Char) (dos2unix : Bool) :
    Unmodified fs (insertSectionData r c filename wsection data dos2unix fs) ↔
      ¬ (c.Clobber ∧ fs.file ≠ [] ∧ filename ≠ [] ∧ wsection ≠ [] ∧ data ≠ [] ∧
        (r.bom fs.file).isSome = true ∧
        ∃ buf ∈ r.fgetws fs.file, beginsSection wsection buf = true) := by
  rw [insertSectionData,edit_unmodified,foldl_ret _ Copied.ret (insertLine_ret wsection data)]
  simp only [Bool.and_eq_true,Bool.not_eq_true',List.isEmpty_eq_false_iff,Bool.false_or,
    true_imp_iff]
  refine not_congr ⟨?_,?_⟩
  · rintro ⟨⟨⟨hfilename,hsection⟩,hdata⟩,hcalls,hbom,hany,hfile⟩
    exact ⟨hcalls,hfile,hfilename,hsection,hdata,hbom,(any_bufs r fs _ hbom).mp hany⟩
  · rintro ⟨hcalls,hfile,hfilename,hsection,hdata,hbom,hany⟩
    exact ⟨⟨⟨hfilename,hsection⟩,hdata⟩,hcalls,hbom,(any_bufs r fs _ hbom).mpr hany,hfile⟩

theorem replaceInTokenData_unmodified (filename token src rep : List Char) (dos2unix : Bool) :
    Unmodified fs (replaceInTokenData r c filename token src rep dos2unix fs) ↔
      ¬ (c.Clobber ∧ fs.file ≠ [] ∧ filename ≠ [] ∧ token ≠ [] ∧ src ≠ [] ∧ src ≠ rep ∧
        (r.bom fs.file).isSome = true ∧
        ∃ buf ∈ r.fgetws fs.file, hasPlace token src buf = true) := by
  rw [replaceInTokenData,edit_unmodified,replaceLines]
  dsimp only
  rw [foldl_ret _ Copy.ret (copyLine_ret token src rep)]
  simp only [Bool.and_eq_true,Bool.not_eq_true',List.isEmpty_eq_false_iff,Bool.false_or,
    true_imp_iff,bne_iff_ne]
  refine not_congr ⟨?_,?_⟩
  · rintro ⟨⟨⟨⟨hfilename,htoken⟩,hsrc⟩,hrep⟩,hcalls,hbom,hany,hfile⟩
    exact ⟨hcalls,hfile,hfilename,htoken,hsrc,hrep,hbom,(any_bufs r fs _ hbom).mp hany⟩
  · rintro ⟨hcalls,hfile,hfilename,htoken,hsrc,hrep,hbom,hany⟩
    exact ⟨⟨⟨⟨hfilename,htoken⟩,hsrc⟩,hrep⟩,hcalls,hbom,(any_bufs r fs _ hbom).mpr hany,hfile⟩

/-- All three lose the file when there was something to write back and only the copy cannot be
opened again, and at no other time. -/
theorem editors_unmodified_iff (filename token wsection data src rep : List Char) (dos2unix : Bool) :
    (Unmodified fs (setTokenDataFile r c token data filename fs) ↔
      ¬ (c.Clobber ∧ fs.file ≠ [] ∧ filename ≠ [] ∧ token ≠ [] ∧ data ≠ [])) ∧
    (Unmodified fs (insertSectionData r c filename wsection data dos2unix fs) ↔
      ¬ (c.Clobber ∧ fs.file ≠ [] ∧ filename ≠ [] ∧ wsection ≠ [] ∧ data ≠ [] ∧
        (r.bom fs.file).isSome = true ∧
        ∃ buf ∈ r.fgetws fs.file, beginsSection wsection buf = true)) ∧
    (Unmodified fs (replaceInTokenData r c filename token src rep dos2unix fs) ↔
      ¬ (c.Clobber ∧ fs.file ≠ [] ∧ filename ≠ [] ∧ token ≠ [] ∧ src ≠ [] ∧ src ≠ rep ∧
        (r.bom fs.file).isSome = true ∧
        ∃ buf ∈ r.fgetws fs.file, hasPlace token src buf = true)) :=
  ⟨setTokenDataFile_unmodified r c fs token data filename,
    insertSectionData_unmodified r c fs filename wsection data dos2unix,
    replaceInTokenData_unmodified r c fs filename token src rep dos2unix⟩

end editors

/-- Where every call succeeds the file holds what the copy of its lines says. -/
theorem replaceInTokenData_after (r : Runtime) (f : Stored) (tmp : Option (List UInt8))
    {filename : List Char} (token src rep : List Char) (dos2unix : Bool) (hname : filename ≠ [])
    (hbom : (r.bom f.bytes).map bomMode = modeOf f.bytes)
    (hlines : r.fgetws f.bytes = fgets 1024 [] (load f.text)) :
    (replaceInTokenData r ⟨true,true,true,true,true,true⟩ filename token src rep dos2unix
      ⟨f.bytes,tmp⟩).files.file = after f token src rep dos2unix := by
  rw [replaceInTokenData,edit,after,TokenPatch.replaceInTokenData]
  have hempty : filename.isEmpty = false := List.isEmpty_eq_false_iff.mpr hname
  by_cases hvalid : (token.isEmpty || src.isEmpty || src == rep) = true
  · have hearly : (!filename.isEmpty && !token.isEmpty && !src.isEmpty && src != rep) = false := by
      rw [hempty,bne,Bool.not_false,Bool.true_and,← Bool.not_or,← Bool.not_or,hvalid]
      rfl
    rw [if_pos hvalid,hearly]
    rfl
  · have hlate : (!filename.isEmpty && !token.isEmpty && !src.isEmpty && src != rep) = true := by
      rw [hempty,bne,Bool.not_false,Bool.true_and,← Bool.not_or,← Bool.not_or,
        Bool.eq_false_of_not_eq_true hvalid]
      rfl
    rw [if_neg hvalid,hlate,← hbom]
    cases hmark : r.bom f.bytes with
    | none => rfl
    | some bom =>
      have hbufs : r.bufs f.bytes = fgets 1024 [] (load f.text) := by
        rw [Runtime.bufs,hmark]
        exact hlines
      have hmode : r.mode f.bytes = bomMode bom := by rw [Runtime.mode,hmark]; rfl
      simp only [hbufs,hmode,replaceLines,Option.map_some,Option.bind_some]
      generalize (fgets 1024 [] (load f.text)).foldl (copyLine (bomMode bom) token src rep)
        ⟨fun _ => 0,fun _ => none,[],false⟩ = w
      cases hret : w.ret <;> rfl

/-- The characters of a file without a mark. -/
def ansiRuntime : Runtime where
  bom
    | b :: b' :: _ => some (b.toUInt16 + b'.toUInt16 <<< 8)
    | _ => none
  fgetws file := fgets 1024 [] (load (file.map fun b => Char.ofNat b.toNat))
  unread _ := []

/-- The line `a 1`, whose copy is gone when it is to be opened again. -/
theorem editors_not_unmodified :
    let fs : Files := ⟨[97,32,49],none⟩
    let c : Calls := ⟨true,true,true,true,false,true⟩
    ¬ Unmodified fs (setTokenDataFile ansiRuntime c ['a'] ['2'] ['f'] fs) ∧
    ¬ Unmodified fs (insertSectionData ansiRuntime c ['f'] ['a'] ['2'] false fs) ∧
    ¬ Unmodified fs (replaceInTokenData ansiRuntime c ['f'] ['a'] ['1'] ['2'] false fs) :=
  ⟨fun h => absurd (h (by decide +kernel)) (by decide +kernel),
    fun h => absurd (h (by decide +kernel)) (by decide +kernel),
    fun h => absurd (h (by decide +kernel)) (by decide +kernel)⟩

end SecureWipeOut.FileEditors
