import SecureWipeOut.Lib.Loop
import SecureWipeOut.Lib.CText
import SecureWipeOut.Lib.Text

/-! # SBAT revocation

The model of `GetSbatEntries` and `IsRevokedBySbat`. Both parse their text in place:
they write a NUL over the separator that ends a product or a version and keep the
index of the product.
-/
namespace SecureWipeOut.Sbat
open CText Loop Text

structure SbatEntry where
  product : List Char
  version : ℕ
deriving DecidableEq

def fieldEnd (c : Char) : Bool := c == ',' || c == nul || c == '\n'
def lineEnd (c : Char) : Bool := c == nul || c == '\n'

/-- The state of the loop of `GetSbatEntries`; `pending` is the product of the entry
that has no version yet. -/
structure LevelScan where
  sbatlevel : Buf
  i : ℕ
  entries : List (ℕ × ℕ)
  pending : Option ℕ
deriving DecidableEq

/-- The version of a level, which may be given in hexadecimal. -/
def levelVersion (sbatlevel : Buf) (versionStr : ℕ) : ℕ :=
  if charAt sbatlevel versionStr = '0' ∧ charAt sbatlevel (versionStr + 1) = 'x' then
    strtoul 16 (cstr sbatlevel versionStr)
  else strtoul 10 (cstr sbatlevel versionStr)

/-- The part of the loop after a product, from the index of the comma behind it. -/
def levelEntry (s : LevelScan) (comma : ℕ) : LevelScan :=
  let sbatlevel := s.sbatlevel.set comma nul
  let versionStr := comma + 1
  let i := scan fieldEnd sbatlevel versionStr
  let eol := charAt sbatlevel i = nul ∨ charAt sbatlevel i = '\n'
  let eof := charAt sbatlevel i = nul
  let sbatlevel := sbatlevel.set i nul
  let i := if eof then i else i + 1
  let version := levelVersion sbatlevel versionStr
  let i := if eol then i else scan lineEnd sbatlevel i
  if version ≠ 0 then ⟨sbatlevel,i,s.entries ++ [(s.i,version)],none⟩
  else ⟨sbatlevel,i,s.entries,some s.i⟩

def levelStep (s : LevelScan) : LevelScan ⊕ LevelScan :=
  if charAt s.sbatlevel s.i = nul then .inr s
  else if charAt s.sbatlevel s.i = '\n' then .inl {s with i := s.i + 1}
  else if charAt s.sbatlevel s.i = '#' then .inl {s with i := scan lineEnd s.sbatlevel s.i}
  else
    let i := scan fieldEnd s.sbatlevel s.i
    if charAt s.sbatlevel i = nul ∨ charAt s.sbatlevel i = '\n' then
      .inr {s with i := i, pending := some s.i}
    else .inl (levelEntry s i)

/-- The list up to the entry without a product; a pending product has version 0. -/
def LevelScan.list (s : LevelScan) : List SbatEntry :=
  s.entries.map (fun e => ⟨cstr s.sbatlevel e.1,e.2⟩) ++
    s.pending.toList.map (fun product => ⟨cstr s.sbatlevel product,0⟩)

def getSbatEntries (sbatlevel : Option Buf) : Option (List SbatEntry) :=
  sbatlevel.bind fun sbatlevel =>
    (run levelStep (sbatlevel.length + 1) ⟨sbatlevel,0,[],none⟩).bind fun s =>
      if s.entries = [] then none else some s.list

/-- The fallback level list. -/
def dbSbatLevelTxt : Buf :=
  "sbat,1,2024010900\nshim,4\ngrub,3\ngrub.debian,4\nBOOTMGRSECURITYVERSIONNUMBER,0x30000".toList

/-- The version of a field as `uint32_t`. -/
def versionOf (field : List Char) : ℕ := (atoi field % 2 ^ 32).toNat

def lowerThanLevel (levels : List SbatEntry) (product : List Char) (version : ℕ) : Bool :=
  levels.any fun e => product == e.product && decide (version < e.version)

/-- One turn of the loop of `IsRevokedBySbat`. -/
def sbatStep (levels : List SbatEntry) (s : Buf × ℕ) : (Buf × ℕ) ⊕ Bool :=
  if charAt s.1 s.2 = nul then .inr false
  else
    let i := scan (fun c => c != '\n') s.1 s.2
    if charAt s.1 i = nul then .inr false
    else
      let product := i
      let i := scan fieldEnd s.1 i
      if charAt s.1 i = nul ∨ charAt s.1 i = '\n' then .inr false
      else
        let sbat := s.1.set i nul
        let versionStr := i + 1
        let i := scan fieldEnd sbat versionStr
        let sbat := sbat.set i nul
        let i := i + 1
        let version := versionOf (cstr sbat versionStr)
        let i := scan lineEnd sbat i
        if version = 0 then .inl (sbat,i)
        else if lowerThanLevel levels (cstr sbat product) version then .inr true
        else .inl (sbat,i)

/-- The result for the content of the `.sbat` section, if the image has one; `none`
means that the loop did not end. -/
def isRevokedBySbat (sbatEntries : Option (List SbatEntry)) (sbat : Option Buf) : Option Bool :=
  match sbatEntries.or (getSbatEntries (some dbSbatLevelTxt)) with
  | none => some false
  | some levels =>
    match sbat with
    | none => some false
    | some sbat => run (sbatStep levels) (sbat.length + 1) (sbat,0)

section Specification

/-- A line of its own is revoked: not a comment, a nonzero version, and a level of
exactly its product above that version. -/
def RevokedLine (levels : List SbatEntry) (l : Line) : Prop :=
  l.head? ≠ some '#' ∧ ∃ product version rest, l.splitOn ',' = product :: version :: rest ∧
    versionOf version ≠ 0 ∧ ∃ e ∈ levels, e.product = product ∧ versionOf version < e.version

/-- The lines the scan comes to. Blank lines are passed, a line without a comma ends
the scan, and a line of exactly two fields takes the next line with it. -/
def examined (swallowed : Bool) : List Line → List Line
  | [] => []
  | l :: ls =>
    if swallowed then examined false ls
    else if l = [] then examined false ls
    else
      match l.splitOn ',' with
      | _ :: _ :: [] => l :: examined true ls
      | _ :: _ :: _ :: _ => l :: examined false ls
      | _ => []

end Specification

end SecureWipeOut.Sbat
