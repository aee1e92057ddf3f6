import SecureWipeOut.Lib.CText
import SecureWipeOut.Lib.Search
import Mathlib.Data.List.DropRight

/-! # Sanitized labels

The model of `sanitize_label`, which rewrites a label in place: characters are mapped, dashes
at both ends and repeated dashes removed, and then a list of substrings. Beside it stands
what a label should become, as operations on texts.
-/
namespace SecureWipeOut.SanitizeLabel
open CText

/-- The substrings to remove, in this order. -/
def removeList : List (List Char) :=
  ["-i386","-i686","-amd64","-x86-64",".x86-64","-x64","-armhf","-arm64","-aarch64","-32-bit",
    "-64-bit","-32bit","-64bit","-intel","-cd","-dvd","-standard","-live","-install","-server",
    "-net","-desktop","-lts","-studio","-baseos","-kde","-xfce","-lxde","-gnome","-mate",
    "-unstable","-debug","-release","-final","-stream","-cinnamon","-cinn","-leap","-tumbleweed",
    "-budgie","-ws","-iot","-ostree",".iso"].map String.toList

def toLower (c : Char) : Char := if 'A' ≤ c ∧ c ≤ 'Z' then Char.ofNat (c.toNat + 0x20) else c

/-- The character that a label gets in place of another one. -/
def mapChar (c : Char) : Char :=
  let c := toLower c
  if c < '0' ∧ c ≠ '.' ∨ '9' < c ∧ c < 'a' ∨ 'z' < c then '-' else c

section Code

def strlen (buf : Buf) : ℕ := (cstr buf 0).length

def memmove (buf : Buf) (dst src n : ℕ) : Buf :=
  buf.take dst ++ (buf.drop src).take n ++ buf.drop (dst + n)

def mapLabel (label : Buf) : Buf :=
  (label.take (strlen label)).map mapChar ++ label.drop (strlen label)

/-- The number of dashes that a text begins with. -/
def leadingDashes (s : List Char) : ℕ := (s.takeWhile (· == '-')).length

/-- The characters behind the leading dashes are moved to the front, without the NUL. -/
def moveFront (label : Buf) : Buf :=
  let len := strlen label
  let i := leadingDashes (label.take len)
  if i ≠ 0 then memmove label 0 i (len - i) else label

/-- The loop over the trailing dashes, from an index down; the first character stays. -/
def trimLoop : ℕ → Buf → Buf
  | 0, label => label
  | i + 1, label => if charAt label (i + 1) = '-' then trimLoop i (label.set (i + 1) nul) else label

/-- The loop that removes one of two dashes; the index stays when it has removed one. -/
def collapseLoop : ℕ → Buf → ℕ → ℕ → Buf
  | 0, label, _, _ => label
  | fuel + 1, label, i, len =>
    if 2 ≤ len ∧ i < len - 2 then
      if charAt label i = '-' ∧ charAt label (i + 1) = '-' then
        collapseLoop fuel (memmove label (i + 1) (i + 2) (len - i - 1)) i (len - 1)
      else collapseLoop fuel label (i + 1) len
    else label

/-- The first occurrence of a substring is overwritten with what follows it. -/
def removeSubstring (label : Buf) (w : List Char) : Buf :=
  match Search.find w (cstr label 0) with
  | none => label
  | some p => memmove label p (p + w.length) ((cstr label (p + w.length)).length + 1)

/-- The return value and the buffer of the label. -/
def sanitizeLabel (label : Buf) : ℤ × Buf :=
  let label := moveFront (mapLabel label)
  if strlen label ≤ 1 then (-1,label)
  else
    let label := trimLoop (strlen label - 1) label
    if strlen label ≤ 1 then (-1,label)
    else
      let label := collapseLoop (strlen label) label 0 (strlen label)
      (0,removeList.foldl removeSubstring label)

end Code

section Specification

def stripTrailing (s : List Char) : List Char := s.rdropWhile (· == '-')

def strip (s : List Char) : List Char := stripTrailing (s.dropWhile (· == '-'))

/-- Of several dashes in a row one is kept. -/
def collapse : List Char → List Char
  | a :: b :: rest =>
    if a = '-' ∧ b = '-' then collapse (b :: rest) else a :: collapse (b :: rest)
  | s => s

def removeFirst (s w : List Char) : List Char :=
  match Search.find w s with
  | none => s
  | some p => s.take p ++ s.drop (p + w.length)

def removeAll (s : List Char) : List Char := removeList.foldl removeFirst s

/-- What becomes of a label: mapped, stripped, collapsed, and without the listed substrings. -/
def specification (label : List Char) : List Char := removeAll (collapse (strip (label.map mapChar)))

def isLabelChar (c : Char) : Bool :=
  decide ('a' ≤ c ∧ c ≤ 'z') || decide ('0' ≤ c ∧ c ≤ '9') || c == '.' || c == '-'

/-- What a label in a buffer shall be when 0 is returned. -/
def Sound (label rest : List Char) : Prop :=
  let r := sanitizeLabel (label ++ nul :: rest)
  r.1 = 0 → (∀ c ∈ cstr r.2 0, isLabelChar c = true) ∧ (cstr r.2 0).head? ≠ some '-' ∧
    cstr r.2 0 = specification label

end Specification

example : specification "--Ubuntu 22.04--LTS.iso".toList = "ubuntu-22.04".toList := by decide +kernel

end SecureWipeOut.SanitizeLabel
