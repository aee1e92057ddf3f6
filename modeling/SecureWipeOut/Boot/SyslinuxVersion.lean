import Mathlib.Data.List.DropRight
import SecureWipeOut.Lib.CText

/-! # The version of Syslinux

`GetSyslinuxVersion` looks for the name and the version in a binary, and makes the string that
follows the version the name of a directory. The version string is edited where it stands: the
character behind the version becomes a slash, a version that is repeated there is passed over,
blanks and stars at the end become NULs, and characters that no name may have underscores.
-/
namespace SecureWipeOut.SyslinuxVersion
open CText

def linux : List Char := "LINUX ".toList

def unauthorized : List Char := "<>:|*?\\/".toList

/-- The data with the NUL behind it. -/
def terminated (data : List Char) : Buf := data ++ [nul]

/-- The name stands at an index, with one of the two beginnings ahead of it. -/
def isName (buf : Buf) (k : ℕ) : Bool :=
  (buf.drop k).take linux.length == linux &&
    ((buf.drop (k - 3)).take 3 == "ISO".toList || (buf.drop (k - 3)).take 3 == "SYS".toList)

section numbers

/-- The characters ahead of the digits of a number. -/
def signLength (s : List Char) : ℕ := if s.head? = some '-' ∨ s.head? = some '+' then 1 else 0

def leadLength (s : List Char) : ℕ :=
  let blanks := (s.takeWhile isSpace).length
  blanks + signLength (s.drop blanks)

/-- The number of characters that `strtoul` reads; none where there are no digits. -/
def strtoulLength (s : List Char) : ℕ :=
  let count := ((s.drop (leadLength s)).takeWhile fun c => decide (digit c < 10)).length
  if count = 0 then 0 else leadLength s + count

variable (buf : Buf) (k : ℕ)

/-- The index of the version behind a name. -/
def versionStart : ℕ := k + linux.length

def major : ℕ := strtoul 10 (buf.drop (versionStart k))

def majorEnd : ℕ := versionStart k + strtoulLength (buf.drop (versionStart k))

def minor : ℕ := strtoul 10 (buf.drop (majorEnd buf k + 1))

def minorEnd : ℕ := majorEnd buf k + 1 + strtoulLength (buf.drop (majorEnd buf k + 1))

def versionOf : ℕ := major buf k <<< 8 + minor buf k

end numbers

/-- What the numbers behind a name lead to. -/
inductive Reading
  | aborted
  | outOfBounds
  | skipped
  | found
deriving DecidableEq

/-- Reading the two numbers, with or without assertions. The second one is read behind the
character that ends the first one. -/
def reading (asserts : Bool) (bufSize : ℕ) (buf : Buf) (k : ℕ) : Reading :=
  if 256 ≤ major buf k then if asserts then .aborted else .skipped
  else if bufSize < majorEnd buf k + 1 then .outOfBounds
  else if 256 ≤ minor buf k then if asserts then .aborted else .skipped
  else if versionOf buf k = 0 then .skipped
  else .found

/-- The version, where the extra version begins unless it is empty, and the buffer. -/
inductive Ending
  | outOfBounds
  | aborted
  | returned (version : ℕ) (ext : Option ℕ) (buf : Buf)
deriving DecidableEq

section edit
variable (bufSize : ℕ) (buf : Buf) (i p : ℕ)

/-- The loop that compares the version with what follows it; none where it leaves the buffer. -/
def dupLoop : ℕ → ℕ → Option ℕ
  | 0,_ => none
  | fuel + 1,j =>
    if bufSize < p + 1 + j then none
    else if charAt buf (i + j) = charAt buf (p + 1 + j) ∧ charAt buf (i + j) ≠ ' ' then
      dupLoop fuel (j + 1)
    else some j

def isTail (c : Char) : Bool := c == ' ' || c == '*'

/-- The loop over the last characters, from an index down; the slash stays. -/
def trimLoop : ℕ → Buf → Buf
  | 0,buf => buf
  | j + 1,buf =>
    if isTail (charAt buf (p + (j + 1))) then trimLoop j (buf.set (p + (j + 1)) nul) else buf

/-- The loop over the unauthorized characters. -/
def replaceAt (j : ℕ) (buf : Buf) : Buf :=
  unauthorized.foldl (fun buf u => if charAt buf (p + j) = u then buf.set (p + j) '_' else buf) buf

def strlen : ℕ := (cstr buf p).length

/-- The loop over the characters behind the slash. -/
def sanitizeLoop : ℕ → ℕ → Buf → Buf
  | 0,_,buf => buf
  | fuel + 1,j,buf => if j < strlen buf p then sanitizeLoop fuel (j + 1) (replaceAt p j buf) else buf

/-- What is made of the string from the end of the version on. -/
def extraVersion (version : ℕ) : Ending :=
  let buf := buf.set p '/'
  match dupLoop bufSize buf i p (bufSize + 1) 0 with
  | none => .outOfBounds
  | some j =>
    let j := if charAt buf (p + j + 1) = '-' then j + 1 else j
    let buf := if 4 ≤ j then buf.set (p + j) '/' else buf
    let p := if 4 ≤ j then p + j else p
    if nul ∉ buf.drop p then .outOfBounds
    else
      let buf := trimLoop p (strlen buf p - 1) buf
      let buf := sanitizeLoop p (strlen buf p) 1 buf
      .returned version (if charAt buf (p + 1) = nul then none else some p) buf

end edit

section scan
variable (asserts : Bool) (bufSize : ℕ) (buf : Buf)

def scanLoop : ℕ → ℕ → Ending
  | 0,_ => .returned 0 none buf
  | fuel + 1,k =>
    if k < bufSize - 64 then
      if isName buf k then
        match reading asserts bufSize buf k with
        | .aborted => .aborted
        | .outOfBounds => .outOfBounds
        | .skipped => scanLoop fuel (versionStart k + 1)
        | .found => extraVersion bufSize buf (versionStart k) (minorEnd buf k) (versionOf buf k)
      else scanLoop fuel (k + 1)
    else .returned 0 none buf

end scan

def getSyslinuxVersion (asserts : Bool) (data : List Char) : Ending :=
  let buf := terminated data
  if data.length < 256 then .returned 0 none buf
  else scanLoop asserts data.length buf data.length 64

section Specification

/-- A name with two numbers, a point between them. -/
structure Marker (buf : Buf) (k : ℕ) : Prop where
  name : isName buf k = true
  first : versionStart k < majorEnd buf k
  point : charAt buf (majorEnd buf k) = '.'
  second : majorEnd buf k + 1 < minorEnd buf k
  major : major buf k < 256
  minor : minor buf k < 256
  nonzero : versionOf buf k ≠ 0

/-- The first one from offset 64 on. -/
def FirstMarker (buf : Buf) (k : ℕ) : Prop :=
  64 ≤ k ∧ Marker buf k ∧ ∀ j < k, 64 ≤ j → ¬ Marker buf j

def clean (c : Char) : Char := if unauthorized.contains c then '_' else c

/-- The extra version at an index is a part of the string of a marker. -/
structure PartOf (buf : Buf) (k : ℕ) (buf' : Buf) (p : ℕ) : Prop where
  slash : charAt buf' p = '/'
  nonempty : cstr buf' (p + 1) ≠ []
  behind : versionStart k ≤ p
  ahead : p + 1 + (cstr buf' (p + 1)).length ≤ versionStart k + (cstr buf (versionStart k)).length
  text : cstr buf' (p + 1) = ((buf.drop (p + 1)).take (cstr buf' (p + 1)).length).map clean
  authorized : ∀ c ∈ cstr buf' (p + 1), c ∉ unauthorized
  trimmed : (cstr buf' (p + 1)).getLast? ≠ some ' '

/-- What the function may do with a buffer. -/
def Sound (buf : Buf) : Ending → Prop
  | .outOfBounds => False
  | .aborted => True
  | .returned version ext buf' => version ≠ 0 →
    ∃ k, FirstMarker buf k ∧ version = 256 * major buf k + minor buf k ∧
      ∀ p, ext = some p → PartOf buf k buf' p

end Specification

end SecureWipeOut.SyslinuxVersion
