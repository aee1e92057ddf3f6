import SecureWipeOut.Lib.CInt
import SecureWipeOut.Lib.CText
import SecureWipeOut.Lib.Loop
import SecureWipeOut.Lib.Text

/-! # Certificate thumbprints

The model of `GetThumbprintEntries`, which reads one thumbprint from every line that begins
with enough hexadecimal digits. The rows are written digit by digit in place; their memory
is counted from the line breaks, in 32 bits.
-/
namespace SecureWipeOut.Thumbprints
open CInt CText Loop Text

def isHexAscii (c : Char) : Bool :=
  decide ('0' ≤ c ∧ c ≤ '9') || decide ('A' ≤ c ∧ c ≤ 'F') || decide ('a' ≤ c ∧ c ≤ 'f')

def fromHexAscii (c : Char) : UInt8 :=
  if '0' ≤ c ∧ c ≤ '9' then UInt8.ofNat (c.toNat - '0'.toNat)
  else if 'A' ≤ c ∧ c ≤ 'Z' then UInt8.ofNat (c.toNat - 'A'.toNat + 10)
  else if 'a' ≤ c ∧ c ≤ 'z' then UInt8.ofNat (c.toNat - 'a'.toNat + 10)
  else 0

def sha1HashSize : ℕ := 20

def lineEnd (c : Char) : Bool := c == '\n' || c == nul

/-- One turn of the loop that counts the line breaks, with a 32-bit index. -/
def countStep (text : Buf) (s : ℕ × ℕ) : (ℕ × ℕ) ⊕ ℕ :=
  if charAt text s.1 = nul then .inr s.2
  else .inl (dword (s.1 + 1),if charAt text s.1 = '\n' then dword (s.2 + 1) else s.2)

/-- The index, the number of rows committed, and the memory of all rows. -/
structure Scan where
  i : ℕ
  count : ℕ
  list : List UInt8

/-- A digit is shifted into its byte; none if the byte is not part of the memory. -/
def shiftIn (list : List UInt8) (k : ℕ) (c : Char) : Option (List UInt8) :=
  if k < list.length then some (list.set k (list.getD k 0 <<< 4 ||| fromHexAscii c)) else none

/-- The loop over the digits of a line, with the number of digits left up to the 40th. The
last one commits the row. -/
def digitLoop (text : Buf) : ℕ → Scan → Option Scan
  | 0, s => some s
  | left + 1, s =>
    let c := charAt text s.i
    if isHexAscii c = false then some s
    else
      let j := 2 * sha1HashSize - 1 - left
      (shiftIn s.list (sha1HashSize * s.count + j / 2) c).bind fun list =>
        digitLoop text left ⟨s.i + 1,if j = 2 * sha1HashSize - 1 then s.count + 1 else s.count,list⟩

/-- One turn of the loop over the lines; the text is shorter than what the index can count. -/
def thumbprintStep (text : Buf) (s : Scan) : Scan ⊕ Option Scan :=
  if charAt text s.i = nul then .inr (some s)
  else if charAt text s.i = '\n' then .inl { s with i := s.i + 1 }
  else if isHexAscii (charAt text s.i) = false then .inl { s with i := scan lineEnd text s.i }
  else
    match digitLoop text (2 * sha1HashSize) s with
    | none => .inr none
    | some s => .inl { s with i := scan lineEnd text s.i }

def Scan.rows (s : Scan) : List (List UInt8) :=
  (List.range s.count).map fun r => (s.list.drop (sha1HashSize * r)).take sha1HashSize

/-- The list of a text, the inner none standing for the null pointer. The outer one means
that a loop did not end or that a byte was written outside the rows; the memory for these
is assumed to be granted. -/
def getThumbprintEntries (text : Option Buf) : Option (Option (List (List UInt8))) :=
  match text with
  | none => some none
  | some text =>
    (run (countStep text) (text.length + 1) (0,1)).bind fun numEntries =>
      let rows := List.replicate (dword (numEntries * sha1HashSize)) (0 : UInt8)
      (run (thumbprintStep text) (text.length + 1) ⟨0,0,rows⟩).bind fun s =>
        s.map fun s => if s.count = 0 then none else some s.rows

section Specification

/-- The bytes that pairs of digits write. -/
def hexBytes : List Char → List UInt8
  | a :: b :: rest => (fromHexAscii a <<< 4 ||| fromHexAscii b) :: hexBytes rest
  | _ => []

/-- The digits that a line begins with, up to the 40th. -/
def lineDigits (l : Line) : Line := (l.takeWhile isHexAscii).take (2 * sha1HashSize)

def lineThumbprint (l : Line) : Option (List UInt8) :=
  if (lineDigits l).length = 2 * sha1HashSize then some (hexBytes (lineDigits l)) else none

/-- The thumbprints of the lines that begin with at least 40 digits. -/
def thumbprints (text : List Char) : List (List UInt8) := (text.splitOn '\n').filterMap lineThumbprint

/-- The end of the bytes that the digits of a line take up, behind a number of rows. -/
def lineReach (k : ℕ) (l : Line) : ℕ :=
  if lineDigits l = [] then 0 else sha1HashSize * k + ((lineDigits l).length + 1) / 2

/-- The end of the bytes that all lines take up. -/
def reach : ℕ → List Line → ℕ
  | _, [] => 0
  | k, l :: ls => max (lineReach k l) (reach (k + (lineThumbprint l).toList.length) ls)

/-- The list of the thumbprints in order, the null pointer if there are none. -/
def Exact (text : List Char) : Prop :=
  getThumbprintEntries (some text) =
    some (if thumbprints text = [] then none else some (thumbprints text))

end Specification

end SecureWipeOut.Thumbprints
