import SecureWipeOut.Lib.Encodings
import SecureWipeOut.Lib.Search
import SecureWipeOut.Parser.TokenFile

/-! # Replacing a text in the data of a token

`replace_in_token_data` copies a file line by line and replaces a text in the data of the lines
`[ ]token[ ]data`. The places are kept in an array, and so are the fragments between them, each of
which is ended by a NUL in the line buffer. The copy takes the place of the file when something
has been replaced, and loses its carriage returns then, unless they are wanted.
-/
namespace SecureWipeOut.TokenPatch
open CText TextFile TokenFile Search Encodings

section Model

def maxOccurrences : ℕ := 4

/-- The number of blanks at an index. -/
def wcsspn (buf : Buf) (i : ℕ) : ℕ := ((buf.drop i).takeWhile wspace).length

/-- The line buffer, the index in it, and the arrays of the fragments and of the places. -/
structure Split where
  buf : Buf
  i : ℕ
  p : ℕ → ℕ
  torep : ℕ → Option ℕ

/-- The loop that looks for the places, with the number of rounds that remain. -/
def splitLoop (wsrc : List Char) : ℕ → ℕ → Split → Split
  | 0,_,s => s
  | n + 1,j,s =>
    match find wsrc (cstr s.buf s.i) with
    | none => {s with torep := Function.update s.torep j none}
    | some k =>
      let place := s.i + k
      let i := place + wsrc.length
      splitLoop wsrc n (j + 1) ⟨s.buf.set place nul,i,Function.update s.p (j + 1) i,Function.update s.torep j (some place)⟩

/-- The loop that writes the fragments, each but the last one with the new text behind it. It ends
at the first place that is NULL, at the latest at the end of the array. -/
def fragments (wrep : List Char) (s : Split) : ℕ → ℕ → List (List Char)
  | 0,_ => []
  | n + 1,j =>
    match s.torep j with
    | none => [cstr s.buf (s.p j)]
    | some _ => (cstr s.buf (s.p j) ++ wrep) :: fragments wrep s n (j + 1)

/-- The arrays, which are not cleared between lines, what is written so far, and whether something
has been replaced. -/
structure Copy where
  p : ℕ → ℕ
  torep : ℕ → Option ℕ
  out : List Char
  ret : Bool

/-- A stream converts what is written to it up to the first character that it cannot hold. -/
def Copy.write (mode : Encoding) (c : Copy) (text : List Char) : Copy := {c with out := c.out ++ text.takeWhile (fits mode)}

/-- The body of the loop over the lines. -/
def copyLine (mode : Encoding) (wtoken wsrc wrep : List Char) (c : Copy) (line : Buf) : Copy :=
  let i := wcsspn line 0
  if !wcsnicmp (cstr line i) wtoken then c.write mode (cstr line 0)
  else
    let i := i + wtoken.length
    let ns := wcsspn line i
    if ns = 0 then c.write mode (cstr line 0)
    else
      let s := splitLoop wsrc maxOccurrences 0 ⟨line,i + ns,Function.update c.p 0 0,c.torep⟩
      let c := {c with p := s.p,torep := s.torep}
      if s.torep 0 = none then c.write mode (cstr s.buf 0)
      else {(fragments wrep s (maxOccurrences + 1) 0).foldl (Copy.write mode) c with ret := true}

/-- A file by its encoding and the characters that stand in it behind the byte order mark. -/
structure Stored where
  encoding : Encoding
  text : List Char

def Stored.bytes (f : Stored) : List UInt8 := encode f.encoding f.text

/-- The encoding that the first two bytes of a file tell. -/
def modeOf : List UInt8 → Option Encoding
  | 0xFF :: 0xFE :: _ => some .utf16le
  | 0xEF :: 0xBB :: _ => some .utf8
  | _ :: _ :: _ => some .ansi
  | _ => none

/-- `replace_in_token_data`: the bytes of the file when something has been replaced, and none when
NULL is returned and the file is left as it is. -/
def replaceInTokenData (file : Stored) (token src rep : List Char) (dos2unix : Bool) : Option (List UInt8) :=
  if token.isEmpty || src.isEmpty || src == rep then none
  else (modeOf file.bytes).bind fun mode =>
    let c := (fgets 1024 [] (load file.text)).foldl (copyLine mode token src rep) ⟨fun _ => 0,fun _ => none,[],false⟩
    if c.ret then some (dropUnits (unitSize mode) (fun b => dos2unix && b == cr) (encode mode (store c.out))) else none

end Model

section Specification

/-- What stands behind the token in a line that begins with it, if a blank follows. -/
def behindToken (token line : List Char) : Option (List Char) :=
  let s := skip line
  if wcsnicmp s token && (s.drop token.length).head?.any wspace then some (s.drop token.length) else none

/-- The first occurrences of a text that do not overlap are replaced from the left. -/
def replaceFirst (src rep : List Char) : ℕ → List Char → List Char
  | 0,s => s
  | n + 1,s =>
    match find src s with
    | none => s
    | some k => s.take k ++ (rep ++ replaceFirst src rep n (s.drop (k + src.length)))

/-- The data of a line of the token, which begins behind the blanks. -/
def dataOf (token line : List Char) : Option (List Char) := (behindToken token line).map skip

/-- The last part of a line with a text replaced. -/
def replaceBehind (src rep line rest : List Char) : List Char :=
  line.take (line.length - rest.length) ++ replaceFirst src rep maxOccurrences rest

/-- A line with the text replaced in its data. -/
def patchLine (token src rep line : List Char) : List Char := ((dataOf token line).map (replaceBehind src rep line)).getD line

/-- The data of the line has the text in it. -/
def hits (token src line : List Char) : Bool := (dataOf token line).any fun data => (find src data).isSome

/-- The file after the call. -/
def after (file : Stored) (token src rep : List Char) (dos2unix : Bool) : List UInt8 :=
  (replaceInTokenData file token src rep dos2unix).getD file.bytes

/-- A line with the text replaced anywhere behind the token. -/
def replaceLine (token src rep line : List Char) : List Char :=
  ((behindToken token line).map (replaceBehind src rep line)).getD line

/-- Nothing but the text behind the token and, if asked for, the carriage returns differs. -/
def ReplacesOnly (file : Stored) (token src rep : List Char) (dos2unix : Bool) : Prop :=
  let text := ((lines file.text).map (replaceLine token src rep)).flatten
  after file token src rep dos2unix = encode file.encoding (if dos2unix then text.filter (· != '\r') else text)

/-- A text file in one of the encodings, with lines that fit the line buffer, and what is asked
for. The first bytes of a file without a byte order mark are not those of one, and what happens to
the units that only begin like a carriage return when carriage returns are removed from UTF-16 is
left open. -/
structure Patch where
  file : Stored
  token : List Char
  src : List Char
  rep : List Char
  dos2unix : Bool
  token_ne : token ≠ []
  src_ne : src ≠ []
  src_ne_rep : src ≠ rep
  isText : nul ∉ file.text ∧ ctrlZ ∉ file.text
  short : ∀ l ∈ lines (load file.text), (l.flatMap wideChars).length < 1024
  unmarked : file.encoding = .ansi → modeOf file.bytes ≠ some .utf8 ∧ modeOf file.bytes ≠ some .utf16le
  file_fits : ∀ c ∈ file.text, fits file.encoding c = true
  rep_fits : ∀ c ∈ rep, fits file.encoding c = true
  plain : file.encoding = .utf16le → dos2unix = true → ∀ c, c ∈ file.text ∨ c ∈ rep → Plain c

/-- The lines that are read, whose ends are line feeds. -/
def Patch.lines (p : Patch) : List (List Char) := TextFile.lines (load p.file.text)

/-- The text with the replacements, its carriage returns removed or its line feeds stored as in a
text file. -/
def Patch.result (p : Patch) : List Char :=
  let text := (p.lines.map (patchLine p.token p.src p.rep)).flatten
  if p.dos2unix then text.filter (· != '\r') else store text

end Specification

end SecureWipeOut.TokenPatch
