import SecureWipeOut.Lib.CText
import SecureWipeOut.Lib.Search

/-! # Updating a list of MD5 sums

The loop of `UpdateMD5Sum` over the files that were modified looks for the name of each one in the
text and overwrites the sum at the start of the line where the name stands first. The hash of a
file is a parameter.
-/
namespace SecureWipeOut.Md5sum
open CText Search

local instance sumIndex : NeZero 16 := ⟨by decide⟩

section Model

def hexDigit (n : ℕ) : Char := Char.ofNat (if n < 10 then 48 + n else 87 + n)

def slashes (name : List Char) : List Char := name.map fun c => if c = '\\' then '/' else c

/-- The loop that goes back behind the line break before a place. -/
def lineStart (buf : Buf) : ℕ → ℕ
  | 0 => 0
  | pos + 1 => if charAt buf pos = '\n' then pos + 1 else lineStart buf pos

/-- The first rounds of the loop that writes the digits of a sum. -/
def writeSum (sum : Fin 16 → UInt8) (pos : ℕ) : ℕ → Buf → Buf
  | 0,buf => buf
  | j + 1,buf =>
    let buf := writeSum sum pos j buf
    let b := (sum (Fin.ofNat 16 j)).toNat
    (buf.set (pos + 2 * j) (hexDigit (b >>> 4))).set (pos + 2 * j + 1) (hexDigit (b &&& 15))

variable (hashFile : List Char → Fin 16 → UInt8)

/-- What the loop does about one file, whose name begins with a drive. -/
def updateFile (md5Data : Buf) (file : List Char) : Buf :=
  let file := slashes file
  match find (file.drop 2) (cstr md5Data 0) with
  | none => md5Data
  | some pos => writeSum (hashFile file) (lineStart md5Data pos) 16 md5Data

def updateSums (modifiedFiles : List (List Char)) (md5Data : Buf) : Buf := modifiedFiles.foldl (updateFile hashFile) md5Data

end Model

section Specification

def isHexAscii (c : Char) : Bool :=
  decide ('0' ≤ c ∧ c ≤ '9') || decide ('A' ≤ c ∧ c ≤ 'F') || decide ('a' ≤ c ∧ c ≤ 'f')

/-- A line of the list, which has the digits of a sum and a path behind `./`. -/
@[ext]
structure Line where
  md5 : List Char
  path : List Char
  length_md5 : md5.length = 32
  hex_md5 : md5.all isHexAscii = true
  path_line : '\n' ∉ path
  path_text : nul ∉ path

def Line.body (l : Line) : List Char := l.md5 ++ (' ' :: ' ' :: '.' :: '/' :: l.path)

/-- The text of a list; the last line may have no line break. -/
def render (closed : Bool) : List Line → List Char
  | [] => []
  | l :: ls => l.body ++ ((if closed || !ls.isEmpty then ['\n'] else []) ++ render closed ls)

/-- The name of a modified file: a drive, and a path whose separators are of either kind. The name
of a file has no line break. -/
structure Modified where
  drive : Char
  separator : Char
  rest : List Char
  separator_eq : separator = '/' ∨ separator = '\\'
  rest_line : '\n' ∉ rest
  rest_text : nul ∉ rest

def Modified.name (m : Modified) : List Char := m.drive :: ':' :: m.separator :: m.rest

def Modified.path (m : Modified) : List Char := slashes m.rest

/-- The digits of the first bytes of a sum. -/
def hexDigits (sum : Fin 16 → UInt8) (n : ℕ) : List Char :=
  (List.range n).flatMap fun j =>
    [hexDigit ((sum (Fin.ofNat 16 j)).toNat >>> 4),hexDigit ((sum (Fin.ofNat 16 j)).toNat &&& 15)]

def hexSum (sum : Fin 16 → UInt8) : List Char := hexDigits sum 16

/-- The lines as they should be: the sum of the last file modified with the path of the line, or
the line as it was. -/
def expected (hashFile : List Char → Fin 16 → UInt8) (modified : List Modified) (l : Line) : List Char :=
  match (modified.filter fun m => m.path = l.path).getLast? with
  | some m => hexSum (hashFile (slashes m.name))
  | none => l.md5

/-- Every line of the list has the sum that it should have. -/
def Updated (modified : List Modified) (lines : List Line) : Prop :=
  ∀ closed hashFile, ∃ lines' : List Line,
    updateSums hashFile (modified.map Modified.name) (render closed lines) = render closed lines' ∧
      lines'.map Line.path = lines.map Line.path ∧ lines'.map Line.md5 = lines.map (expected hashFile modified)

/-- The first line with the name of the file in it. -/
def hit (lines : List Line) (m : Modified) : Option ℕ :=
  lines.findIdx? fun l => decide ('/' :: m.path <:+: '/' :: l.path)

/-- For every line, the last file whose name is first found in this line is the last one with the
path of the line. -/
def Unmixed (modified : List Modified) (lines : List Line) : Prop :=
  ∀ (k : ℕ) (l : Line), lines[k]? = some l →
    (modified.filter fun m => hit lines m = some k).getLast?.map (fun m => slashes m.name) =
      (modified.filter fun m => m.path = l.path).getLast?.map fun m => slashes m.name

end Specification

end SecureWipeOut.Md5sum
