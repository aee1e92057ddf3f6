import SecureWipeOut.Lib.CText
import SecureWipeOut.Lib.TextFile

/-! # Token files

The settings of the application are kept in a text file of lines `token = data`. The
reader takes lines of the form `[ ][<][ ]token[ ][=|>][ ]["]data["][ ][<]`; the writer
copies the file, replaces the data of every line `[ ]token[ ]=[ ]data` of its token and
appends a line when there is none. Both read the file through a buffer of 1024
characters. A text is the list of its wide characters.
-/
namespace SecureWipeOut.TokenFile

open CText TextFile

/-- The characters of `wspace`. -/
def wspace (c : Char) : Bool := c == ' ' || c == '\t'

/-- The step `i += wcsspn(&s[i], wspace)`, on the text that remains. -/
def skip (s : List Char) : List Char := s.dropWhile wspace

/-- The test `_wcsnicmp(s, t, wcslen(t)) == 0`. -/
def wcsnicmp (s t : List Char) : Bool := (s.take t.length).map Char.toLower == t.map Char.toLower

section Reader

/-- What `get_token_data_line` skips ahead of the token. -/
def skipOpening (wline : List Char) : List Char :=
  match skip wline with
  | '<' :: s => skip s
  | s => skip s

/-- The condition of the loop that locates the end of the data: a quote ends data that
began with one, and `<` ends the data of `token>`. -/
def inData (quoteth xml : Bool) (c : Char) : Bool :=
  (c != '"' && c != '<') || (c == '"' && !quoteth) || (c == '<' && !xml)

def isEol (c : Char) : Bool := c == '\r' || c == '\n'

def dataText (quoteth xml : Bool) (s : List Char) : Option (List Char) :=
  let text := (s.takeWhile (inData quoteth xml)).rdropWhile isEol
  if text.isEmpty then none else some text

def dataField (xml : Bool) (s : List Char) : Option (List Char) :=
  match skip s with
  | '"' :: s => dataText true xml s
  | s => dataText false xml s

/-- The check for the sign that follows the token. -/
def signedField : List Char → Option (List Char)
  | '>' :: s => dataField true s
  | '=' :: s => dataField false s
  | _ => none

/-- `get_token_data_line`. -/
def getTokenDataLine (wtoken wline : List Char) : Option (List Char) :=
  let s := skipOpening wline
  if wcsnicmp s wtoken then signedField (skip (s.drop wtoken.length)) else none

/-- The loop of the reader: `i` values of the token have come before. -/
def findIndexed (wtoken : List Char) (index : ℤ) : ℤ → List (List Char) → Option (List Char)
  | _, [] => none
  | i, buf :: bufs =>
    match getTokenDataLine wtoken buf with
    | none => findIndexed wtoken index i bufs
    | some wdata => if i + 1 = index then some wdata else findIndexed wtoken index (i + 1) bufs

/-- `get_token_data_file_indexed`, where `file` is what the file holds, if it can be opened. -/
def getTokenDataFileIndexed (token : List Char) (file : Option (List Char)) (index : ℤ) :
    Option (List Char) :=
  if token.isEmpty then none
  else file.bind fun stored => findIndexed token index 0 (fgets 1024 [] (load stored))

end Reader

section Writer

/-- What the writer keeps of a line whose data it replaces; none for the lines it copies. -/
def keptOf (wtoken buf : List Char) : Option (List Char) :=
  let s := skip buf
  if s.head? = some ';' ∨ s.head? = some '[' then none
  else if wcsnicmp s wtoken then
    match skip (s.drop wtoken.length) with
    | '=' :: s => some (buf.take (buf.length - (skip s).length))
    | _ => none
  else none

/-- The loop of the writer: the text written, and whether a line has been replaced. -/
def copyLines (wtoken wdata : List Char) : List Char × Bool → List (List Char) → List Char × Bool
  | st, [] => st
  | (out,ret), buf :: bufs =>
    match keptOf wtoken buf with
    | none => copyLines wtoken wdata (out ++ buf,ret) bufs
    | some kept => copyLines wtoken wdata (out ++ kept ++ wdata ++ ['\n'],true) bufs

/-- The line `%s = %s\n`. -/
def newLine (wtoken wdata : List Char) : List Char := wtoken ++ ' ' :: '=' :: ' ' :: wdata ++ ['\n']

/-- `set_token_data_file`: what the file holds after a successful call. -/
def setTokenDataFile (token data : List Char) (file : Option (List Char)) : Option (List Char) :=
  if token.isEmpty || data.isEmpty then none
  else file.map fun stored =>
    let st := copyLines token data ([],false) (fgets 1024 [] (load stored))
    store (if st.2 then st.1 else st.1 ++ newLine token data)

end Writer

section Domain

/-- The characters of a token. -/
def wordChar (c : Char) : Bool :=
  !wspace c && c != '=' && c != '<' && c != '>' && c != '"' && c != '\r' && c != '\n' && c != nul

/-- The names that callers give to settings. -/
structure Token where
  text : List Char
  nonempty : text ≠ []
  word : ∀ c ∈ text, wordChar c = true
  plain : text.head? ≠ some ';' ∧ text.head? ≠ some '['

def Token.fold (t : Token) : List Char := t.text.map Char.toLower

/-- Control-Z ends a text file ahead of its end. -/
def ctrlZ : Char := Char.ofNat 26

/-- The data of a setting: no line break, no quote, no leading blank. -/
structure Value where
  text : List Char
  nonempty : text ≠ []
  oneLine : '\r' ∉ text ∧ '\n' ∉ text
  noQuote : '"' ∉ text
  lead : ∀ c ∈ text.head?, wspace c = false
  isText : nul ∉ text ∧ ctrlZ ∉ text

/-- A text file with lines shorter than the line buffer. -/
structure ShortFile where
  stored : List Char
  short : ∀ l ∈ lines (load stored), l.length < 1024
  isText : nul ∉ stored ∧ ctrlZ ∉ stored

/-- The lines of a file. -/
def ShortFile.lines (f : ShortFile) : List (List Char) := TextFile.lines (load f.stored)

/-- The part of a file after its last line break. -/
def ShortFile.openLine (f : ShortFile) : List Char := TextFile.openLine (load f.stored)

end Domain

section Loops

variable (t : List Char)

/-- The values that a list of lines gives to a token. -/
def values (ls : List (List Char)) : List (List Char) := ls.filterMap (getTokenDataLine t)

/-- Lookups only depend on the values of the token. -/
theorem findIndexed_eq (index i : ℤ) (ls : List (List Char)) :
    findIndexed t index i ls = if i < index then (values t ls)[(index - i - 1).toNat]? else none := by
  induction ls generalizing i with
  | nil => simp [findIndexed,values]
  | cons l ls ih =>
    cases h : getTokenDataLine t l with
    | none => simp [findIndexed,h,ih,values]
    | some d =>
      have hv : values t (l :: ls) = d :: values t ls := by simp [values,h]
      rw [findIndexed,h,hv]
      by_cases hi : i + 1 = index
      · have hk : (index - i - 1).toNat = 0 := by omega
        simp [hi,hk,show i < index by omega]
      · simp only [hi,if_false,ih]
        by_cases hlt : i < index
        · have hk : (index - i - 1).toNat = (index - (i + 1) - 1).toNat + 1 := by omega
          rw [if_pos (by omega),if_pos hlt,hk,List.getElem?_cons_succ]
        · rw [if_neg (by omega),if_neg hlt]

theorem findIndexed_first (ls : List (List Char)) : findIndexed t 1 0 ls = (values t ls).head? := by
  rw [findIndexed_eq]
  simp [List.head?_eq_getElem?]

/-- A line after the writer has passed over it. -/
def rewrite (d buf : List Char) : List Char :=
  match keptOf t buf with
  | none => buf
  | some kept => kept ++ d ++ ['\n']

theorem copyLines_eq (d out : List Char) (ret : Bool) (ls : List (List Char)) :
    copyLines t d (out,ret) ls =
      (out ++ (ls.map (rewrite t d)).flatten, ret || ls.any fun l => (keptOf t l).isSome) := by
  induction ls generalizing out ret with
  | nil => simp [copyLines]
  | cons l ls ih =>
    cases h : keptOf t l with
    | none => simp [copyLines,h,ih,rewrite]
    | some kept => simp [copyLines,h,ih,rewrite]

end Loops

end SecureWipeOut.TokenFile
