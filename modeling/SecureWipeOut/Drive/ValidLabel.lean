import SecureWipeOut.Drive.HumanReadable
import SecureWipeOut.Lib.Encodings

/-! # Labels of volumes

`ToValidLabel` changes a label in a copy of wide characters, which has room for the original
one only: characters are left out or replaced on the way, the result is cut, and one that is
mostly underscores is replaced by the size of the disk. What comes out is stored for the patches
of configuration files, and copied back as far as the original label reached.
-/
namespace SecureWipeOut.ValidLabel
open Nearest HumanReadable Encodings

/-- A label has no NUL in it. -/
structure Label where
  text : List Char
  isText : Char.ofNat 0 ∉ text

def Label.bytes (l : Label) : List UInt8 := l.text.flatMap String.utf8EncodeChar

def Label.units (l : Label) : List ℕ := l.text.flatMap wideChars

def unauthorized : List ℕ := "*?,;:/\\|+=<>[]\"".toList.map Char.toNat

def toUnderscore : List ℕ := "\t.".toList.map Char.toNat

def underscore : ℕ := '_'.toNat

def toupper (c : ℕ) : ℕ := if 97 ≤ c ∧ c ≤ 122 then c - 32 else c

/-- The character that is stored for a character, if one is. -/
def labelChar (bFAT : Bool) (c : ℕ) : Option ℕ :=
  if bFAT && unauthorized.contains c then none
  else if bFAT && decide (0x80 ≤ c) then some underscore
  else if toUnderscore.contains c then some underscore
  else some (if bFAT then toupper c else c)

/-- The copy, and whether all stores so far went inside it. -/
structure Wide where
  cells : List ℕ
  inside : Bool

def Wide.put (w : Wide) (i c : ℕ) : Wide := ⟨w.cells.set i c,w.inside && decide (i < w.cells.length)⟩

/-- The string in the copy. -/
def Wide.text (w : Wide) : List ℕ := w.cells.takeWhile (· != 0)

/-- The loop over the characters, which ends with the index of the terminator. -/
def mapLoop (bFAT : Bool) : ℕ → ℕ → ℕ → Wide → ℕ × Wide
  | 0,_,k,w => (k,w)
  | fuel + 1,i,k,w =>
    if i < w.text.length then
      match labelChar bFAT (w.cells.getD i 0) with
      | none => mapLoop bFAT fuel (i + 1) k w
      | some c => mapLoop bFAT fuel (i + 1) (k + 1) (w.put k c)
    else (k,w)

def sizeChar (c : Char) : ℕ := if c = '.' then underscore else c.toNat

/-- The loop that stores another label, and its terminator. -/
def putLabel : List Char → ℕ → Wide → Wide
  | [],i,w => w.put i 0
  | c :: label,i,w => putLabel label (i + 1) (w.put i (sizeChar c))

def isHigh (w : ℕ) : Bool := decide (0xD800 ≤ w) && decide (w < 0xDC00)

def isLow (w : ℕ) : Bool := decide (0xDC00 ≤ w) && decide (w < 0xE000)

/-- A code unit on its own; half a pair becomes the replacement character. -/
def unitToUtf8 (w : ℕ) : List UInt8 :=
  if isHigh w || isLow w then [0xEF,0xBF,0xBD] else String.utf8EncodeChar (Char.ofNat w)

def wcharToUtf8 : List ℕ → List UInt8
  | [] => []
  | [w] => unitToUtf8 w
  | w :: w' :: ws =>
    if isHigh w && isLow w' then
      String.utf8EncodeChar (Char.ofNat (0x10000 + (w - 0xD800) * 0x400 + (w' - 0xDC00))) ++
        wcharToUtf8 ws
    else unitToUtf8 w ++ wcharToUtf8 (w' :: ws)

/-- What a buffer of dst_max bytes holds after the copy. -/
def safeStrcpy (dstMax : ℕ) (src : List UInt8) : List UInt8 := src.take (dstMax - 1)

/-- The label and the stored one, and whether all stores went inside the copy. -/
structure Labelled where
  label : List UInt8
  usbLabel : List UInt8
  inside : Bool

/-- The label that the disk gets from its size, in a buffer of 16 bytes. -/
def sizeLabel (ties : Ties) (diskSize : UInt64) : List Char := (sizeToHumanReadable ties diskSize).take 15

def mostlyUnderscore (text : List ℕ) : Bool := decide (text.length < 2 * text.count underscore)

def toValidLabel (ties : Ties) (diskSize : UInt64) (l : Label) (bFAT : Bool) : Labelled :=
  let start : Wide := ⟨l.units ++ [0],true⟩
  let m := mapLoop bFAT start.cells.length 0 0 start
  let w := m.2.put m.1 0
  let limit := if bFAT then 11 else 32
  let w := if limit < w.text.length then w.put limit 0 else w
  let w := if bFAT && mostlyUnderscore w.text then putLabel (sizeLabel ties diskSize) 0 w else w
  let usbLabel := wcharToUtf8 w.text
  ⟨safeStrcpy (l.bytes.length + 1) usbLabel,usbLabel,w.inside⟩

/-- The characters that may stand in the label of a FAT volume. -/
def isFatChar (c : ℕ) : Bool :=
  decide (c < 0x80) && toupper c == c && !unauthorized.contains c

def FatLabel (label : List UInt8) : Prop := label.length ≤ 11 ∧ ∀ b ∈ label, isFatChar b.toNat = true

/-- What the function promises for a FAT volume. -/
structure Valid (r : Labelled) : Prop where
  label : FatLabel r.label
  same : r.label = r.usbLabel
  inside : r.inside = true

/-- What remains of a label for a FAT volume. -/
def fatText (l : Label) : List ℕ := (l.units.filterMap (labelChar true)).take 11

end SecureWipeOut.ValidLabel
