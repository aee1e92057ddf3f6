import SecureWipeOut.Lib.Base128
import SecureWipeOut.Lib.CText

/-! # Object identifiers of a text

`oid_from_str` converts the dotted form of an object identifier to its encoding. A string is the
list of the characters before its NUL, and `unsigned long` has 32 bits.
-/
namespace SecureWipeOut.Oid
open CText Base128

section Model

def flagStep (st : Bool × ℕ × List UInt8) (shift : ℕ) : Bool × ℕ × List UInt8 :=
  if st.1 || decide (1 <<< shift ≤ st.2.1) then
    (true,st.2.1 - (st.2.1 >>> shift) <<< shift,st.2.2 ++ [UInt8.ofNat (0x80 ||| (st.2.1 >>> shift))])
  else st

/-- The buffer with the bytes appended, its length being `buf_len`. -/
def makeFlaggedInt (value : ℕ) (buf : List UInt8) : List UInt8 :=
  let st := [28,21,14,7].foldl flagStep (false,value,buf)
  st.2.2 ++ [UInt8.ofNat st.2.1]

/-- What `strtoul` reads behind blanks and a sign. -/
def unsigned (s : List Char) : List Char :=
  match s.dropWhile isSpace with
  | '-' :: s' => s'
  | '+' :: s' => s'
  | s' => s'

/-- Where `strtoul` with base 10 stops. -/
def endp (s : List Char) : List Char :=
  if (unsigned s).head?.any Char.isDigit then (unsigned s).dropWhile Char.isDigit else s

/-- How the loop ends: the arcs read, the bytes written and whether it went to `err`. -/
structure Run where
  arcno : ℕ
  oid : List UInt8
  err : Bool

/-- The branches of the loop behind the checks of an arc; `none` is `goto err`. -/
def oidArc (arcno val1 val : ℕ) (oid : List UInt8) : Option (ℕ × List UInt8) :=
  if arcno = 1 then some (val,oid)
  else if arcno = 2 then
    if val1 < 2 then
      if 39 < val then none else some (val1,oid ++ [UInt8.ofNat (val1 * 40 + val)])
    else some (val1,makeFlaggedInt ((val + 80) % 2 ^ 32) oid)
  else some (val1,makeFlaggedInt val oid)

theorem length_unsigned_le (s : List Char) : (unsigned s).length ≤ s.length := by
  have hblank := List.length_dropWhile_le isSpace s
  unfold unsigned
  split
  next s' h =>
    rw [h,List.length_cons] at hblank
    omega
  next s' h =>
    rw [h,List.length_cons] at hblank
    omega
  next => exact hblank

theorem length_endp_le (s : List Char) : (endp s).length ≤ s.length := by
  unfold endp
  split
  · exact (List.length_dropWhile_le _ _).trans (length_unsigned_le s)
  · exact le_rfl

/-- The loop over the arcs, `arcno` of which have come before. -/
def oidLoop (arcno val1 : ℕ) (oid : List UInt8) (s : List Char) : Run :=
  let arcno := arcno + 1
  let val := strtoul 10 s
  if !(s.head?.any Char.isDigit) || !((endp s).head?.all fun c => c == '.') then ⟨arcno,oid,true⟩
  else if arcno = 1 ∧ 2 < val then ⟨arcno,oid,false⟩
  else
    match oidArc arcno val1 val oid with
    | none => ⟨arcno,oid,true⟩
    | some (val1,oid) =>
      if _h : (endp s).head? = some '.' then oidLoop arcno val1 oid (endp s).tail else ⟨arcno,oid,false⟩
  termination_by s.length
  decreasing_by
    have hle := length_endp_le s
    have hpos : 0 < (endp s).length := List.length_pos_of_ne_nil (by intro h0; simp [h0] at _h)
    rw [List.length_tail]
    omega

/-- The bytes that a call writes to its buffer. -/
def written (oidStr : List Char) : List UInt8 := (oidLoop 0 0 [] oidStr).oid

def oidFromStr (oidStr : Option (List Char)) : Option (List UInt8) :=
  match oidStr with
  | none => none
  | some [] => none
  | some oidStr =>
    let run := oidLoop 0 0 [] oidStr
    if run.err ∨ run.arcno = 1 ∨ run.oid.length < 2 ∨ 254 < run.oid.length then none else some run.oid

end Model

section Specification

def decimal (num : List Char) : Option ℕ :=
  if num ≠ [] ∧ num.all Char.isDigit then some (digits 10 num) else none

/-- The arcs of a dotted text. -/
def arcsOf (text : List Char) : Option (List ℕ) := (text.splitOn '.').mapM decimal

/-- The first two arcs make one number. -/
def combined : List ℕ → List ℕ
  | a :: b :: rest => (40 * a + b) :: rest
  | _ => []

/-- The arcs that the numbers of an encoding stand for. -/
def separated : List ℕ → List ℕ
  | v :: rest => min 2 (v / 40) :: (v - 40 * min 2 (v / 40)) :: rest
  | [] => []

/-- The arcs that an object identifier may have. -/
def allowed : List ℕ → Bool
  | a :: b :: _ => decide (a ≤ 2) && (decide (2 ≤ a) || decide (b ≤ 39))
  | _ => false

def contents (arcs : List ℕ) : List UInt8 := (combined arcs).flatMap encode

/-- The texts that are to be converted. -/
structure Encodable (arcs : List ℕ) : Prop where
  allowed : allowed arcs = true
  lt : ∀ n ∈ combined arcs, n < 2 ^ 32
  two_le : 2 ≤ (contents arcs).length
  le : (contents arcs).length ≤ 254

/-- What is asked of the conversion of a text. -/
structure Converts (text : List Char) : Prop where
  result : ∀ arcs, arcsOf text = some arcs → Encodable arcs → oidFromStr (some text) = some (contents arcs)
  decoded : ∀ arcs, arcsOf text = some arcs → Encodable arcs → separated (decode 0 (contents arcs)) = arcs
  minimal : ∀ arcs, arcsOf text = some arcs → Encodable arcs → minimal true (contents arcs) = true
  rejected : (∀ arcs, arcsOf text = some arcs → ¬Encodable arcs) → oidFromStr (some text) = none
  bounded : (written text).length ≤ text.length + 3

/-- The number of bytes that are counted for the arcs when one of 2 ^ 32 or more counts as the
five bytes of the largest number, and the first two arcs as one byte. -/
def clampedLength : List ℕ → ℕ
  | a :: b :: rest =>
    (if 2 ^ 32 ≤ 40 * a + b then 1 else (encode (40 * a + b)).length) +
      (rest.map fun n => if 2 ^ 32 ≤ n then 5 else (encode n).length).sum
  | _ => 0

/-- An arc is too large, and yet the number of bytes is one that can be. -/
def Clamped (text : List Char) : Prop :=
  ∃ arcs, arcsOf text = some arcs ∧ allowed arcs = true ∧ (∃ n ∈ combined arcs, 2 ^ 32 ≤ n) ∧
    2 ≤ clampedLength arcs ∧ clampedLength arcs ≤ 254

end Specification

end SecureWipeOut.Oid
