import Mathlib.Tactic

/-! # The bytes of a text file

A text file holds the bytes of its characters behind a byte order mark, which tells the encoding;
a file without one has a byte for each character. The bytes are read in units of one byte or of
two, and the units are left out that begin in a given way.
-/
namespace SecureWipeOut.Encodings

inductive Encoding
  | ansi
  | utf8
  | utf16le
deriving DecidableEq

/-- The code units of a character in UTF-16. -/
def wideChars (c : Char) : List ℕ :=
  if c.toNat < 0x10000 then [c.toNat]
  else [0xD800 + (c.toNat - 0x10000) / 0x400,0xDC00 + (c.toNat - 0x10000) % 0x400]

def charUnits : Encoding → Char → List (List UInt8)
  | .ansi,c => [[UInt8.ofNat c.toNat]]
  | .utf8,c => (String.utf8EncodeChar c).map fun b => [b]
  | .utf16le,c => (wideChars c).map fun w => [UInt8.ofNat w,UInt8.ofNat (w / 256)]

/-- The units of the byte order mark. -/
def markUnits : Encoding → List (List UInt8)
  | .ansi => []
  | .utf8 => [[0xEF],[0xBB],[0xBF]]
  | .utf16le => [[0xFF,0xFE]]

def units (e : Encoding) (text : List Char) : List (List UInt8) := markUnits e ++ text.flatMap (charUnits e)

def encode (e : Encoding) (text : List Char) : List UInt8 := (units e text).flatten

/-- The characters that a file of an encoding can hold. -/
def fits : Encoding → Char → Bool
  | .ansi,c => decide (c.toNat < 256)
  | _,_ => true

/-- The number of bytes of a unit. -/
def unitSize : Encoding → ℕ
  | .utf16le => 2
  | _ => 1

/-- Reading unit by unit and leaving out the units that begin with some byte. What remains at the
end and is no unit is not read. -/
def dropUnits (size : ℕ) (drop : UInt8 → Bool) (bytes : List UInt8) : List UInt8 :=
  if _h : size = 0 ∨ bytes.length < size then []
  else
    let unit := bytes.take size
    (if unit.head?.any drop then [] else unit) ++ dropUnits size drop (bytes.drop size)
  termination_by bytes.length
  decreasing_by
    rw [List.length_drop]
    omega

section Units

theorem unitSize_pos (e : Encoding) : 0 < unitSize e := by
  cases e <;> decide

theorem length_of_mem_units {e : Encoding} {text : List Char} : ∀ u ∈ units e text, u.length = unitSize e := by
  intro u hu
  have hmarks : ∀ u ∈ markUnits e, u.length = unitSize e := by
    cases e <;> decide
  rcases List.mem_append.mp hu with hmark | htext
  · exact hmarks u hmark
  · obtain ⟨c,-,hc⟩ := List.mem_flatMap.mp htext
    cases e with
    | ansi => rw [List.mem_singleton.mp hc]; rfl
    | utf8 => obtain ⟨b,-,rfl⟩ := List.mem_map.mp hc; rfl
    | utf16le => obtain ⟨w,-,rfl⟩ := List.mem_map.mp hc; rfl

theorem dropUnits_flatten {size : ℕ} (hpos : 0 < size) (drop : UInt8 → Bool) {us : List (List UInt8)}
    (hus : ∀ u ∈ us, u.length = size) :
    dropUnits size drop us.flatten = (us.filter fun u => !u.head?.any drop).flatten := by
  induction us with
  | nil =>
    rw [dropUnits,dif_pos]
    · rfl
    · exact Or.inr hpos
  | cons u us ih =>
    have hlen := hus u List.mem_cons_self
    rw [dropUnits,dif_neg]
    · dsimp only
      rw [List.flatten_cons,← hlen,List.take_left,List.drop_left,hlen,ih fun v hv => hus v (List.mem_cons_of_mem _ hv)]
      cases hdrop : u.head?.any drop with
      | true => rw [if_pos rfl,List.filter_cons_of_neg (by simp [hdrop])]; rfl
      | false => rw [if_neg Bool.false_ne_true,List.filter_cons_of_pos (by simp [hdrop]),List.flatten_cons]
    · rw [List.flatten_cons,List.length_append]
      omega

/-- What is read unit by unit is the whole file. -/
theorem dropUnits_encode_none (e : Encoding) (text : List Char) :
    dropUnits (unitSize e) (fun _ => false) (encode e text) = encode e text := by
  have hall : ∀ u ∈ units e text, (!u.head?.any fun _ => false) = true := by
    intro u _
    cases u.head? <;> rfl
  rw [encode,dropUnits_flatten (unitSize_pos e) _ length_of_mem_units,List.filter_eq_self.mpr hall]

end Units

section CarriageReturn

def cr : UInt8 := 0x0D

/-- No unit of another character than a carriage return begins like one. -/
def Plain (c : Char) : Prop := c = '\r' ∨ ∀ w ∈ wideChars c, w % 256 ≠ 13

instance : DecidablePred Plain := fun c => inferInstanceAs (Decidable (c = '\r' ∨ ∀ w ∈ wideChars c, w % 256 ≠ 13))

theorem ofNat_eq_cr {n : ℕ} : UInt8.ofNat n = cr ↔ n % 256 = 13 := by
  rw [← UInt8.toNat_inj,UInt8.toNat_ofNat']
  rfl

theorem toNat_eq_thirteen {c : Char} : c.toNat = 13 ↔ c = '\r' := by
  refine ⟨fun h => ?_,fun h => h ▸ rfl⟩
  rw [← Char.ofNat_toNat c,h]

/-- No byte of another character is a carriage return. -/
theorem cr_notMem_utf8 {c : Char} (hc : c ≠ '\r') : cr ∉ String.utf8EncodeChar c := by
  have hval : c.val.toNat ≠ 13 := fun h => hc (toNat_eq_thirteen.mp h)
  intro hmem
  unfold String.utf8EncodeChar at hmem
  dsimp only at hmem
  split at hmem
  · simp only [List.mem_cons,List.not_mem_nil,or_false,eq_comm (a := cr),ofNat_eq_cr] at hmem
    omega
  split at hmem
  · simp only [List.mem_cons,List.not_mem_nil,or_false,eq_comm (a := cr),ofNat_eq_cr] at hmem
    omega
  split at hmem
  · simp only [List.mem_cons,List.not_mem_nil,or_false,eq_comm (a := cr),ofNat_eq_cr] at hmem
    omega
  · simp only [List.mem_cons,List.not_mem_nil,or_false,eq_comm (a := cr),ofNat_eq_cr] at hmem
    omega

/-- No unit of another character begins with the byte of a carriage return. -/
theorem head_charUnits {e : Encoding} {c : Char} (hc : c ≠ '\r') (hfits : fits e c = true) (hplain : e = .utf16le → Plain c) :
    ∀ u ∈ charUnits e c, u.head? ≠ some cr := by
  intro u hu hhead
  cases e with
  | ansi =>
    rw [List.mem_singleton.mp hu] at hhead
    have hlt : c.toNat < 256 := of_decide_eq_true hfits
    have hmod := ofNat_eq_cr.mp (Option.some.inj hhead)
    rw [Nat.mod_eq_of_lt hlt] at hmod
    exact hc (toNat_eq_thirteen.mp hmod)
  | utf8 =>
    obtain ⟨b,hb,rfl⟩ := List.mem_map.mp hu
    rw [Option.some.inj hhead] at hb
    exact cr_notMem_utf8 hc hb
  | utf16le =>
    obtain ⟨w,hw,rfl⟩ := List.mem_map.mp hu
    exact (hplain rfl).resolve_left hc w hw (ofNat_eq_cr.mp (Option.some.inj hhead))

theorem keeps_iff {u : List UInt8} : (!u.head?.any fun b => b == cr) = true ↔ u.head? ≠ some cr := by
  cases u.head? <;> simp

/-- Leaving out the units that begin like a carriage return leaves out the carriage returns. -/
theorem dropUnits_encode {e : Encoding} {text : List Char} (hfits : ∀ c ∈ text, fits e c = true)
    (hplain : e = .utf16le → ∀ c ∈ text, Plain c) :
    dropUnits (unitSize e) (fun b => b == cr) (encode e text) = encode e (text.filter (· != '\r')) := by
  have hmark : (markUnits e).filter (fun u => !u.head?.any fun b => b == cr) = markUnits e := by
    cases e <;> decide
  have htext : (text.flatMap (charUnits e)).filter (fun u => !u.head?.any fun b => b == cr) =
      (text.filter (· != '\r')).flatMap (charUnits e) := by
    induction text with
    | nil => rfl
    | cons c text ih =>
      rw [List.flatMap_cons,List.filter_append,
        ih (fun d hd => hfits d (List.mem_cons_of_mem _ hd)) fun he d hd => hplain he d (List.mem_cons_of_mem _ hd)]
      by_cases hc : c = '\r'
      · have hreturn : (charUnits e '\r').filter (fun u => !u.head?.any fun b => b == cr) = [] := by
          cases e <;> decide
        rw [hc,hreturn]
        rfl
      · have hhead := head_charUnits hc (hfits c List.mem_cons_self) fun he => hplain he c List.mem_cons_self
        rw [List.filter_eq_self.mpr fun u hu => keeps_iff.mpr (hhead u hu),List.filter_cons_of_pos (by simpa using hc),
          List.flatMap_cons]
  rw [encode,dropUnits_flatten (unitSize_pos e) _ length_of_mem_units,units,List.filter_append,hmark,htext]
  rfl

end CarriageReturn

end SecureWipeOut.Encodings
