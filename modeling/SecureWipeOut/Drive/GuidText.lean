import SecureWipeOut.Drive.ToggleEspRoundTrip
import SecureWipeOut.Lib.ScanFormat

/-! # A GUID read from text, byte by byte

`StringToGuid` has every field of its static GUID filled by a conversion for an unsigned
int, which stores four bytes. Those behind a narrower field belong to the next ones, and
the last field's are behind the GUID.
-/
namespace SecureWipeOut.ToggleEsp
open Bytes HexFormat ScanFormat

/-- The fields in the memory of a GUID. -/
def guidAt (m : ℕ → UInt8) : Guid :=
  ⟨UInt32.ofNat (readDword m 0),UInt16.ofNat (readWord m 4),UInt16.ofNat (readWord m 6),
    fun i => m (8 + i)⟩

def guidFields : List Directive :=
  [.literal '{',.hex 8 0,.literal '-',.hex 4 4,.literal '-',.hex 4 6,.literal '-',.hex 2 8,.hex 2 9,
    .literal '-',.hex 2 10,.hex 2 11,.hex 2 12,.hex 2 13,.hex 2 14,.hex 2 15]

def guidFormat : List Directive := guidFields ++ [.literal '}']

/-- The text converted into memory that holds anything: whether the GUID is returned, and
the memory. -/
def stringToGuidAt (m : ℕ → UInt8) (s : List Char) : Bool × (ℕ → UInt8) :=
  let r := sscanf guidFormat s m
  (r.1 == 11,r.2)

/-- The fields made of eleven values. -/
def guidOfValues (vs : List ℕ) : Guid :=
  ⟨UInt32.ofNat (vs.getD 0 0),UInt16.ofNat (vs.getD 1 0),UInt16.ofNat (vs.getD 2 0),
    fun i => UInt8.ofNat ((vs.drop 3).getD i 0)⟩

/-- The fields are those of the values, once all of them could be read. -/
theorem bind_scanAll_guidFields (s : List Char) :
    ((scanAll guidFields s).bind fun vs => some (guidOfValues vs)) = stringToGuid s := by
  refine bind_scanAll_literal (fun s => bind_scanAll_hex (fun a => ?_) _ _ _) _ _
  refine bind_scanAll_literal (fun s => bind_scanAll_hex (fun b => ?_) _ _ _) _ _
  refine bind_scanAll_literal (fun s => bind_scanAll_hex (fun c => ?_) _ _ _) _ _
  refine bind_scanAll_literal (fun s => bind_scanAll_hex (fun d0 => ?_) _ _ _) _ _
  refine bind_scanAll_hex (fun d1 => ?_) _ _ _
  refine bind_scanAll_literal (fun s => bind_scanAll_hex (fun d2 => ?_) _ _ _) _ _
  refine bind_scanAll_hex (fun d3 => bind_scanAll_hex (fun d4 => ?_) _ _ _) _ _ _
  refine bind_scanAll_hex (fun d5 => bind_scanAll_hex (fun d6 => ?_) _ _ _) _ _ _
  exact bind_scanAll_hex (fun d7 => rfl) _ _ _

/-- What the stores leave in the fields, whatever was there before. -/
theorem guidAt_storeAll (m : ℕ → UInt8) {vs : List ℕ} (h : vs.length = 11) :
    guidAt (storeAll m ((places guidFields).zip vs)) = guidOfValues vs := by
  have hlen : (places guidFields).length = vs.length := h.symm
  refine Guid.ext ?_ ?_ ?_ (funext fun i => ?_)
  · have hfield := readDword_storeAll hlen (k := 0) (by decide) m (by decide)
    exact (congrArg UInt32.ofNat hfield).trans (UInt32.ofNat_mod_size)
  · have hfield := readWord_storeAll hlen (k := 1) (by decide) m (by decide)
    exact (congrArg UInt16.ofNat hfield).trans (UInt16.ofNat_mod_size)
  · have hfield := readWord_storeAll hlen (k := 2) (by decide) m (by decide)
    exact (congrArg UInt16.ofNat hfield).trans (UInt16.ofNat_mod_size)
  · have hlater : ∀ i : Fin 8, 3 + i.val < (places guidFields).length ∧
        (∀ o ∈ (places guidFields).drop (3 + i + 1), (places guidFields).getD (3 + i) 0 + 0 < o) ∧
        (places guidFields).getD (3 + i) 0 + 0 = 8 + i := by decide
    obtain ⟨hk,hlater,hoff⟩ := hlater i
    have hfield := storeAll_byte hlen hk (by decide) hlater m
    rw [hoff] at hfield
    have hdrop : (vs.drop 3).getD i 0 = vs.getD (3 + i) 0 := by simp [List.getD_eq_getElem?_getD]
    exact hfield.trans (congrArg UInt8.ofNat hdrop.symm)

/-- What the static GUID held before does not matter: what comes out is what the fields
alone give. -/
theorem stringToGuidAt_eq (m : ℕ → UInt8) (s : List Char) :
    (if (stringToGuidAt m s).1 then some (guidAt (stringToGuidAt m s).2) else none) = stringToGuid s := by
  have hplaces : (places guidFields).length = 11 := rfl
  have hall := scanAll_eq (Or.inr (show endsInHex guidFields = true from rfl)) s
  rw [hplaces] at hall
  rw [← bind_scanAll_guidFields,hall,stringToGuidAt,guidFormat,sscanf_concat_literal,sscanf_eq]
  by_cases hlen : (converted guidFields s).length = 11
  · rw [if_pos (beq_iff_eq.mpr hlen),if_pos hlen,Option.bind_some,guidAt_storeAll m hlen]
  · rw [if_neg (fun h => hlen (beq_iff_eq.mp h)),if_neg hlen,Option.bind_none]

/-- The text of a GUID gives the GUID back, whatever the memory held. -/
theorem guidToString_roundTrip (g : Guid) (m : ℕ → UInt8) :
    (stringToGuidAt m (guidToString g)).1 = true ∧
      guidAt (stringToGuidAt m (guidToString g)).2 = g := by
  have h := (stringToGuidAt_eq m (guidToString g)).trans (stringToGuid_guidToString g)
  split at h
  · next hok => exact ⟨hok,Option.some.inj h⟩
  · cases h

end SecureWipeOut.ToggleEsp
