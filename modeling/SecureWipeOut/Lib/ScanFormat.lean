import SecureWipeOut.Lib.Bytes
import SecureWipeOut.Lib.ByteStore
import SecureWipeOut.Lib.HexFormat

/-! # Conversions that store what they read

`scanf` with a format of literal characters and hexadecimal conversions, each of which
stores four bytes at the place it is given. Where the places are closer together than that,
a field keeps what was stored for it as long as the fields are filled from left to right.
-/
namespace SecureWipeOut.ScanFormat
open ByteStore Bytes HexFormat

/-- A character of the format, or a conversion of some width with the place of its value. -/
inductive Directive where
  | literal (c : Char)
  | hex (width off : ℕ)

/-- The value as four bytes, the lowest first. -/
def storeDword (m : ℕ → UInt8) (off v : ℕ) : ℕ → UInt8 :=
  overwrite m off 4 fun i => (dwordBytes v).getD i 0

/-- The number of conversions made, and the memory they leave. -/
def sscanf : List Directive → List Char → (ℕ → UInt8) → ℕ × (ℕ → UInt8)
  | [],_,m => (0,m)
  | .literal c :: ds,s,m =>
    match scanChar c s with
    | none => (0,m)
    | some s => sscanf ds s m
  | .hex w off :: ds,s,m =>
    match scanHex w s with
    | none => (0,m)
    | some (v,s) =>
      let r := sscanf ds s (storeDword m off v)
      (r.1 + 1,r.2)

/-- The values of the conversions made. -/
def converted : List Directive → List Char → List ℕ
  | [],_ => []
  | .literal c :: ds,s =>
    match scanChar c s with
    | none => []
    | some s => converted ds s
  | .hex w _ :: ds,s =>
    match scanHex w s with
    | none => []
    | some (v,s) => v :: converted ds s

def places : List Directive → List ℕ
  | [] => []
  | .literal _ :: ds => places ds
  | .hex _ off :: ds => off :: places ds

/-- The stores one after the other. -/
def storeAll (m : ℕ → UInt8) : List (ℕ × ℕ) → ℕ → UInt8
  | [] => m
  | (off,v) :: l => storeAll (storeDword m off v) l

theorem sscanf_eq (ds : List Directive) (s : List Char) (m : ℕ → UInt8) :
    sscanf ds s m =
      ((converted ds s).length,storeAll m ((places ds).zip (converted ds s))) := by
  induction ds generalizing s m with
  | nil => rfl
  | cons d ds ih =>
    cases d with
    | literal c =>
      rw [sscanf,converted,places]
      cases scanChar c s with
      | none => simp [storeAll]
      | some s => exact ih s m
    | hex w off =>
      rw [sscanf,converted,places]
      cases scanHex w s with
      | none => simp [storeAll]
      | some p =>
        obtain ⟨v,s⟩ := p
        simp [ih,storeAll]

/-- A character behind the last conversion does not count. -/
theorem sscanf_concat_literal (ds : List Directive) (c : Char) (s : List Char) (m : ℕ → UInt8) :
    sscanf (ds ++ [.literal c]) s m = sscanf ds s m := by
  induction ds generalizing s m with
  | nil =>
    simp only [List.nil_append,sscanf]
    cases scanChar c s with
    | none => rfl
    | some s => rfl
  | cons d ds ih =>
    cases d with
    | literal c' =>
      rw [List.cons_append,sscanf,sscanf]
      cases scanChar c' s with
      | none => rfl
      | some s => exact ih s m
    | hex w off =>
      rw [List.cons_append,sscanf,sscanf]
      cases scanHex w s with
      | none => rfl
      | some p => simp only [ih]

/-- The values when every directive is met. -/
def scanAll : List Directive → List Char → Option (List ℕ)
  | [],_ => some []
  | .literal c :: ds,s => (scanChar c s).bind (scanAll ds)
  | .hex w _ :: ds,s => (scanHex w s).bind fun p => (scanAll ds p.2).map fun vs => p.1 :: vs

section bind
variable {β : Type} {k : List ℕ → Option β} {ds : List Directive}

theorem bind_scanAll_literal {k' : List Char → Option β} (h : ∀ s, (scanAll ds s).bind k = k' s)
    (c : Char) (s : List Char) : (scanAll (.literal c :: ds) s).bind k = (scanChar c s).bind k' := by
  rw [scanAll,Option.bind_assoc]
  exact congrArg _ (funext h)

theorem bind_scanAll_hex {k' : ℕ × List Char → Option β}
    (h : ∀ p, (scanAll ds p.2).bind (fun vs => k (p.1 :: vs)) = k' p) (w off : ℕ) (s : List Char) :
    (scanAll (.hex w off :: ds) s).bind k = (scanHex w s).bind k' := by
  rw [scanAll,Option.bind_assoc]
  exact congrArg _ (funext fun p => Option.bind_map.trans (h p))

end bind

/-- The format ends with a conversion. -/
def endsInHex : List Directive → Bool
  | [] => false
  | [.hex _ _] => true
  | _ :: ds => endsInHex ds

theorem endsInHex_literal {c : Char} {ds : List Directive} (h : endsInHex (.literal c :: ds) = true) :
    endsInHex ds = true := by
  cases ds with
  | nil => exact h
  | cons d ds => exact h

theorem endsInHex_hex {w off : ℕ} {ds : List Directive} (h : endsInHex (.hex w off :: ds) = true) :
    ds = [] ∨ endsInHex ds = true := by
  cases ds with
  | nil => exact Or.inl rfl
  | cons d ds => exact Or.inr h

theorem places_pos {ds : List Directive} (h : endsInHex ds = true) : 0 < (places ds).length := by
  induction ds with
  | nil => cases h
  | cons d ds ih =>
    cases d with
    | literal c => exact ih (endsInHex_literal h)
    | hex w off => exact Nat.succ_pos _

/-- The conversions are all made exactly when every directive of such a format is met. -/
theorem scanAll_eq {ds : List Directive} (h : ds = [] ∨ endsInHex ds = true) (s : List Char) :
    scanAll ds s =
      if (converted ds s).length = (places ds).length then some (converted ds s) else none := by
  induction ds generalizing s with
  | nil => rfl
  | cons d ds ih =>
    have hends := h.resolve_left (List.cons_ne_nil d ds)
    cases d with
    | literal c =>
      have hds := endsInHex_literal hends
      rw [scanAll,converted,places]
      cases scanChar c s with
      | none =>
        have hpos := places_pos hds
        rw [if_neg (by simpa using hpos.ne)]
        rfl
      | some s => exact ih (Or.inr hds) s
    | hex w off =>
      rw [scanAll,converted,places]
      cases scanHex w s with
      | none => rfl
      | some p =>
        obtain ⟨v,s⟩ := p
        simp only [Option.bind_some,ih (endsInHex_hex hends),List.length_cons,Nat.add_right_cancel_iff]
        split <;> rfl

/-- Stores further up leave a byte as it is. -/
theorem storeAll_of_lt {l : List (ℕ × ℕ)} {p : ℕ} (h : ∀ a ∈ l, p < a.1) (m : ℕ → UInt8) :
    storeAll m l p = m p := by
  induction l generalizing m with
  | nil => rfl
  | cons a l ih =>
    obtain ⟨off,v⟩ := a
    have hoff : p < off := h (off,v) List.mem_cons_self
    rw [storeAll,ih (fun b hb => h b (List.mem_cons_of_mem _ hb)),storeDword,
      overwrite_outside _ _ (Or.inl hoff)]

/-- A byte of a value stays when all later stores are above it. -/
theorem storeAll_byte {offs vs : List ℕ} (hlen : offs.length = vs.length) {k i : ℕ}
    (hk : k < offs.length) (hi : i < 4) (h : ∀ o ∈ offs.drop (k + 1), offs.getD k 0 + i < o)
    (m : ℕ → UInt8) : storeAll m (offs.zip vs) (offs.getD k 0 + i) = (dwordBytes (vs.getD k 0)).getD i 0 := by
  induction offs generalizing vs k m with
  | nil => cases hk
  | cons off offs ih =>
    cases vs with
    | nil => cases hlen
    | cons v vs =>
      rw [List.zip_cons_cons,storeAll]
      cases k with
      | zero =>
        have hlater : ∀ a ∈ offs.zip vs, off + i < a.1 := fun a ha => h a.1 (List.of_mem_zip ha).1
        refine (storeAll_of_lt hlater _).trans ?_
        rw [storeDword,overwrite_inside _ _ (Nat.le_add_right off i) (by omega),Nat.add_sub_cancel_left]
        rfl
      | succ k => exact ih (Nat.succ.inj hlen) (Nat.lt_of_succ_lt_succ hk) h _

section fields
variable {offs vs : List ℕ} {k : ℕ} (hlen : offs.length = vs.length) (hk : k < offs.length)
  (m : ℕ → UInt8)
include hlen hk

theorem readWord_storeAll (h : ∀ o ∈ offs.drop (k + 1), offs.getD k 0 + 1 < o) :
    readWord (storeAll m (offs.zip vs)) (offs.getD k 0) = vs.getD k 0 % 2 ^ 16 := by
  have h0 := storeAll_byte hlen hk (i := 0) (by decide) (fun o ho => (Nat.le_succ _).trans_lt (h o ho)) m
  have h1 := storeAll_byte hlen hk (i := 1) (by decide) h m
  rw [Nat.add_zero] at h0
  rw [readWord,h0,h1]
  change (UInt8.ofNat (vs.getD k 0)).toNat + 256 * (UInt8.ofNat (vs.getD k 0 / 256)).toNat = _
  rw [UInt8.toNat_ofNat',UInt8.toNat_ofNat']
  omega

theorem readDword_storeAll (h : ∀ o ∈ offs.drop (k + 1), offs.getD k 0 + 3 < o) :
    readDword (storeAll m (offs.zip vs)) (offs.getD k 0) = vs.getD k 0 % 2 ^ 32 := by
  have hlow := readWord_storeAll hlen hk m fun o ho => (Nat.add_le_add_left (by decide) _).trans_lt (h o ho)
  have h2 := storeAll_byte hlen hk (i := 2) (by decide)
    (fun o ho => (Nat.add_le_add_left (by decide) _).trans_lt (h o ho)) m
  have h3 := storeAll_byte hlen hk (i := 3) (by decide) h m
  rw [readDword,hlow,readWord,h2,h3]
  change _ + 65536 * ((UInt8.ofNat (vs.getD k 0 / 65536)).toNat +
    256 * (UInt8.ofNat (vs.getD k 0 / 65536 / 256)).toNat) = _
  rw [UInt8.toNat_ofNat',UInt8.toNat_ofNat']
  omega

end fields

end SecureWipeOut.ScanFormat
