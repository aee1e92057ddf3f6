import SecureWipeOut.Settings.IniLines

/-! # The settings as a store of values

What the settings are for: a key has the value last written to it, and the empty string
clears it. Both back-ends hold such a store as long as the operations fit them.
-/
namespace SecureWipeOut.Settings
open CText DecimalFormat TokenFile

inductive Setting
  | str (val : List Char)
  | int64 (val : Int64)
  | int32 (val : Int32)
deriving DecidableEq

abbrev Store := List Char → Option Setting

def storeStep (m : Store) : Op → Store × Reply
  | .writeStr key val => (Function.update m key (if val = [] then none else some (.str val)),.written true)
  | .write64 key val => (Function.update m key (some (.int64 val)),.written true)
  | .write32 key val => (Function.update m key (some (.int32 val)),.written true)
  | .writeBool key b => (Function.update m key (some (.int32 (if b then 1 else 0))),.written true)
  | .readStr key =>
    (m,.str (match m key with
      | some (.str val) => utf8 val
      | _ => []))
  | .read64 key =>
    (m,.int64 (match m key with
      | some (.int64 val) => val
      | some (.int32 val) => Int64.ofInt val.toInt
      | _ => 0))
  | .read32 key =>
    (m,.int32 (match m key with
      | some (.int32 val) => val
      | _ => 0))
  | .readBool key =>
    (m,.bool (match m key with
      | some (.int32 val) => val != 0
      | _ => false))

/-- The data of a setting in the file, and in the registry. -/
def Setting.text : Setting → List Char
  | .str val => val
  | .int64 val => decimal val.toInt
  | .int32 val => decimal val.toInt

def Setting.bytes : Setting → List UInt8
  | .str val => utf8 val
  | .int64 val => toBytes 8 val.toBitVec.toNat
  | .int32 val => toBytes 4 val.toBitVec.toNat

section Ini

/-- No other key of the store differs in case only. -/
def Apart (m : Store) (key : List Char) : Prop := ∀ key', m key' ≠ none → fold key' = fold key → key' = key

/-- A file holds a store. -/
structure IniHolds (ini : List Char) (m : Store) : Prop where
  entries : ∃ entries, ini = fileOf entries ∧ (∀ e ∈ entries, IsEntry e) ∧
    (∀ e ∈ entries, ∃ s, m e.1 = some s ∧ e.2 = s.text) ∧ ∀ key s, m key = some s → ∃ e ∈ entries, e.1 = key

variable {m : Store} {ini key : List Char} {s : Setting}

theorem IniHolds.get (h : IniHolds ini m) (hk : IsKey key) (ha : Apart m key) :
    getTokenDataFileIndexed key (some ini) 1 = (m key).map Setting.text := by
  obtain ⟨entries,rfl,hentry,hdata,hall⟩ := h.entries
  rw [get_fileOf hentry hk,dataOf]
  cases hfind : entries.find? fun e => fold key == fold e.1 with
  | none =>
    have hnone : m key = none := by
      cases hm : m key with
      | none => rfl
      | some s =>
        obtain ⟨e,he,rfl⟩ := hall key s hm
        exact absurd (beq_self_eq_true (fold e.1)) (List.find?_eq_none.mp hfind e he)
    rw [hnone]
    rfl
  | some e =>
    obtain ⟨s,hm,htext⟩ := hdata e (List.mem_of_find?_eq_some hfind)
    have hfold : fold key = fold e.1 := by simpa using List.find?_some hfind
    obtain rfl := ha e.1 (by rw [hm]; exact Option.some_ne_none s) hfold.symm
    rw [hm,Option.map_some,Option.map_some,htext]

theorem IniHolds.set (h : IniHolds ini m) (hk : IsKey key) (ha : Apart m key) (hd : IsData s.text)
    (hshort : key.length + s.text.length + 4 < 1024) : ∃ ini', writeIniKeyStr key s.text ini = (true,ini') ∧
      IniHolds ini' (Function.update m key (some s)) := by
  obtain ⟨entries,rfl,hentry,hdata,hall⟩ := h.entries
  refine ⟨fileOf (setEntry key s.text entries),?_,⟨setEntry key s.text entries,rfl,?_⟩⟩
  · rw [writeIniKeyStr,set_fileOf hentry hk hd.nonempty]
  have hmem : ∀ e ∈ setEntry key s.text entries, e = (key,s.text) ∨ (e ∈ entries ∧ e.1 ≠ key) := by
    intro e he
    rcases mem_setEntry he with ⟨htext,hkey | ⟨e',he',hsame,hfold⟩⟩ | ⟨he,hfold⟩
    · exact Or.inl (Prod.ext hkey htext)
    · obtain ⟨s',hm,-⟩ := hdata e' he'
      refine Or.inl (Prod.ext (ha e.1 ?_ hfold.symm) htext)
      rw [← hsame,hm]
      exact Option.some_ne_none s'
    · exact Or.inr ⟨he,fun heq => hfold (by rw [heq])⟩
  obtain ⟨⟨e₀,he₀,hfold₀⟩,hkeep⟩ := exists_mem_setEntry key s.text entries
  refine ⟨?_,?_,?_⟩
  · intro e he
    rcases hmem e he with rfl | ⟨he,-⟩
    · exact ⟨hk,hd,hshort⟩
    · exact hentry e he
  · intro e he
    rcases hmem e he with rfl | ⟨he,hne⟩
    · exact ⟨s,Function.update_self _ _ _,rfl⟩
    · rw [Function.update_of_ne hne]
      exact hdata e he
  · intro key' s' hm
    by_cases heq : key' = key
    · refine ⟨e₀,he₀,?_⟩
      rcases hmem e₀ he₀ with rfl | ⟨he,hne⟩
      · exact heq.symm
      · obtain ⟨s₀,hm₀,-⟩ := hdata e₀ he
        exact absurd (ha e₀.1 (by rw [hm₀]; exact Option.some_ne_none s₀) hfold₀.symm) hne
    · rw [Function.update_of_ne heq] at hm
      obtain ⟨e,he,rfl⟩ := hall key' s' hm
      exact hkeep e he

/-- The empty string changes nothing where it does not have to. -/
theorem IniHolds.clear (h : IniHolds ini m) (hm : m key = none) :
    IniHolds (writeIniKeyStr key [] ini).2 (Function.update m key none) := by
  rw [← hm,Function.update_eq_self,writeIniKeyStr,setTokenDataFile,if_pos (by simp)]
  exact h

end Ini

section Registry

/-- A registry holds a store. A value without bytes is as good as none. -/
structure RegistryHolds (r : Registry) (m : Store) : Prop where
  bytes : ∀ key, (r.app key).elim [] RegValue.bytes = (m key).elim [] Setting.bytes

variable {m : Store} {r : Registry} {key : List Char}

theorem RegistryHolds.get (h : RegistryHolds r m) (hk : '\\' ∉ key) {n : ℕ}
    (hn : ((m key).elim [] Setting.bytes).length ≤ n) : getRegistryKey key n r =
      (m key).elim [] Setting.bytes ++ List.replicate (n - ((m key).elim [] Setting.bytes).length) 0 := by
  have hbytes := h.bytes key
  have hvalue : r.value key = r.app key := if_neg fun hmem => hk (List.mem_of_mem_tail hmem)
  rw [getRegistryKey,hvalue]
  cases hv : r.app key with
  | none =>
    rw [hv] at hbytes
    rw [← hbytes]
    rfl
  | some v =>
    rw [hv,Option.elim_some] at hbytes
    dsimp only
    rw [if_pos (hbytes ▸ hn),hbytes]

theorem RegistryHolds.set (h : RegistryHolds r m) (type : RegType) (hk : '\\' ∉ key) {src : List UInt8}
    {s : Option Setting} (hs : src = s.elim [] Setting.bytes) : ∃ r', setRegistryKey key type src r = (true,r') ∧
      RegistryHolds r' (Function.update m key s) := by
  refine ⟨_,if_neg hk,⟨fun key' => ?_⟩⟩
  by_cases heq : key' = key
  · rw [heq]
    simp only [Function.update_self,Option.elim_some,hs]
  · simp only [Function.update_of_ne heq]
    exact h.bytes key'

end Registry

end SecureWipeOut.Settings
