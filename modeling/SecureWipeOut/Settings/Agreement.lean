import SecureWipeOut.Settings.SettingsStore
import Mathlib

/-! # When the two back-ends agree

Both back-ends return the values of the store as long as every operation fits them: the file
keeps keys and texts of one line only, cannot clear a key, and reads a number where the
registry reads bytes.
-/
namespace SecureWipeOut.Settings
open CText DecimalFormat TokenFile

section Conditions

def Op.key : Op → List Char
  | .writeStr key _ => key
  | .write64 key _ => key
  | .write32 key _ => key
  | .writeBool key _ => key
  | .readStr key => key
  | .read64 key => key
  | .read32 key => key
  | .readBool key => key

/-- A line for the key and the data fits the line buffer. -/
def Room (key data : List Char) : Prop := key.length + data.length + 4 < 1024

/-- A text that both back-ends return as it has been written. -/
structure IsText (val : List Char) : Prop where
  data : IsData val
  short : (utf8 val).length ≤ 511

structure IsAddress (m : Store) (key : List Char) : Prop where
  isKey : IsKey key
  noPath : '\\' ∉ key
  apart : Apart m key

/-- A write is of a text or a number, or clears a key that has no value. A read is of the type that has
been written; a number that is not negative may be read with more bits. -/
def Op.Fits (m : Store) : Op → Prop
  | .writeStr key val => (val = [] ∧ m key = none) ∨ (IsText val ∧ Room key val)
  | .write64 key val => Room key (decimal val.toInt)
  | .write32 key val => Room key (decimal val.toInt)
  | .writeBool key b => Room key (decimal (if b then 1 else 0))
  | .readStr key => ∀ s, m key = some s → ∃ val, s = .str val
  | .read64 key => ∀ s, m key = some s → (∃ val, s = .int64 val) ∨ ∃ val : Int32, s = .int32 val ∧ 0 ≤ val.toInt
  | .read32 key => ∀ s, m key = some s → ∃ val, s = .int32 val
  | .readBool key => ∀ s, m key = some s → ∃ val, s = .int32 val

def Meets (m : Store) (op : Op) : Prop := IsAddress m op.key ∧ op.Fits m

/-- Every operation meets the condition in the store it finds. -/
def MeetsAll : Store → List Op → Prop
  | _,[] => True
  | m,op :: ops => Meets m op ∧ MeetsAll (storeStep m op).1 ops

end Conditions

section Texts

theorem isData_decimal (n : ℤ) : IsData (decimal n) := by
  have hall : ∀ c ∈ decimal n, 45 ≤ c.toNat ∧ c.toNat ≤ 57 := by
    intro c hc
    rcases mem_decimal hc with rfl | h
    · exact ⟨by decide,by decide⟩
    · have hrange : 48 ≤ c.toNat ∧ c.toNat ≤ 57 := Char.isDigit_iff_toNat.mp h
      omega
  have hne : ∀ c ∈ decimal n, ∀ x : Char, x.toNat < 45 → c ≠ x := by
    rintro c hc x hx rfl
    have := (hall c hc).1
    omega
  refine ⟨decimal_ne_nil n,⟨?_,?_⟩,?_,?_⟩
  · exact fun h => hne _ h '\r' (by decide) rfl
  · exact fun h => hne _ h '\n' (by decide) rfl
  · intro c hc
    have hmem := List.mem_of_mem_head? hc
    have hblank := hne c hmem ' ' (by decide)
    have htab := hne c hmem '\t' (by decide)
    exact ⟨by simp [wspace,hblank,htab],hne c hmem '"' (by decide)⟩
  · intro c hc
    exact ⟨hne c hc nul (by decide),hne c hc ctrlZ (by decide),by have := (hall c hc).2; omega⟩

theorem take_decimal_int64 (val : Int64) : (decimal val.toInt).take 23 = decimal val.toInt := by
  have hlo := val.le_toInt
  have hhi := val.toInt_lt
  exact List.take_of_length_le ((length_decimal_le (k := 19) (by decide) (by omega)).trans (by decide))

theorem take_decimal_int32 (val : Int32) : (decimal val.toInt).take 11 = decimal val.toInt := by
  have hlo := val.le_toInt
  have hhi := val.toInt_lt
  exact List.take_of_length_le ((length_decimal_le (k := 10) (by decide) (by omega)).trans (by decide))

theorem zero_notMem_utf8 {val : List Char} (h : IsData val) : ∀ b ∈ utf8 val, (b != 0) = true := by
  have hall : ∀ n < 256, 0 < n → (String.utf8EncodeChar (Char.ofNat n)).all (fun b => b != 0) = true := by
    decide +kernel
  intro b hb
  obtain ⟨c,hc,hb⟩ := List.mem_flatMap.mp hb
  obtain ⟨hnul,-,hlt⟩ := h.ansi c hc
  have hpos : 0 < c.toNat := Nat.pos_of_ne_zero fun h0 => hnul (Char.toNat_inj.mp h0)
  have hbytes := hall c.toNat hlt hpos
  rw [Char.ofNat_toNat] at hbytes
  exact List.all_eq_true.mp hbytes b hb

theorem ofBytes_toBytes_of_lt {n v : ℕ} (h : v < 2 ^ (8 * n)) : ofBytes (toBytes n v) = v := by
  rw [ofBytes_toBytes,Nat.mod_eq_of_lt]
  rwa [show 256 = 2 ^ 8 from rfl,← pow_mul]

theorem ofNat_ofBytes_int64 (val : Int64) : Int64.ofNat (ofBytes (toBytes 8 val.toBitVec.toNat)) = val := by
  rw [ofBytes_toBytes_of_lt val.toBitVec.isLt]
  simp

theorem ofNat_ofBytes_int32 (val : Int32) : Int32.ofNat (ofBytes (toBytes 4 val.toBitVec.toNat)) = val := by
  rw [ofBytes_toBytes_of_lt val.toBitVec.isLt]
  simp

theorem ofNat_ofBytes_wide {val : Int32} (h : 0 ≤ val.toInt) :
    Int64.ofNat (ofBytes (toBytes 4 val.toBitVec.toNat)) = Int64.ofInt val.toInt := by
  have hcond : val.toInt = _ := BitVec.toInt_eq_toNat_cond val.toBitVec
  have hlt := val.toBitVec.isLt
  rw [ofBytes_toBytes_of_lt hlt,← Int64.ofInt_eq_ofNat]
  congr 1
  split at hcond
  · exact hcond.symm
  · omega

end Texts

section Steps

/-- A file and a registry hold the same store, with texts that both can keep. -/
structure Holds (ini : List Char) (r : Registry) (m : Store) : Prop where
  ini : IniHolds ini m
  registry : RegistryHolds r m
  texts : ∀ key val, m key = some (.str val) → IsText val

variable {m : Store} {ini : List Char} {r : Registry} {key : List Char} {s : Setting}

theorem Holds.write (h : Holds ini r m) (ha : IsAddress m key) (hd : IsData s.text)
    (hs : ∀ val, s = .str val → IsText val) (hroom : Room key s.text) (type : RegType) :
    ∃ ini' r', writeIniKeyStr key s.text ini = (true,ini') ∧ setRegistryKey key type s.bytes r = (true,r') ∧
      Holds ini' r' (Function.update m key (some s)) := by
  obtain ⟨ini',hini,hini'⟩ := h.ini.set ha.isKey ha.apart hd hroom
  obtain ⟨r',hr,hr'⟩ := h.registry.set type ha.noPath (show s.bytes = (some s).elim [] Setting.bytes from rfl)
  refine ⟨ini',r',hini,hr,⟨hini',hr',fun key' val hval => ?_⟩⟩
  by_cases heq : key' = key
  · rw [heq,Function.update_self] at hval
    exact hs val (Option.some.inj hval)
  · rw [Function.update_of_ne heq] at hval
    exact h.texts key' val hval

theorem Holds.writeNumber64 (h : Holds ini r m) (ha : IsAddress m key) {val : Int64}
    (hroom : Room key (decimal val.toInt)) : ∃ ini' r', writeIniKey64 key val ini = (true,ini') ∧
      writeRegistryKey64 key val r = (true,r') ∧ Holds ini' r' (Function.update m key (some (.int64 val))) := by
  rw [writeIniKey64,take_decimal_int64]
  exact h.write (s := .int64 val) ha (isData_decimal _) (fun _ heq => by cases heq) hroom _

theorem Holds.writeNumber32 (h : Holds ini r m) (ha : IsAddress m key) {val : Int32}
    (hroom : Room key (decimal val.toInt)) : ∃ ini' r', writeIniKey32 key val ini = (true,ini') ∧
      writeRegistryKey32 key val r = (true,r') ∧ Holds ini' r' (Function.update m key (some (.int32 val))) := by
  rw [writeIniKey32,take_decimal_int32]
  exact h.write (s := .int32 val) ha (isData_decimal _) (fun _ heq => by cases heq) hroom _

/-- What the reads of a string return. -/
theorem Holds.readStr (h : Holds ini r m) (ha : IsAddress m key) (hfits : (Op.readStr key).Fits m) :
    Reply.str (readIniKeyStr key ini) = (storeStep m (.readStr key)).2 ∧
      Reply.str (readRegistryKeyStr key r) = (storeStep m (.readStr key)).2 := by
  have hini := h.ini.get ha.isKey ha.apart
  cases hm : m key with
  | none =>
    have hreg := h.registry.get ha.noPath (n := 511) (by rw [hm]; exact Nat.zero_le _)
    rw [hm] at hini hreg
    rw [readIniKeyStr,hini,readRegistryKeyStr,hreg,storeStep,hm]
    exact ⟨rfl,rfl⟩
  | some s =>
    obtain ⟨val,rfl⟩ := hfits s hm
    have htext := h.texts key val hm
    have hreg := h.registry.get ha.noPath (n := 511) (by rw [hm]; exact htext.short)
    rw [hm] at hini hreg
    rw [readIniKeyStr,hini,readRegistryKeyStr,hreg,storeStep,hm]
    refine ⟨congrArg Reply.str (List.take_of_length_le htext.short),congrArg Reply.str ?_⟩
    change (utf8 val ++ _).takeWhile _ = utf8 val
    rw [List.takeWhile_append_of_pos (zero_notMem_utf8 htext.data)]
    simp

theorem Holds.read64 (h : Holds ini r m) (ha : IsAddress m key) (hfits : (Op.read64 key).Fits m) :
    Reply.int64 (readIniKey64 key ini) = (storeStep m (.read64 key)).2 ∧
      Reply.int64 (readRegistryKey64 key r) = (storeStep m (.read64 key)).2 := by
  have hini := h.ini.get ha.isKey ha.apart
  cases hm : m key with
  | none =>
    have hreg := h.registry.get ha.noPath (n := 8) (by rw [hm]; exact Nat.zero_le _)
    rw [hm] at hini hreg
    rw [readIniKey64,hini,readRegistryKey64,hreg,storeStep,hm]
    exact ⟨rfl,rfl⟩
  | some s =>
    rcases hfits s hm with ⟨val,rfl⟩ | ⟨val,rfl,hpos⟩
    · have hreg := h.registry.get ha.noPath (n := 8) (by rw [hm]; exact (length_toBytes 8 _).le)
      rw [hm] at hini hreg
      rw [readIniKey64,hini,readRegistryKey64,hreg,storeStep,hm]
      refine ⟨congrArg Reply.int64 ?_,congrArg Reply.int64 ?_⟩
      · change Int64.ofInt (strtoi64 (decimal val.toInt)) = val
        rw [strtoi64_decimal ⟨val.le_toInt,val.toInt_lt⟩,Int64.ofInt_toInt]
      · rw [ofBytes_append_zeros]
        exact ofNat_ofBytes_int64 val
    · have hlen : (toBytes 4 val.toBitVec.toNat).length ≤ 8 := by rw [length_toBytes]; decide
      have hreg := h.registry.get ha.noPath (n := 8) (by rw [hm]; exact hlen)
      rw [hm] at hini hreg
      rw [readIniKey64,hini,readRegistryKey64,hreg,storeStep,hm]
      refine ⟨congrArg Reply.int64 ?_,congrArg Reply.int64 ?_⟩
      · have hlo := val.le_toInt
        have hhi := val.toInt_lt
        change Int64.ofInt (strtoi64 (decimal val.toInt)) = Int64.ofInt val.toInt
        rw [strtoi64_decimal ⟨by omega,by omega⟩]
      · rw [ofBytes_append_zeros]
        exact ofNat_ofBytes_wide hpos

theorem Holds.read32 (h : Holds ini r m) (ha : IsAddress m key) (hfits : (Op.read32 key).Fits m) :
    Reply.int32 (readIniKey32 key ini) = (storeStep m (.read32 key)).2 ∧
      Reply.int32 (readRegistryKey32 key r) = (storeStep m (.read32 key)).2 := by
  have hini := h.ini.get ha.isKey ha.apart
  cases hm : m key with
  | none =>
    have hreg := h.registry.get ha.noPath (n := 4) (by rw [hm]; exact Nat.zero_le _)
    rw [hm] at hini hreg
    rw [readIniKey32,hini,readRegistryKey32,hreg,storeStep,hm]
    exact ⟨rfl,rfl⟩
  | some s =>
    obtain ⟨val,rfl⟩ := hfits s hm
    have hreg := h.registry.get ha.noPath (n := 4) (by rw [hm]; exact (length_toBytes 4 _).le)
    rw [hm] at hini hreg
    rw [readIniKey32,hini,readRegistryKey32,hreg,storeStep,hm]
    refine ⟨congrArg Reply.int32 ?_,congrArg Reply.int32 ?_⟩
    · change Int32.ofInt (strtol (decimal val.toInt)).1 = val
      rw [strtol_decimal ⟨val.le_toInt,val.toInt_lt⟩,Int32.ofInt_toInt]
    · rw [ofBytes_append_zeros]
      exact ofNat_ofBytes_int32 val

/-- A truth value is read as a number. -/
theorem storeStep_readBool (m : Store) (key : List Char) {val : Int32}
    (h : Reply.int32 val = (storeStep m (.read32 key)).2) :
    Reply.bool (val != 0) = (storeStep m (.readBool key)).2 := by
  cases hm : m key with
  | none =>
    simp only [storeStep,hm,Reply.int32.injEq] at h ⊢
    rw [h]
    rfl
  | some s =>
    cases s with
    | int32 v =>
      simp only [storeStep,hm,Reply.int32.injEq] at h ⊢
      rw [h]
    | _ =>
      simp only [storeStep,hm,Reply.int32.injEq] at h ⊢
      rw [h]
      rfl

/-- An operation that meets the condition leaves both back-ends with the same store, and a read
returns what the store has. -/
theorem Holds.step (h : Holds ini r m) {op : Op} (hop : Meets m op) :
    Holds (iniStep ini op).1 (registryStep r op).1 (storeStep m op).1 ∧
      (op.isRead = true → (iniStep ini op).2 = (storeStep m op).2 ∧ (registryStep r op).2 = (storeStep m op).2) := by
  obtain ⟨ha,hfits⟩ := hop
  cases op with
  | writeStr key val =>
    refine ⟨?_,fun hread => absurd hread Bool.false_ne_true⟩
    rcases hfits with ⟨rfl,hm⟩ | ⟨htext,hroom⟩
    · obtain ⟨r',hr,hr'⟩ := h.registry.set .sz (show '\\' ∉ key from ha.noPath)
        (show [] = (none : Option Setting).elim [] Setting.bytes from rfl)
      change Holds (writeIniKeyStr key [] ini).2 (setRegistryKey key .sz [] r).2 (Function.update m key none)
      rw [hr]
      refine ⟨h.ini.clear hm,hr',fun key' val hval => ?_⟩
      rw [← hm,Function.update_eq_self] at hval
      exact h.texts key' val hval
    · obtain ⟨ini',r',hini,hr,hholds⟩ := h.write (s := .str val) ha htext.data
        (fun val' heq => by cases heq; exact htext) hroom .sz
      change Holds (writeIniKeyStr key val ini).2 (setRegistryKey key .sz (utf8 val) r).2
        (Function.update m key (if val = [] then none else some (.str val)))
      rw [show writeIniKeyStr key val ini = _ from hini,show setRegistryKey key .sz (utf8 val) r = _ from hr,
        if_neg htext.data.nonempty]
      exact hholds
  | write64 key val =>
    refine ⟨?_,fun hread => absurd hread Bool.false_ne_true⟩
    obtain ⟨ini',r',hini,hr,hholds⟩ := h.writeNumber64 (show IsAddress m key from ha) hfits
    simp only [iniStep,registryStep,hini,hr]
    exact hholds
  | write32 key val =>
    refine ⟨?_,fun hread => absurd hread Bool.false_ne_true⟩
    obtain ⟨ini',r',hini,hr,hholds⟩ := h.writeNumber32 (show IsAddress m key from ha) hfits
    simp only [iniStep,registryStep,hini,hr]
    exact hholds
  | writeBool key b =>
    refine ⟨?_,fun hread => absurd hread Bool.false_ne_true⟩
    have hroom : Room key (decimal (if b then (1 : Int32) else 0).toInt) := by
      cases b with
      | false => exact hfits
      | true => exact hfits
    obtain ⟨ini',r',hini,hr,hholds⟩ := h.writeNumber32 (show IsAddress m key from ha) hroom
    simp only [iniStep,registryStep,writeIniKeyBool,writeRegistryKeyBool,hini,hr]
    exact hholds
  | readStr key => exact ⟨h,fun _ => h.readStr ha hfits⟩
  | read64 key => exact ⟨h,fun _ => h.read64 ha hfits⟩
  | read32 key => exact ⟨h,fun _ => h.read32 ha hfits⟩
  | readBool key =>
    obtain ⟨hini,hr⟩ := h.read32 ha hfits
    exact ⟨h,fun _ => ⟨storeStep_readBool m key hini,storeStep_readBool m key hr⟩⟩

end Steps

section Runs

theorem reads_cons {σ : Type} (step : σ → Op → σ × Reply) (s : σ) (op : Op) (ops : List Op) :
    reads step s (op :: ops) =
      if op.isRead then (step s op).2 :: reads step (step s op).1 ops else reads step (step s op).1 ops := by
  unfold reads
  rw [run,List.zip_cons_cons,List.filter_cons]
  split <;> rfl

theorem Holds.reads {ini : List Char} {r : Registry} {m : Store} (h : Holds ini r m) {ops : List Op}
    (hops : MeetsAll m ops) : Settings.reads iniStep ini ops = Settings.reads storeStep m ops ∧
      Settings.reads registryStep r ops = Settings.reads storeStep m ops := by
  induction ops generalizing ini r m with
  | nil => exact ⟨rfl,rfl⟩
  | cons op ops ih =>
    obtain ⟨hop,hrest⟩ := hops
    obtain ⟨hholds,hreply⟩ := h.step hop
    obtain ⟨hini,hr⟩ := ih hholds hrest
    rw [reads_cons,reads_cons,reads_cons,hini,hr]
    split
    next hread =>
      obtain ⟨hini',hr'⟩ := hreply hread
      rw [hini',hr']
      exact ⟨rfl,rfl⟩
    next => exact ⟨rfl,rfl⟩

/-- In a run from an empty file and an empty registry whose operations all meet the condition,
every read returns the value last written, from either back-end. -/
theorem settings_agree (r : Registry) (hr : ∀ key, r.app key = none) (ops : List Op)
    (h : MeetsAll (fun _ => none) ops) : reads iniStep [] ops = reads registryStep r ops ∧
      reads registryStep r ops = reads storeStep (fun _ => none) ops := by
  have hholds : Holds [] r fun _ => none := by
    refine ⟨⟨[],rfl,?_,?_,?_⟩,⟨fun key => by rw [hr]; rfl⟩,fun key val hval => by cases hval⟩
    · exact fun e he => absurd he List.not_mem_nil
    · exact fun e he => absurd he List.not_mem_nil
    · exact fun key s hs => by cases hs
  obtain ⟨hini,hreg⟩ := hholds.reads h
  exact ⟨hini.trans hreg.symm,hreg⟩

def emptyRegistry : Registry := ⟨fun _ => none,fun _ => none,fun _ _ => []⟩

def timer : List Char := "UpdateCheckInterval".toList

/-- A key of letters and digits. -/
theorem isKey_of_alphanum {key : List Char} (hne : key ≠ []) (h : key.all Char.isAlphanum = true) : IsKey key := by
  have hall : ∀ c ∈ key, c.isAlphanum = true := List.all_eq_true.mp h
  have hsign : ∀ c : Char, c.isAlphanum = false → c ∉ key := by
    intro c hc hmem
    rw [hall c hmem] at hc
    cases hc
  have hkind : ∀ n < 123, (Char.ofNat n).isAlphanum = true → wspace (Char.ofNat n) = false ∧ Char.ofNat n ≠ ';' ∧
      Char.ofNat n ≠ '[' ∧ Char.ofNat n ≠ '<' ∧ Char.ofNat n ≠ nul ∧ Char.ofNat n ≠ ctrlZ := by decide
  have hsmall : ∀ c ∈ key, c.toNat < 123 := by
    intro c hc
    have hletter := hall c hc
    simp only [Char.isAlphanum,Char.isAlpha,Char.isUpper,Char.isLower,Char.isDigit,Bool.or_eq_true,Bool.and_eq_true,
      decide_eq_true_eq,UInt32.le_iff_toNat_le] at hletter
    change c.val.toNat < 123
    have hz : 'z'.val.toNat = 122 := rfl
    have hZ : 'Z'.val.toNat = 90 := rfl
    have h9 : '9'.val.toNat = 57 := rfl
    omega
  have hspec : ∀ c ∈ key, wspace c = false ∧ c ≠ ';' ∧ c ≠ '[' ∧ c ≠ '<' ∧ c ≠ nul ∧ c ≠ ctrlZ := by
    intro c hc
    have hof := hkind c.toNat (hsmall c hc)
    rw [Char.ofNat_toNat] at hof
    exact hof (hall c hc)
  refine ⟨hne,⟨hsign _ (by decide),hsign _ (by decide)⟩,⟨hsign _ (by decide),hsign _ (by decide)⟩,fun c hc => ?_,fun c hc => ?_,
    fun c hc => ?_⟩
  · obtain ⟨h1,h2,h3,h4,-⟩ := hspec c (List.mem_of_mem_head? hc)
    exact ⟨h1,h2,h3,h4⟩
  · exact (hspec c (List.mem_of_getLast? hc)).1
  · obtain ⟨-,-,-,-,h5,h6⟩ := hspec c hc
    exact ⟨h5,h6,(hsmall c hc).trans (by decide)⟩

theorem timer_isKey : IsKey timer := isKey_of_alphanum (by decide) (by decide)

theorem settings_agree_timer :
    reads iniStep [] [.write32 timer (-5),.read64 "Other".toList,.read32 timer] =
      reads registryStep emptyRegistry [.write32 timer (-5),.read64 "Other".toList,.read32 timer] ∧
    reads registryStep emptyRegistry [.write32 timer (-5),.read64 "Other".toList,.read32 timer] =
      reads storeStep (fun _ => none) [.write32 timer (-5),.read64 "Other".toList,.read32 timer] := by
  have hother : IsKey "Other".toList := isKey_of_alphanum (by decide) (by decide)
  have honly : ∀ key, Function.update (fun _ => none : Store) timer (some (.int32 (-5))) key ≠ none → key = timer := by
    intro key hkey
    by_contra hne
    exact hkey (Function.update_of_ne hne _ _)
  refine settings_agree emptyRegistry (fun _ => rfl) _ ⟨⟨⟨timer_isKey,by decide,?_⟩,?_⟩,⟨⟨hother,by decide,?_⟩,?_⟩,
    ⟨⟨timer_isKey,by decide,?_⟩,?_⟩,trivial⟩
  · exact fun key hkey => absurd rfl hkey
  · change Room timer (decimal (-5))
    unfold Room
    decide +kernel
  · intro key hkey hfold
    rw [honly key hkey] at hfold
    exact absurd hfold (by decide)
  · intro s hs
    have hkey := honly "Other".toList fun hnone => Option.some_ne_none s (hs.symm.trans hnone)
    exact absurd hkey (by decide)
  · exact fun key hkey _ => honly key hkey
  · intro s hs
    exact ⟨-5,(Option.some.inj hs).symm⟩

/-- The empty string clears a key of the registry, and leaves the line in the file. -/
theorem settings_disagree_clear :
    reads iniStep [] [.writeStr "ToggleEsp01".toList "esp".toList,.writeStr "ToggleEsp01".toList [],
      .readStr "ToggleEsp01".toList] = [.str (utf8 "esp".toList)] ∧
    reads registryStep emptyRegistry [.writeStr "ToggleEsp01".toList "esp".toList,.writeStr "ToggleEsp01".toList [],
      .readStr "ToggleEsp01".toList] = [.str []] := by
  decide +kernel

end Runs

end SecureWipeOut.Settings
