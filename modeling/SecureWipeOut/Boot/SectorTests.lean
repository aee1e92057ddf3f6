import SecureWipeOut.Boot.Hexdump

/-! # The tests of a sampled sector

Every wipe script reads a sector back through `hexdump -C` and searches the listing
for eight equal bytes. The byte predicate that each of these searches comes to is
proved next to the predicate it is written for.
-/
namespace SecureWipeOut.SectorTests
open Text Hexdump

/-- What `dd` read of a sector; nothing when the read failed. -/
abbrev Readback := Option Sector

def sectorDump : Readback → List Line
  | none => []
  | some s => hexdump (rows s)

def zeroBytes : Line := "00 00 00 00 00 00 00 00".toList
def bytes55 : Line := "55 55 55 55 55 55 55 55".toList
def bytesAA : Line := "aa aa aa aa aa aa aa aa".toList
def bytesFF : Line := "ff ff ff ff ff ff ff ff".toList

def isHexDigit (c : Char) : Bool := ('0' ≤ c && c ≤ '9') || ('a' ≤ c && c ≤ 'f')

/-- The expression `[0-9a-f][0-9a-f]`. -/
def hexPair : Line → Bool
  | a :: b :: rest => (isHexDigit a && isHexDigit b) || hexPair (b :: rest)
  | _ => false

inductive ExpectedPattern
  | zeros | x55 | xaa | random | other
  deriving DecidableEq

/-- The sample of `verify_overwrite` holds no line without eight zeros. -/
def verifyOverwriteTest (d : Readback) : Bool :=
  !grepQv zeroBytes (echo (capture ((sectorDump d).take 5)))

/-- The `pattern_match` of `execute_pattern_verification`. -/
def patternTest (expected : ExpectedPattern) (d : Readback) : Bool :=
  let sectorData := echo (capture (sectorDump d))
  match expected with
  | .zeros => grepQ zeroBytes sectorData && !(grepV zeroBytes sectorData).any hexPair
  | .x55 => grepQ bytes55 sectorData
  | .xaa => grepQ bytesAA sectorData
  | .random => !grepQ zeroBytes sectorData && !grepQ bytesFF sectorData
  | .other => false

def standardExternalTest (d : Readback) : Bool := grepQ zeroBytes (sectorDump d)

def enhancedExternalTest (d : Readback) : Bool := grepQ bytes55 (echo (capture ((sectorDump d).take 1)))

inductive SectorTest
  | verifyOverwrite | patternZeros | pattern55 | patternAA | standardExternal | enhancedExternal

def SectorTest.accepts : SectorTest → Readback → Bool
  | .verifyOverwrite => verifyOverwriteTest
  | .patternZeros => patternTest .zeros
  | .pattern55 => patternTest .x55
  | .patternAA => patternTest .xaa
  | .standardExternal => standardExternalTest
  | .enhancedExternal => enhancedExternalTest

def SectorTest.expected : SectorTest → UInt8
  | .verifyOverwrite | .patternZeros | .standardExternal => 0
  | .pattern55 | .enhancedExternal => 0x55
  | .patternAA => 0xaa

theorem zeroBytes_eq : zeroBytes = bytePattern 0 := by decide
theorem bytes55_eq : bytes55 = bytePattern 0x55 := by decide
theorem bytesAA_eq : bytesAA = bytePattern 0xaa := by decide

theorem sectorDump_eq (s : Sector) :
    sectorDump (some s) = rowLine 0 (row s 0) ::
      (squeeze (row s 0) false 1 (List.ofFn fun k : Fin 31 => row s k.succ) ++ [offset 512]) := by
  rw [sectorDump,rows_eq_cons,hexdump,List.length_ofFn,List.cons_append]

/-- Capturing and printing the first lines of a sector's listing changes nothing. -/
theorem echo_capture_take (s : Sector) (n : ℕ) :
    echo (capture ((sectorDump (some s)).take (n + 1))) = (sectorDump (some s)).take (n + 1) := by
  rw [capture_of_nonempty,echo_of_ne_nil]
  · rw [sectorDump_eq]
    simp
  · intro l hl
    exact hexdump_nonempty (rows s) l (List.mem_of_mem_take hl)

theorem echo_capture (s : Sector) : echo (capture (sectorDump (some s))) = sectorDump (some s) := by
  have hcap : capture (sectorDump (some s)) = sectorDump (some s) :=
    capture_of_nonempty (hexdump_nonempty (rows s))
  rw [hcap,echo_of_ne_nil]
  rw [sectorDump_eq]
  simp

/-- Searching the whole listing of a sector finds any group of the byte. -/
theorem grepQ_sectorDump (v : UInt8) (s : Sector) :
    grepQ (bytePattern v) (sectorDump (some s)) = true ↔ ∃ k, HasGroup v (row s k) := by
  rw [grepQ_iff,sectorDump,infix_hexdump]
  constructor
  · rintro ⟨r,hr,h⟩
    obtain ⟨k,rfl⟩ := mem_rows.mp hr
    exact ⟨k,h⟩
  · rintro ⟨k,h⟩
    exact ⟨row s k,mem_rows.mpr ⟨k,rfl⟩,h⟩

/-- The first five lines are all accepted: five rows are printed one after the other, none
equal to the row above, and each has a group of zeros. -/
def FiveZeroLines (s : Sector) : Prop :=
  ((rows s).take 5).IsChain (· ≠ ·) ∧ ∀ r ∈ (rows s).take 5, HasGroup 0 r

instance (s : Sector) : Decidable (FiveZeroLines s) := inferInstanceAs (Decidable (_ ∧ _))

theorem verifyOverwriteTest_iff (s : Sector) :
    verifyOverwriteTest (some s) = true ↔ FiveZeroLines s := by
  have hrest := infix_take_squeeze 0 (List.ofFn fun k : Fin 31 => row s k.succ) (row s 0) 1 4 [offset 512]
    (by simp)
  rw [verifyOverwriteTest,echo_capture_take,Bool.not_eq_true',zeroBytes_eq,grepQv_eq_false_iff,sectorDump_eq,
    List.take_succ_cons,List.forall_mem_cons,hrest,infix_rowLine,FiveZeroLines,rows_eq_cons,
    List.take_succ_cons,List.forall_mem_cons]
  tauto

/-- The offset that closes the listing is never filtered out and always looks like data. -/
theorem patternTest_zeros (s : Sector) : patternTest .zeros (some s) = false := by
  have hmem : offset 512 ∈ grepV zeroBytes (sectorDump (some s)) := by
    rw [grepV,List.mem_filter,zeroBytes_eq]
    refine ⟨by rw [sectorDump_eq]; simp,?_⟩
    rw [Bool.not_eq_true',Bool.eq_false_iff,ne_eq,contains_iff]
    exact not_infix_offset 0 512
  have hany : (grepV zeroBytes (sectorDump (some s))).any hexPair = true :=
    List.any_eq_true.mpr ⟨offset 512,hmem,by decide⟩
  simp [patternTest,echo_capture,hany]

theorem enhancedExternalTest_iff (s : Sector) :
    enhancedExternalTest (some s) = true ↔ HasGroup 0x55 (row s 0) := by
  rw [enhancedExternalTest,echo_capture_take,bytes55_eq,grepQ_iff,sectorDump_eq]
  simp [infix_rowLine]

/-- The sectors on which a test agrees with the comparison of all its bytes. -/
def SectorTest.ExactOn : SectorTest → Sector → Prop
  | .verifyOverwrite, s => (∃ i, s i ≠ 0) ∧ ¬FiveZeroLines s
  | .patternZeros, s => ∃ i, s i ≠ 0
  | .pattern55, s => (∀ i, s i = 0x55) ∨ ∀ k, ¬HasGroup 0x55 (row s k)
  | .patternAA, s => (∀ i, s i = 0xaa) ∨ ∀ k, ¬HasGroup 0xaa (row s k)
  | .standardExternal, s => (∀ i, s i = 0) ∨ ∀ k, ¬HasGroup 0 (row s k)
  | .enhancedExternal, s => (∀ i, s i = 0x55) ∨ ¬HasGroup 0x55 (row s 0)

/-- Equal rows are not five printed lines. -/
theorem not_fiveZeroLines {s : Sector} (h : ∀ i, s i = 0) : ¬FiveZeroLines s := by
  rintro ⟨hchain,_⟩
  have hrows : row s 0 = row s 1 := by
    funext i
    rw [row,row,h,h]
  simp only [rows,List.ofFn_succ,List.take_succ_cons,List.isChain_cons_cons] at hchain
  exact hchain.1 hrows

/-- A search for one group is exact on the sectors that are all of the byte or have no such group. -/
theorem exact_of_search {accept : Prop} {s : Sector} {v : UInt8} {found : Prop}
    (haccept : accept ↔ found) (hall : (∀ i, s i = v) → found) :
    (accept ↔ ∀ i, s i = v) ↔ (∀ i, s i = v) ∨ ¬found := by
  rw [haccept]
  tauto

theorem sectorTest_exact (t : SectorTest) (s : Sector) :
    (t.accepts (some s) = true ↔ ∀ i, s i = t.expected) ↔ t.ExactOn s := by
  cases t with
  | verifyOverwrite =>
    have hiff := verifyOverwriteTest_iff s
    have hzero := not_fiveZeroLines (s := s)
    simp only [SectorTest.accepts,SectorTest.expected,SectorTest.ExactOn,hiff,← not_forall]
    tauto
  | patternZeros =>
    simp only [SectorTest.accepts,SectorTest.expected,SectorTest.ExactOn,patternTest_zeros,← not_forall]
    simp
  | pattern55 =>
    have hsearch := grepQ_sectorDump 0x55 s
    rw [← bytes55_eq,← echo_capture] at hsearch
    have hexact := exact_of_search hsearch fun h => ⟨0,hasGroup_row h 0⟩
    rwa [not_exists] at hexact
  | patternAA =>
    have hsearch := grepQ_sectorDump 0xaa s
    rw [← bytesAA_eq,← echo_capture] at hsearch
    have hexact := exact_of_search hsearch fun h => ⟨0,hasGroup_row h 0⟩
    rwa [not_exists] at hexact
  | standardExternal =>
    have hsearch := grepQ_sectorDump 0 s
    rw [← zeroBytes_eq] at hsearch
    have hexact := exact_of_search hsearch fun h => ⟨0,hasGroup_row h 0⟩
    rwa [not_exists] at hexact
  | enhancedExternal => exact exact_of_search (enhancedExternalTest_iff s) fun h => hasGroup_row h 0

/-- A sector that begins with eight bytes `v` and holds 0xff from there on. -/
def onlyFirstGroup (v : UInt8) : Sector := fun i => if i.val < 8 then v else 0xff

/-- The two tests for zeros reject the sector of zeros, and the four others accept a
sector of which eight bytes were overwritten. -/
theorem sectorTest_eight_bytes :
    SectorTest.verifyOverwrite.accepts (some fun _ => 0) = false ∧
      SectorTest.patternZeros.accepts (some fun _ => 0) = false ∧
      (SectorTest.pattern55.accepts (some (onlyFirstGroup 0x55)) = true ∧ onlyFirstGroup 0x55 8 ≠ 0x55) ∧
      (SectorTest.patternAA.accepts (some (onlyFirstGroup 0xaa)) = true ∧ onlyFirstGroup 0xaa 8 ≠ 0xaa) ∧
      (SectorTest.standardExternal.accepts (some (onlyFirstGroup 0)) = true ∧ onlyFirstGroup 0 8 ≠ 0) ∧
      (SectorTest.enhancedExternal.accepts (some (onlyFirstGroup 0x55)) = true ∧
        onlyFirstGroup 0x55 8 ≠ 0x55) := by
  have hgroup (v : UInt8) : HasGroup v (row (onlyFirstGroup v) 0) := by
    left
    intro i
    exact if_pos (by simp)
  refine ⟨?_,patternTest_zeros (fun _ => 0),⟨?_,by decide⟩,⟨?_,by decide⟩,⟨?_,by decide⟩,⟨?_,by decide⟩⟩
  · rw [Bool.eq_false_iff]
    exact fun h => not_fiveZeroLines (fun _ => rfl) ((verifyOverwriteTest_iff _).mp h)
  · show grepQ bytes55 (echo (capture _)) = true
    rw [echo_capture,bytes55_eq,grepQ_sectorDump]
    exact ⟨0,hgroup 0x55⟩
  · show grepQ bytesAA (echo (capture _)) = true
    rw [echo_capture,bytesAA_eq,grepQ_sectorDump]
    exact ⟨0,hgroup 0xaa⟩
  · show grepQ zeroBytes _ = true
    rw [zeroBytes_eq,grepQ_sectorDump]
    exact ⟨0,hgroup 0⟩
  · exact (enhancedExternalTest_iff _).mpr (hgroup 0x55)

end SecureWipeOut.SectorTests
