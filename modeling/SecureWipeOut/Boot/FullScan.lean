import SecureWipeOut.Boot.SectorTests

/-! # Scanning a device for remnants of file systems

`execute_full_scan_verification` reads sectors at a fixed distance and searches the
first lines of their hexadecimal listings for the names of file systems. A name shows
in a listing only where it lies within one row of sixteen bytes.
-/
namespace SecureWipeOut.FullScan
open Text Hexdump SectorTests

/-- The alternatives of `(FAT|NTFS|ext[234]|HFS|APFS|UFS)`. -/
def signatures : List Line :=
  ["FAT".toList,"NTFS".toList,"ext2".toList,"ext3".toList,"ext4".toList,"HFS".toList,"APFS".toList,
    "UFS".toList]

/-- The status of `grep -q -E` with these alternatives. -/
def grepSignatures (ls : List Line) : Bool := signatures.any fun pat => grepQ pat ls

/-- The test of a sector: the first five lines of the listing are captured and searched. -/
def suspicious (d : Readback) : Bool := grepSignatures (echo (capture ((sectorDump d).take 5)))

/-- What `seq 0 step last` prints. -/
def seqFrom0 (step last : ℕ) : List ℕ :=
  if step = 0 then [] else (List.range (last / step + 1)).map fun k => k * step

structure Scan where
  scannedSectors : ℕ
  suspiciousSectors : List ℕ
  read : List ℕ

/-- The loop over the sectors. A result of none stands for a division by zero in the
progress display, which abandons the function. -/
def scanLoop (data : ℕ → Readback) (total sectorsToScan : ℕ) : List ℕ → Scan → Option Scan
  | [], s => some s
  | sector :: rest, s =>
    if total ≤ sector then some s
    else
      let s : Scan :=
        { scannedSectors := s.scannedSectors + 1
          suspiciousSectors :=
            if suspicious (data sector) then s.suspiciousSectors ++ [sector] else s.suspiciousSectors
          read := s.read ++ [sector] }
      if sectorsToScan / 20 = 0 then none else scanLoop data total sectorsToScan rest s

/-- The scan and the status returned, or none when the function is abandoned. -/
def executeFullScanVerification (data : ℕ → Readback) (verifyTotalSectors scanPercentage : ℕ) :
    Option (Scan × ℕ) :=
  let sectorsToScan := verifyTotalSectors * scanPercentage / 100
  if sectorsToScan = 0 then none
  else
    let scanInterval := verifyTotalSectors / sectorsToScan
    match scanLoop data verifyTotalSectors sectorsToScan (seqFrom0 scanInterval verifyTotalSectors)
        ⟨0,[],[]⟩ with
    | none => none
    | some s =>
      if s.suspiciousSectors.length = 0 then some (s,0)
      else if s.scannedSectors = 0 then none
      else some (s,if s.suspiciousSectors.length * 100 / s.scannedSectors ≤ 5 then 0 else 1)

section Specification

/-- The bytes of a text. -/
def asBytes (pat : Line) : List UInt8 := pat.map fun c => UInt8.ofNat c.toNat

/-- The bytes hold the name of a file system. -/
def HasSignature (bytes : List UInt8) : Prop := ∃ pat ∈ signatures, asBytes pat <:+: bytes

instance (bytes : List UInt8) : Decidable (HasSignature bytes) := inferInstanceAs (Decidable (∃ _ ∈ _, _))

/-- The 512 bytes of a sector that was read hold one. -/
def Remnant (d : Readback) : Prop := ∃ s ∈ d, HasSignature (List.ofFn s)

/-- The rows that the first lines of a listing show. A row equal to the one above is left
out, and the first of them leaves a line with an asterisk. -/
def shownRows : Option Row → Bool → ℕ → List Row → List Row
  | _, _, 0, _ => []
  | _, _, _ + 1, [] => []
  | prev, dup, n + 1, r :: rs =>
    if prev = some r then
      if dup then shownRows prev true (n + 1) rs else shownRows prev true n rs
    else r :: shownRows (some r) false n rs

/-- One of the rows shown holds a name on its own. -/
def Shows (d : Readback) : Prop :=
  ∃ s ∈ d, ∃ r ∈ shownRows none false 5 (rows s), HasSignature (List.ofFn r)

end Specification

section Rows

theorem toNat_charOfNat {n : ℕ} (h : n < 0xd800) : (Char.ofNat n).toNat = n := by
  rw [Char.ofNat,dif_pos (Or.inl h)]
  rfl

/-- A visible character other than the dot stands for one byte only. -/
theorem printable_eq_iff {c : Char} (hlow : 0x20 ≤ c.toNat) (hhigh : c.toNat ≤ 0x7e) (hdot : c ≠ '.')
    (b : UInt8) : printable b = c ↔ b = UInt8.ofNat c.toNat := by
  rw [printable]
  constructor
  · split
    · rintro rfl
      next h =>
        have hb : b.toNat ≤ 126 := h.2
        rw [toNat_charOfNat (by omega),UInt8.ofNat_toNat]
    · intro h
      exact absurd h.symm hdot
  · rintro rfl
    have hto : (UInt8.ofNat c.toNat).toNat = c.toNat := by
      rw [UInt8.toNat_ofNat']
      omega
    rw [if_pos,hto,Char.ofNat_toNat]
    rw [UInt8.le_iff_toNat_le,UInt8.le_iff_toNat_le,hto]
    exact ⟨hlow,hhigh⟩

/-- The characters in front of the text column of a row, but for the bar that opens it. -/
def beforeText (k : ℕ) (r : Row) : Line :=
  offset (16 * k) ++ [' ',' '] ++ hexGroup (firstGroup r) ++ [' ',' '] ++ hexGroup (secondGroup r) ++
    [' ',' ']

theorem rowLine_eq (k : ℕ) (r : Row) :
    rowLine k r = beforeText k r ++ '|' :: ((List.ofFn r).map printable ++ '|' :: []) := by
  rw [rowLine,beforeText,List.map_ofFn]
  simp only [List.append_assoc,List.cons_append,List.nil_append]
  rfl

/-- The hexadecimal digits, and the space. -/
def hexAlphabet : List Char := "0123456789abcdef ".toList

theorem digitChar_mem {n : ℕ} (h : n < 16) : Nat.digitChar n ∈ hexAlphabet := by
  interval_cases n <;> decide

theorem offset_alphabet (n : ℕ) : ∀ c ∈ offset n, c ∈ hexAlphabet := by
  intro c hc
  obtain ⟨i,-,rfl⟩ := List.mem_map.mp hc
  exact digitChar_mem (Nat.mod_lt _ (by norm_num))

theorem hex2_alphabet (b : UInt8) : ∀ c ∈ hex2 b, c ∈ hexAlphabet := by
  have hb := b.toNat_lt
  have hhi : b.toNat / 16 < 16 := by omega
  rw [hex2,List.forall_mem_cons,List.forall_mem_singleton]
  exact ⟨digitChar_mem hhi,digitChar_mem (Nat.mod_lt _ (by norm_num))⟩

theorem hexGroup_alphabet (g : Group) : ∀ c ∈ hexGroup g, c ∈ hexAlphabet := by
  have hspace : ' ' ∈ hexAlphabet := by decide
  rw [hexGroup_eq]
  simp only [List.forall_mem_append,List.forall_mem_cons]
  exact ⟨hex2_alphabet _,hspace,hex2_alphabet _,hspace,hex2_alphabet _,hspace,hex2_alphabet _,hspace,
    hex2_alphabet _,hspace,hex2_alphabet _,hspace,hex2_alphabet _,hspace,hex2_alphabet _⟩

theorem beforeText_alphabet (k : ℕ) (r : Row) : ∀ c ∈ beforeText k r, c ∈ hexAlphabet := by
  have hspaces : ∀ c ∈ [' ',' '], c ∈ hexAlphabet := by
    intro c hc
    obtain rfl : c = ' ' := by simpa using hc
    decide
  simp only [beforeText,List.forall_mem_append]
  exact ⟨⟨⟨⟨⟨offset_alphabet _,hspaces⟩,hexGroup_alphabet _⟩,hspaces⟩,hexGroup_alphabet _⟩,hspaces⟩

def visible (c : Char) : Bool := decide (0x20 ≤ c.toNat) && decide (c.toNat ≤ 0x7e) && decide (c ≠ '.')

/-- A name is made of visible characters, and one of them is no hexadecimal digit. -/
theorem signature_chars {pat : Line} (h : pat ∈ signatures) : '|' ∉ pat ∧ (∃ c ∈ pat, c ∉ hexAlphabet) ∧
    (∃ c ∈ pat, c ≠ '*') ∧ ∀ c ∈ pat, 0x20 ≤ c.toNat ∧ c.toNat ≤ 0x7e ∧ c ≠ '.' := by
  have hall : (signatures.all fun pat => !pat.contains '|' && pat.any (fun c => !hexAlphabet.contains c) &&
      pat.any (fun c => c != '*') && pat.all visible) = true := by decide
  have hpat := List.all_eq_true.mp hall pat h
  simp only [Bool.and_eq_true,Bool.not_eq_true',List.any_eq_true,List.all_eq_true,List.contains_eq_mem,decide_eq_false_iff_not,
    visible,decide_eq_true_eq,bne_iff_ne] at hpat
  obtain ⟨⟨⟨hbar,hhex⟩,hstar⟩,hvisible⟩ := hpat
  exact ⟨hbar,hhex,hstar,fun c hc => ⟨(hvisible c hc).1.1,(hvisible c hc).1.2,(hvisible c hc).2⟩⟩

/-- A name does not occur among hexadecimal digits. -/
theorem not_infix_alphabet {pat l : Line} (hpat : pat ∈ signatures) (hl : ∀ c ∈ l, c ∈ hexAlphabet) :
    ¬pat <:+: l := by
  intro h
  obtain ⟨-,⟨c,hc,hno⟩,-⟩ := signature_chars hpat
  exact hno (hl c (h.subset hc))

/-- A name occurs in the line of a row exactly where its bytes occur in the row. -/
theorem infix_rowLine_iff {pat : Line} (hpat : pat ∈ signatures) (k : ℕ) (r : Row) :
    pat <:+: rowLine k r ↔ asBytes pat <:+: List.ofFn r := by
  obtain ⟨hbar,⟨c,hc,-⟩,-,hchars⟩ := signature_chars hpat
  have hmap : pat <:+: (List.ofFn r).map printable ↔ asBytes pat <:+: List.ofFn r := by
    apply infix_map_iff_map
    intro c hc b
    obtain ⟨hlow,hhigh,hdot⟩ := hchars c hc
    exact printable_eq_iff hlow hhigh hdot b
  have hnil : ¬pat <:+: [] := by
    rw [List.infix_nil]
    rintro rfl
    cases hc
  rw [rowLine_eq,infix_append_cons_iff hbar,infix_append_cons_iff hbar,hmap]
  have := not_infix_alphabet hpat (beforeText_alphabet k r)
  tauto

end Rows

section Listing

/-- A line with the name of a file system. -/
def Found (l : Line) : Prop := ∃ pat ∈ signatures, pat <:+: l

theorem grepSignatures_iff (ls : List Line) : grepSignatures ls = true ↔ ∃ l ∈ ls, Found l := by
  simp only [grepSignatures,List.any_eq_true,grepQ_iff,Found]
  tauto

theorem found_rowLine (k : ℕ) (r : Row) : Found (rowLine k r) ↔ HasSignature (List.ofFn r) :=
  exists_congr fun _ => and_congr_right fun hpat => infix_rowLine_iff hpat k r

theorem not_found_alphabet {l : Line} (h : ∀ c ∈ l, c ∈ hexAlphabet) : ¬Found l := by
  rintro ⟨pat,hpat,hin⟩
  exact not_infix_alphabet hpat h hin

theorem not_found_asterisk : ¬Found ['*'] := by
  rintro ⟨pat,hpat,hin⟩
  obtain ⟨-,-,⟨c,hc,hno⟩,-⟩ := signature_chars hpat
  exact hno (List.mem_singleton.mp (hin.subset hc))

/-- Below a row, the first lines hold a name exactly if a row that they show does. -/
theorem found_take_squeeze (rs : List Row) : ∀ (prev : Row) (dup : Bool) (k n : ℕ) (rest : List Line),
    (∀ l ∈ rest, ¬Found l) → ((∃ l ∈ (squeeze prev dup k rs ++ rest).take n, Found l) ↔
      ∃ r ∈ shownRows (some prev) dup n rs, HasSignature (List.ofFn r)) := by
  induction rs with
  | nil =>
    intro prev dup k n rest hrest
    have hno : ¬∃ l ∈ rest.take n, Found l := by
      rintro ⟨l,hl,h⟩
      exact hrest l (List.mem_of_mem_take hl) h
    cases n <;> simp [squeeze,shownRows] at hno ⊢
    exact hno
  | cons r rs ih =>
    intro prev dup k n rest hrest
    cases n with
    | zero => simp [shownRows]
    | succ n =>
      by_cases hr : prev = r
      · subst hr
        cases dup with
        | true =>
          have hih := ih prev true (k + 1) (n + 1) rest hrest
          simpa only [squeeze,shownRows,if_true] using hih
        | false =>
          have hih := ih prev true (k + 1) n rest hrest
          simp only [squeeze,shownRows,if_true,Bool.false_eq_true,if_false,List.cons_append,
            List.take_succ_cons,List.exists_mem_cons_iff,not_found_asterisk,false_or]
          exact hih
      · have hih := ih r false (k + 1) n rest hrest
        have hsome : ¬some prev = some r := fun h => hr (Option.some.inj h)
        simp only [squeeze,shownRows,if_neg (Ne.symm hr),if_neg hsome,List.cons_append,
          List.take_succ_cons,List.exists_mem_cons_iff,found_rowLine,hih]

/-- The test comes to a search through the rows shown. -/
theorem suspicious_iff (d : Readback) : suspicious d = true ↔ Shows d := by
  rw [suspicious,grepSignatures_iff]
  cases d with
  | none =>
    have hlines : ∀ l ∈ echo (capture ((sectorDump none).take 5)), ¬Found l := by
      intro l hl
      rw [List.mem_singleton.mp hl]
      exact not_found_alphabet nofun
    constructor
    · rintro ⟨l,hl,h⟩
      exact absurd h (hlines l hl)
    · rintro ⟨s,hs,-⟩
      cases hs
  | some s =>
    have hend : ∀ l ∈ [offset 512], ¬Found l := by
      intro l hl
      rw [List.mem_singleton.mp hl]
      exact not_found_alphabet (offset_alphabet 512)
    have hrest := found_take_squeeze (List.ofFn fun k : Fin 31 => row s k.succ) (row s 0) false 1 4
      [offset 512] hend
    have hshows : Shows (some s) ↔ ∃ r ∈ shownRows none false 5 (rows s), HasSignature (List.ofFn r) := by
      simp [Shows]
    rw [hshows,echo_capture_take,sectorDump_eq,rows_eq_cons,shownRows,if_neg (by simp)]
    simp only [List.take_succ_cons,List.exists_mem_cons_iff,found_rowLine,hrest]

theorem row_within (s : Sector) (k : Fin 32) : List.ofFn (row s k) <:+: List.ofFn s := by
  have hrow : List.ofFn (row s k) = ((List.ofFn s).drop (16 * k)).take 16 := by
    apply List.ext_getElem
    · simp only [List.length_ofFn,List.length_take,List.length_drop]
      omega
    · intro i hi hi'
      simp only [List.getElem_ofFn,List.getElem_take,List.getElem_drop,row]
  rw [hrow]
  exact ( List.take_prefix 16 _).isInfix.trans (List.drop_suffix _ _).isInfix

theorem shownRows_subset {prev : Option Row} {dup : Bool} {n : ℕ} {rs : List Row} :
    ∀ r ∈ shownRows prev dup n rs, r ∈ rs := by
  fun_induction shownRows prev dup n rs with
  | case1 => simp
  | case2 => simp
  | case3 _ _ _ ih => exact fun x hx => List.mem_cons_of_mem _ (ih x hx)
  | case4 _ _ _ _ _ ih => exact fun x hx => List.mem_cons_of_mem _ (ih x hx)
  | case5 _ _ _ _ _ _ ih =>
    rw [List.forall_mem_cons]
    exact ⟨List.mem_cons_self,fun x hx => List.mem_cons_of_mem _ (ih x hx)⟩

/-- Whatever shows is there. -/
theorem remnant_of_shows {d : Readback} (h : Shows d) : Remnant d := by
  obtain ⟨s,hs,r,hr,pat,hpat,hin⟩ := h
  obtain ⟨k,rfl⟩ := mem_rows.mp (shownRows_subset r hr)
  exact ⟨s,hs,pat,hpat,hin.trans (row_within s k)⟩

end Listing

end SecureWipeOut.FullScan
