import SecureWipeOut.Lib.Text

/-! # Hexdump output

One line for each sixteen bytes: the offset, two groups of eight hexadecimal bytes
and a column of characters. A row equal to the row above is left out, a run of such
rows leaving a single asterisk, and the offset of the end closes the listing.
-/
namespace SecureWipeOut.Hexdump
open Text

abbrev Row := Fin 16 → UInt8
abbrev Group := Fin 8 → UInt8
abbrev Sector := Fin 512 → UInt8

def firstGroup (r : Row) : Group := fun i => r (i.castLE (by omega))
def secondGroup (r : Row) : Group := fun i => r (i.natAdd 8)

def hex2 (b : UInt8) : Line := [Nat.digitChar (b.toNat / 16),Nat.digitChar (b.toNat % 16)]

def offset (n : ℕ) : Line := [7,6,5,4,3,2,1,0].map (fun i => Nat.digitChar (n / 16 ^ i % 16))

def hexGroup (g : Group) : Line := [' '].intercalate (List.ofFn (fun i => hex2 (g i)))

def printable (b : UInt8) : Char :=
  if 0x20 ≤ b ∧ b ≤ 0x7e then Char.ofNat b.toNat else '.'

def rowLine (k : ℕ) (r : Row) : Line :=
  offset (16 * k) ++ [' ',' '] ++ hexGroup (firstGroup r) ++ [' ',' '] ++ hexGroup (secondGroup r) ++
    [' ',' ','|'] ++ List.ofFn (fun i => printable (r i)) ++ ['|']

/-- The rows below a printed or left out row `prev`, `dup` telling whether the
asterisk of the current run is out. -/
def squeeze (prev : Row) (dup : Bool) (k : ℕ) : List Row → List Line
  | [] => []
  | r :: rs =>
    if r = prev then
      if dup then squeeze prev true (k + 1) rs else ['*'] :: squeeze prev true (k + 1) rs
    else rowLine k r :: squeeze r false (k + 1) rs

def hexdump : List Row → List Line
  | [] => []
  | r :: rs => rowLine 0 r :: squeeze r false 1 rs ++ [offset (16 * (rs.length + 1))]

def row (s : Sector) (k : Fin 32) : Row := fun i => s ⟨16 * k + i,by omega⟩

def rows (s : Sector) : List Row := List.ofFn (row s)

/-- Some group of a row has all its bytes equal to `v`. -/
def HasGroup (v : UInt8) (r : Row) : Prop :=
  (∀ i, firstGroup r i = v) ∨ ∀ i, secondGroup r i = v

instance (v : UInt8) (r : Row) : Decidable (HasGroup v r) :=
  inferInstanceAs (Decidable (_ ∨ _))

/-- The text searched for: eight times the byte `v`. -/
def bytePattern (v : UInt8) : Line := hexGroup (fun _ => v)

theorem digitChar_ne_space {n : ℕ} (h : n < 16) : Nat.digitChar n ≠ ' ' := by
  interval_cases n <;> decide

theorem digitChar_injective {n m : ℕ} (hn : n < 16) (hm : m < 16)
    (h : Nat.digitChar n = Nat.digitChar m) : n = m := by
  have hall : ∀ n < 16, ∀ m < 16, Nat.digitChar n = Nat.digitChar m → n = m := by decide
  exact hall n hn m hm h

theorem hex2_injective {b c : UInt8} (h : hex2 b = hex2 c) : b = c := by
  have hb := b.toNat_lt
  have hc := c.toNat_lt
  obtain ⟨hhi,hlo⟩ : Nat.digitChar (b.toNat / 16) = Nat.digitChar (c.toNat / 16) ∧
      Nat.digitChar (b.toNat % 16) = Nat.digitChar (c.toNat % 16) := by simpa [hex2] using h
  have hdiv := digitChar_injective (by omega) (by omega) hhi
  have hmod := digitChar_injective (by omega) (by omega) hlo
  apply UInt8.toNat_inj.mp
  omega

theorem hexGroup_eq (g : Group) :
    hexGroup g = hex2 (g 0) ++ ' ' :: (hex2 (g 1) ++ ' ' :: (hex2 (g 2) ++ ' ' :: (hex2 (g 3) ++ ' ' ::
      (hex2 (g 4) ++ ' ' :: (hex2 (g 5) ++ ' ' :: (hex2 (g 6) ++ ' ' :: hex2 (g 7))))))) := by
  rfl

theorem hexGroup_injective {g h : Group} (heq : hexGroup g = hexGroup h) : g = h := by
  rw [hexGroup_eq,hexGroup_eq] at heq
  simp only [hex2,List.cons_append,List.nil_append,List.cons.injEq,true_and] at heq
  funext i
  apply hex2_injective
  unfold hex2
  fin_cases i <;> simp_all

/-- In the searched text every third character is a space and the others are digits. -/
theorem bytePattern_ne_space (v : UInt8) {i : ℕ} (hi : i < (bytePattern v).length) (hmod : i % 3 ≠ 2) :
    (bytePattern v)[i] ≠ ' ' := by
  have hv := v.toNat_lt
  have hhi : Nat.digitChar (v.toNat / 16) ≠ ' ' := digitChar_ne_space (by omega)
  have hlo : Nat.digitChar (v.toNat % 16) ≠ ' ' := digitChar_ne_space (by omega)
  have hi' : i < 23 := hi
  interval_cases i
  all_goals first
    | exact hhi
    | exact hlo
    | exact absurd rfl hmod

/-- The columns of a row's line that hold a space. -/
theorem rowLine_space (k : ℕ) (r : Row) :
    ∀ p ∈ [8,9,12,33,34,37,58,59], (rowLine k r)[p]? = some ' ' := by
  intro p hp
  fin_cases hp <;> rfl

theorem length_rowLine (k : ℕ) (r : Row) : (rowLine k r).length = 78 := rfl

/-- The searched text occurs in a row's line only where one of the two groups stands:
anywhere else it would meet a space where it has a digit. -/
theorem occurrence_column {v : UInt8} {k c : ℕ} {r : Row}
    (hlen : (bytePattern v).length + c ≤ (rowLine k r).length)
    (h : ∀ i (hi : i < (bytePattern v).length), (rowLine k r)[i + c]? = some (bytePattern v)[i]) :
    c = 10 ∨ c = 35 := by
  have hp : (bytePattern v).length = 23 := rfl
  have hl : (rowLine k r).length = 78 := rfl
  have hmiss : ∀ p ∈ [8,9,12,33,34,37,58,59], c ≤ p → p < c + 23 → (p - c) % 3 = 2 := by
    intro p hmem hlow hhigh
    by_contra hmod
    have hchar := h (p - c) (by omega)
    rw [Nat.sub_add_cancel hlow,rowLine_space k r p hmem] at hchar
    exact bytePattern_ne_space v (by omega) hmod (Option.some.inj hchar).symm
  have h8 := hmiss 8 (by simp)
  have h9 := hmiss 9 (by simp)
  have h12 := hmiss 12 (by simp)
  have h33 := hmiss 33 (by simp)
  have h34 := hmiss 34 (by simp)
  have h37 := hmiss 37 (by simp)
  have h58 := hmiss 58 (by simp)
  have h59 := hmiss 59 (by simp)
  omega

theorem hexGroup_eq_bytePattern {g : Group} {v : UInt8} (h : bytePattern v = hexGroup g) :
    ∀ i, g i = v := by
  have hg := hexGroup_injective h
  intro i
  exact (congrFun hg i).symm

theorem bytePattern_eq_hexGroup {g : Group} {v : UInt8} (h : ∀ i, g i = v) : bytePattern v = hexGroup g := by
  rw [bytePattern,show g = fun _ => v from funext h]

/-- A row's line contains the searched text exactly if one of its groups is that byte throughout. -/
theorem infix_rowLine (v : UInt8) (k : ℕ) (r : Row) : bytePattern v <:+: rowLine k r ↔ HasGroup v r := by
  constructor
  · intro h
    obtain ⟨before,after,heq⟩ := h
    have hcol : before.length = 10 ∨ before.length = 35 := by
      apply occurrence_column (v := v) (k := k) (r := r)
      · rw [← heq]
        simp
        omega
      · intro i hi
        rw [← heq,List.append_assoc,List.getElem?_append_right (by omega),
          Nat.add_sub_cancel,List.getElem?_append_left hi,List.getElem?_eq_getElem hi]
    rcases hcol with hc | hc
    · left
      apply hexGroup_eq_bytePattern
      exact occurrence_at (offset (16 * k) ++ [' ',' ']) ([' ',' '] ++
        hexGroup (secondGroup r) ++ [' ',' ','|'] ++ List.ofFn (fun i => printable (r i)) ++ ['|'])
        (by rw [heq]; simp [rowLine]) hc rfl
    · right
      apply hexGroup_eq_bytePattern
      exact occurrence_at (offset (16 * k) ++ [' ',' '] ++ hexGroup (firstGroup r) ++ [' ',' '])
        ([' ',' ','|'] ++ List.ofFn (fun i => printable (r i)) ++ ['|'])
        (by rw [heq]; simp [rowLine]) hc rfl
  · rintro (h | h)
    · rw [bytePattern_eq_hexGroup h]
      exact ⟨offset (16 * k) ++ [' ',' '],_,by simp [rowLine]; rfl⟩
    · rw [bytePattern_eq_hexGroup h]
      exact ⟨offset (16 * k) ++ [' ',' '] ++ hexGroup (firstGroup r) ++ [' ',' '],_,by simp [rowLine]; rfl⟩

theorem not_infix_of_length_lt {v : UInt8} {l : Line} (h : l.length < 23) : ¬bytePattern v <:+: l := by
  intro hin
  have hle : 23 ≤ l.length := hin.length_le
  omega

theorem not_infix_asterisk (v : UInt8) : ¬bytePattern v <:+: ['*'] := not_infix_of_length_lt (by simp)

theorem not_infix_offset (v : UInt8) (n : ℕ) : ¬bytePattern v <:+: offset n :=
  not_infix_of_length_lt (by simp [offset])

/-- A row that is left out equals one that is printed, so nothing is lost to a search. -/
theorem infix_squeeze (v : UInt8) (rs : List Row) : ∀ (prev : Row) (dup : Bool) (k : ℕ),
    (HasGroup v prev ∨ ∃ l ∈ squeeze prev dup k rs, bytePattern v <:+: l) ↔
      HasGroup v prev ∨ ∃ r ∈ rs, HasGroup v r := by
  induction rs with
  | nil => simp [squeeze]
  | cons r rs ih =>
    intro prev dup k
    by_cases hr : r = prev
    · subst hr
      cases dup with
      | true =>
        rw [squeeze,if_pos rfl,if_pos rfl,ih]
        simp
      | false =>
        simp only [squeeze,if_true,Bool.false_eq_true,if_false,List.exists_mem_cons_iff,
          not_infix_asterisk,false_or]
        rw [ih r true (k + 1),← or_assoc,or_self]
    · simp only [squeeze,if_neg hr,List.exists_mem_cons_iff,infix_rowLine]
      rw [ih r false (k + 1)]

theorem infix_hexdump (v : UInt8) (rs : List Row) :
    (∃ l ∈ hexdump rs, bytePattern v <:+: l) ↔ ∃ r ∈ rs, HasGroup v r := by
  cases rs with
  | nil => simp [hexdump]
  | cons r rs =>
    have hrest := infix_squeeze v rs r false 1
    simp only [hexdump,List.cons_append,List.exists_mem_cons_iff,List.mem_append,or_and_right,exists_or,
      List.mem_singleton,exists_eq_left,not_infix_offset,or_false,infix_rowLine]
    exact hrest

/-- The first lines below a printed row all contain the searched text exactly if as many rows
are printed, each of them having the group: an asterisk among them does not contain it. -/
theorem infix_take_squeeze (v : UInt8) (rs : List Row) : ∀ (prev : Row) (k n : ℕ) (rest : List Line),
    n ≤ rs.length → ((∀ l ∈ (squeeze prev false k rs ++ rest).take n, bytePattern v <:+: l) ↔
      (prev :: rs.take n).IsChain (· ≠ ·) ∧ ∀ r ∈ rs.take n, HasGroup v r) := by
  induction rs with
  | nil =>
    intro prev k n rest hn
    obtain rfl : n = 0 := by simpa using hn
    simp
  | cons r rs ih =>
    intro prev k n rest hn
    cases n with
    | zero => simp
    | succ n =>
      by_cases hr : r = prev
      · subst hr
        simp [squeeze,not_infix_asterisk]
      · have hrest := ih r (k + 1) n rest (by simpa using hn)
        have hne : prev ≠ r := fun h => hr h.symm
        simp only [squeeze,if_neg hr,List.cons_append,List.take_succ_cons,List.forall_mem_cons,hrest,
          infix_rowLine,List.isChain_cons_cons,ne_eq,hne,not_false_eq_true,true_and]
        tauto

theorem squeeze_nonempty (rs : List Row) : ∀ (prev : Row) (dup : Bool) (k : ℕ),
    ∀ l ∈ squeeze prev dup k rs, l ≠ [] := by
  induction rs with
  | nil => simp [squeeze]
  | cons r rs ih =>
    intro prev dup k l hl
    unfold squeeze at hl
    split at hl
    · split at hl
      · exact ih _ _ _ l hl
      · rcases List.mem_cons.mp hl with rfl | hl
        · simp
        · exact ih _ _ _ l hl
    · rcases List.mem_cons.mp hl with rfl | hl
      · intro hnil
        have hlen := length_rowLine k r
        rw [hnil] at hlen
        cases hlen
      · exact ih _ _ _ l hl

theorem hexdump_nonempty (rs : List Row) : ∀ l ∈ hexdump rs, l ≠ [] := by
  cases rs with
  | nil => simp [hexdump]
  | cons r rs =>
    intro l hl hnil
    subst hnil
    simp only [hexdump,List.cons_append,List.mem_cons,List.mem_append,List.not_mem_nil,or_false] at hl
    rcases hl with h | h | h
    · exact absurd (congrArg List.length h) (by rw [length_rowLine]; simp)
    · exact squeeze_nonempty rs r false 1 [] h rfl
    · exact absurd (congrArg List.length h) (by simp [offset])

theorem rows_eq_cons (s : Sector) : rows s = row s 0 :: List.ofFn (fun k : Fin 31 => row s k.succ) :=
  List.ofFn_succ

theorem mem_rows {s : Sector} {r : Row} : r ∈ rows s ↔ ∃ k, row s k = r := by
  rw [rows,List.mem_ofFn]

/-- A sector of equal bytes has the group in every row. -/
theorem hasGroup_row {s : Sector} {v : UInt8} (h : ∀ i, s i = v) (k : Fin 32) : HasGroup v (row s k) :=
  Or.inl fun _ => h _

end SecureWipeOut.Hexdump
