import Mathlib.Tactic
import Mathlib.Data.List.Infix
import Mathlib.Data.List.DropRight

/-! # Lines of text

The line filters a shell pipeline is made of. A text is its list of lines, without
the line breaks; a literal pattern matches a line that contains it.
-/
namespace SecureWipeOut.Text

abbrev Line := List Char

def contains (pat line : Line) : Bool := decide (pat <:+: line)

/-- The status of `grep -q`. -/
def grepQ (pat : Line) (ls : List Line) : Bool := ls.any (contains pat)

/-- The status of `grep -qv`. -/
def grepQv (pat : Line) (ls : List Line) : Bool := ls.any (fun l => !contains pat l)

def grepV (pat : Line) (ls : List Line) : List Line := ls.filter (fun l => !contains pat l)

/-- What a command substitution keeps of an output: trailing empty lines are removed. -/
def capture (ls : List Line) : List Line := ls.rdropWhile List.isEmpty

/-- Printing a captured output; an empty one is printed as an empty line. -/
def echo : List Line → List Line
  | [] => [[]]
  | l :: ls => l :: ls

/-- The first and the last position at which a text occurs in a line. -/
def firstAt (pat line : Line) : Option ℕ :=
  (List.range line.length).find? fun i => pat.isPrefixOf (line.drop i)

def lastAt (pat line : Line) : Option ℕ :=
  (List.range line.length).reverse.find? fun i => pat.isPrefixOf (line.drop i)

def lastDigitAt (line : Line) : Option ℕ :=
  (List.range line.length).reverse.find? fun i => (line.getD i ' ').isDigit

/-- The part of a line from position `i` up to, and without, position `j`. -/
def slice (line : Line) (i j : ℕ) : Line := (line.take j).drop i

/-- The matches of `[0-9]\+`. -/
def digitRuns (line : Line) : List Line :=
  (line.splitOnP fun c => !c.isDigit).filter fun run => !run.isEmpty

def decimal (digits : Line) : ℕ := digits.foldl (fun n c => 10 * n + (c.toNat - 48)) 0

theorem contains_iff (pat line : Line) : contains pat line = true ↔ pat <:+: line := by
  simp [contains]

theorem grepQ_iff (pat : Line) (ls : List Line) : grepQ pat ls = true ↔ ∃ l ∈ ls, pat <:+: l := by
  simp [grepQ,contains]

theorem grepQv_eq_false_iff (pat : Line) (ls : List Line) :
    grepQv pat ls = false ↔ ∀ l ∈ ls, pat <:+: l := by
  simp [grepQv,contains]

theorem capture_of_nonempty {ls : List Line} (h : ∀ l ∈ ls, l ≠ []) : capture ls = ls := by
  rcases List.eq_nil_or_concat ls with rfl | ⟨init,last,rfl⟩
  · rfl
  · rw [capture,List.concat_eq_append,List.rdropWhile_concat_neg]
    have hlast := h last (by simp)
    simpa using hlast

theorem echo_of_ne_nil {ls : List Line} (h : ls ≠ []) : echo ls = ls := by
  cases ls with
  | nil => exact absurd rfl h
  | cons l ls => rfl

/-- An occurrence at a known position inside a line that is cut there. -/
theorem occurrence_at {pat mid before after : Line} (left right : Line)
    (h : before ++ pat ++ after = left ++ mid ++ right) (hleft : before.length = left.length)
    (hmid : pat.length = mid.length) : pat = mid := by
  rw [List.append_assoc,List.append_assoc] at h
  exact List.append_inj_left (List.append_inj_right h hleft) hmid

/-- The digits of a number have its value. -/
theorem decimal_toDigits (n : ℕ) : decimal (Nat.toDigits 10 n) = n := by
  conv_rhs => rw [← Nat.ofDigitChars_ten_toDigits (n := n),Nat.ofDigitChars_eq_foldl]
  rfl

section Infix
variable {α β : Type*}

/-- A text without the separator occurs on one side of it. -/
theorem infix_append_cons_iff {c : α} {pat l₁ l₂ : List α} (h : c ∉ pat) :
    pat <:+: l₁ ++ c :: l₂ ↔ pat <:+: l₁ ∨ pat <:+: l₂ := by
  constructor
  · rw [List.infix_append_iff]
    rintro (hl | hr | ⟨a,b,rfl,ha,hb⟩)
    · exact Or.inl hl
    · rcases List.infix_cons_iff.mp hr with hp | hi
      · rcases List.prefix_cons_iff.mp hp with rfl | ⟨t,rfl,-⟩
        · exact Or.inl List.nil_infix
        · exact absurd List.mem_cons_self h
      · exact Or.inr hi
    · rcases List.prefix_cons_iff.mp hb with rfl | ⟨t,rfl,-⟩
      · rw [List.append_nil]
        exact Or.inl ha.isInfix
      · exact absurd (List.mem_append_right a List.mem_cons_self) h
  · rintro (hl | hr)
    · exact List.infix_append_of_infix_left hl
    · exact List.infix_append_of_infix_right (List.infix_cons hr)

/-- Where only one value is shown as each character, a text is shown where its values are. -/
theorem infix_map_iff_map {f : α → β} {g : β → α} {pat : List β} {l : List α}
    (h : ∀ b ∈ pat, ∀ a, f a = b ↔ a = g b) : pat <:+: l.map f ↔ pat.map g <:+: l := by
  constructor
  · intro hpat
    obtain ⟨l',hl',rfl⟩ := List.infix_map_iff.mp hpat
    have hid : (l'.map f).map g = l'.map id := by
      rw [List.map_map]
      apply List.map_congr_left
      intro a ha
      exact ((h (f a) (List.mem_map_of_mem ha) a).mp rfl).symm
    rwa [hid,List.map_id]
  · intro hl
    have hid : (pat.map g).map f = pat.map id := by
      rw [List.map_map]
      apply List.map_congr_left
      intro b hb
      exact (h b hb (g b)).mpr rfl
    have := hl.map f
    rwa [hid,List.map_id] at this

end Infix

end SecureWipeOut.Text
