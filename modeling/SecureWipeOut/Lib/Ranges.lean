import Mathlib.Tactic

/-! # Lists of address ranges

A range is a start and a length. Two shapes of lists recur: a tiling leaves no
gap between its ranges, a packing only keeps them in order and apart.
-/
namespace SecureWipeOut.Ranges

/-- Consecutive nonempty ranges that start at the first bound and end at the last. -/
def Tiles : ℕ → List (ℕ × ℕ) → ℕ → Prop
  | a, [], b => a = b
  | a, r :: rest, b => r.1 = a ∧ 0 < r.2 ∧ Tiles (r.1 + r.2) rest b

theorem Tiles.snoc {a b : ℕ} {rs : List (ℕ × ℕ)} (h : Tiles a rs b) {len : ℕ} (hl : 0 < len) :
    Tiles a (rs ++ [(b,len)]) (b + len) := by
  induction rs generalizing a with
  | nil =>
    have hab : a = b := h
    exact ⟨hab.symm,hl,rfl⟩
  | cons r rest ih =>
    obtain ⟨hr,hp,ht⟩ := h
    exact ⟨hr,hp,ih ht⟩

theorem Tiles.le {a b : ℕ} {rs : List (ℕ × ℕ)} (h : Tiles a rs b) : a ≤ b := by
  induction rs generalizing a with
  | nil => exact le_of_eq h
  | cons r rest ih =>
    obtain ⟨hr,_,ht⟩ := h
    have := ih ht
    omega

theorem Tiles.mem_bounds {a b : ℕ} {rs : List (ℕ × ℕ)} (h : Tiles a rs b) {r : ℕ × ℕ}
    (hr : r ∈ rs) : a ≤ r.1 ∧ r.1 + r.2 ≤ b := by
  induction rs generalizing a with
  | nil => simp at hr
  | cons q rest ih =>
    obtain ⟨hq,_,ht⟩ := h
    have hle := ht.le
    rcases List.mem_cons.mp hr with rfl | hr
    · omega
    · have := ih ht hr
      omega

/-- A tiling leaves no address of its area uncovered. -/
theorem Tiles.exists_mem {a b : ℕ} {rs : List (ℕ × ℕ)} (h : Tiles a rs b) {i : ℕ}
    (hi : a ≤ i) (hi' : i < b) : ∃ r ∈ rs, r.1 ≤ i ∧ i < r.1 + r.2 := by
  induction rs generalizing a with
  | nil =>
    have hab : a = b := h
    omega
  | cons r rest ih =>
    obtain ⟨hr,_,ht⟩ := h
    by_cases hlt : i < r.1 + r.2
    · exact ⟨r,List.mem_cons_self,by omega,hlt⟩
    · obtain ⟨q,hq,hb⟩ := ih ht (by omega)
      exact ⟨q,List.mem_cons_of_mem _ hq,hb⟩

/-- Nonempty ranges in ascending order between the two bounds, none overlapping
the next. -/
def Packed : ℕ → List (ℕ × ℕ) → ℕ → Prop
  | a, [], b => a ≤ b
  | a, r :: rest, b => a ≤ r.1 ∧ 0 < r.2 ∧ Packed (r.1 + r.2) rest b

theorem Packed.le {a b : ℕ} {rs : List (ℕ × ℕ)} (h : Packed a rs b) : a ≤ b := by
  induction rs generalizing a with
  | nil => exact h
  | cons r rest ih =>
    obtain ⟨hr,_,ht⟩ := h
    have := ih ht
    omega

theorem Packed.append {a m b : ℕ} {rs qs : List (ℕ × ℕ)} (h : Packed a rs m)
    (h' : Packed m qs b) : Packed a (rs ++ qs) b := by
  induction rs generalizing a with
  | nil =>
    have ham : a ≤ m := h
    cases qs with
    | nil => exact le_trans ham h'
    | cons q rest => exact ⟨ham.trans h'.1,h'.2⟩
  | cons r rest ih => exact ⟨h.1,h.2.1,ih h.2.2⟩

theorem Packed.weaken {a a' b : ℕ} {rs : List (ℕ × ℕ)} (h : Packed a rs b) (ha : a' ≤ a) :
    Packed a' rs b := by
  cases rs with
  | nil => exact ha.trans h
  | cons r rest => exact ⟨ha.trans h.1,h.2⟩

theorem Packed.mem {a b : ℕ} {rs : List (ℕ × ℕ)} (h : Packed a rs b) {r : ℕ × ℕ}
    (hr : r ∈ rs) : a ≤ r.1 ∧ 0 < r.2 ∧ r.1 + r.2 ≤ b := by
  induction rs generalizing a with
  | nil => simp at hr
  | cons q rest ih =>
    obtain ⟨hq,hp,ht⟩ := h
    have hle := ht.le
    rcases List.mem_cons.mp hr with rfl | hr
    · exact ⟨hq,hp,hle⟩
    · have := ih ht hr
      omega

/-- Ranges of a packing that stand at different places do not meet. -/
theorem Packed.pairwise {a b : ℕ} {rs : List (ℕ × ℕ)} (h : Packed a rs b) :
    rs.Pairwise (fun r q => r.1 + r.2 ≤ q.1) := by
  induction rs generalizing a with
  | nil => exact List.Pairwise.nil
  | cons r rest ih =>
    obtain ⟨_,_,ht⟩ := h
    exact List.Pairwise.cons (fun q hq => (ht.mem hq).1) (ih ht)

theorem Tiles.packed {a b : ℕ} {rs : List (ℕ × ℕ)} (h : Tiles a rs b) : Packed a rs b := by
  induction rs generalizing a with
  | nil => exact le_of_eq h
  | cons r rest ih =>
    obtain ⟨hr,hp,ht⟩ := h
    exact ⟨hr.ge,hp,ih ht⟩

theorem Tiles.sum {a b : ℕ} {rs : List (ℕ × ℕ)} (h : Tiles a rs b) :
    a + (rs.map Prod.snd).sum = b := by
  induction rs generalizing a with
  | nil => exact h
  | cons r rest ih =>
    obtain ⟨hr,_,ht⟩ := h
    have := ih ht
    rw [List.map_cons,List.sum_cons]
    omega

end SecureWipeOut.Ranges
