import Mathlib.Tactic

/-! # The list of bad blocks

An array of block numbers kept in ascending order: additions at the end are the
common case, others are inserted in place, and lookups bisect. Growing the array
is assumed to succeed.
-/
namespace SecureWipeOut.BadBlockList

structure U64List where
  size : ℕ
  list : List ℕ

def create (size : ℕ) : U64List := ⟨if size = 0 then 10 else size,[]⟩

/-- Insertion before the first larger entry, unless the block is met on the way. -/
def insertBlock (blk : ℕ) : List ℕ → List ℕ
  | [] => [blk]
  | x :: xs => if x = blk then x :: xs else if blk < x then blk :: x :: xs else x :: insertBlock blk xs

def add (bb : U64List) (blk : ℕ) : U64List :=
  let size := if bb.size ≤ bb.list.length then bb.size + 100 else bb.size
  match bb.list.getLast? with
  | none => ⟨size,[blk]⟩
  | some last =>
    if last = blk then ⟨size,bb.list⟩
    else if last < blk then ⟨size,bb.list ++ [blk]⟩
    else ⟨size,insertBlock blk bb.list⟩

def bisect (list : List ℕ) (blk low high : ℕ) : Option ℕ :=
  if low < high then
    let mid := (low + high) / 2
    if mid = low ∨ mid = high then none
    else if blk = list.getD mid 0 then some mid
    else if blk < list.getD mid 0 then bisect list blk low mid
    else bisect list blk mid high
  else none
  termination_by high - low

/-- The index of a block, none standing for a negative answer. -/
def find (bb : U64List) (blk : ℕ) : Option ℕ :=
  if bb.list = [] then none
  else
    let high := bb.list.length - 1
    if blk = bb.list.getD 0 0 then some 0
    else if blk = bb.list.getD high 0 then some high
    else bisect bb.list blk 0 high

def test (bb : U64List) (blk : ℕ) : Bool := (find bb blk).isSome

theorem mem_insertBlock (blk x : ℕ) (xs : List ℕ) :
    x ∈ insertBlock blk xs ↔ x = blk ∨ x ∈ xs := by
  induction xs with
  | nil => simp [insertBlock]
  | cons y ys ih =>
    unfold insertBlock
    split
    · rename_i h
      subst h
      simp
    · split
      · simp
      · rw [List.mem_cons,ih,List.mem_cons]
        tauto

theorem mem_add (bb : U64List) (blk x : ℕ) : x ∈ (add bb blk).list ↔ x = blk ∨ x ∈ bb.list := by
  unfold add
  dsimp only
  cases hl : bb.list.getLast? with
  | none =>
    rw [List.getLast?_eq_none_iff.mp hl]
    simp
  | some last =>
    have hlast : last ∈ bb.list := List.mem_of_getLast? hl
    dsimp only
    split
    · rename_i h
      subst h
      constructor
      · exact Or.inr
      · rintro (rfl | hx)
        · exact hlast
        · exact hx
    · split
      · simp only [List.mem_append,List.mem_singleton]
        tauto
      · exact mem_insertBlock blk x bb.list

theorem mem_of_getD {list : List ℕ} {blk j : ℕ} (hj : j < list.length)
    (hb : blk = list.getD j 0) : blk ∈ list := by
  rw [List.getD_eq_getElem?_getD,List.getElem?_eq_getElem hj,Option.getD_some] at hb
  rw [hb]
  exact List.getElem_mem hj

theorem mem_of_bisect {list : List ℕ} {blk low high i : ℕ} (hh : high < list.length)
    (h : bisect list blk low high = some i) : blk ∈ list := by
  fun_induction bisect list blk low high with
  | case1 => cases h
  | case2 low high hlt mid hmid heq => exact mem_of_getD (by omega) heq
  | case3 low high hlt mid hmid hne hless ih => exact ih (by omega) h
  | case4 low high hlt mid hmid hne hge ih => exact ih hh h
  | case5 => cases h

/-- A block the lookup finds is on the list. -/
theorem mem_of_test {bb : U64List} {blk : ℕ} (h : test bb blk = true) : blk ∈ bb.list := by
  unfold test find at h
  split at h
  · cases h
  · rename_i hne
    have hlen := List.length_pos_iff.mpr hne
    dsimp only at h
    split at h
    · rename_i h0
      exact mem_of_getD hlen h0
    · split at h
      · rename_i hhigh
        exact mem_of_getD (by omega) hhigh
      · obtain ⟨i,hi⟩ := Option.isSome_iff_exists.mp h
        exact mem_of_bisect (by omega) hi

end SecureWipeOut.BadBlockList
