import SecureWipeOut.Drive.BadBlockList
import SecureWipeOut.Lib.CInt

/-! # What the list of bad blocks holds

The list stays strictly ascending within its allocated size, holds the blocks of the
additions that succeeded, and the bisection finds exactly these. An addition fails only
where the array is full and cannot be enlarged.
-/
namespace SecureWipeOut.BadBlockList
open CInt

inductive ErrCode where
  | ok
  | noMemory
  deriving DecidableEq

/-- What `realloc` grants at the time of a call. Nothing as large as half of the address
space is ever granted. -/
structure Allocator where
  grants : ℕ → Bool
  lt_of_grants : ∀ {n}, grants n = true → n < 2 ^ 63

/-- The bytes of an array with an `int` number of entries, which `size_t` extends by its sign. -/
def listBytes (size : ℕ) : ℕ :=
  qword ((if dword size < 2 ^ 31 then dword size else dword size + (2 ^ 64 - 2 ^ 32)) * 8)

/-- `bb_u64_list_add`: a full array is enlarged before the block is looked for. -/
def bbU64ListAdd (alloc : Allocator) (bb : U64List) (blk : ℕ) : ErrCode × U64List :=
  if bb.size ≤ bb.list.length ∧ alloc.grants (listBytes (bb.size + 100)) = false then (.noMemory,bb)
  else (.ok,add bb blk)

/-- An `int` that has become negative asks for more than there is. -/
theorem le_listBytes {size : ℕ} (h : 2 ^ 31 ≤ size) (h' : size < 2 ^ 32) : 2 ^ 63 ≤ listBytes size := by
  rw [listBytes,dword_of_lt h',if_neg (not_lt.mpr h),qword]
  omega

structure Valid (bb : U64List) : Prop where
  ascending : bb.list.Pairwise (· < ·)
  room : bb.list.length ≤ bb.size
  size_lt : bb.size < 2 ^ 31

theorem valid_create : Valid (create 0) := ⟨List.Pairwise.nil,Nat.zero_le _,by decide⟩

section Insertion
variable {blk : ℕ} {list : List ℕ}

theorem insertBlock_ascending (h : list.Pairwise (· < ·)) :
    (insertBlock blk list).Pairwise (· < ·) := by
  induction list with
  | nil => exact List.pairwise_singleton _ _
  | cons x xs ih =>
    obtain ⟨hx,hxs⟩ := List.pairwise_cons.mp h
    unfold insertBlock
    split
    · exact h
    · split
      case isTrue hlt =>
        refine List.pairwise_cons.mpr ⟨fun y hy => ?_,h⟩
        rcases List.mem_cons.mp hy with rfl | hy
        · exact hlt
        · exact hlt.trans (hx y hy)
      case isFalse hne hge =>
        refine List.pairwise_cons.mpr ⟨fun y hy => ?_,ih hxs⟩
        rcases (mem_insertBlock blk y xs).mp hy with rfl | hy
        · omega
        · exact hx y hy

theorem length_insertBlock_le : (insertBlock blk list).length ≤ list.length + 1 := by
  induction list with
  | nil => exact le_rfl
  | cons x xs ih =>
    unfold insertBlock
    split
    · exact Nat.le_succ _
    · split
      · exact le_rfl
      · exact Nat.succ_le_succ ih

theorem le_getLast_of_ascending (h : list.Pairwise (· < ·)) {last : ℕ} (hl : list.getLast? = some last)
    {x : ℕ} (hx : x ∈ list) : x ≤ last := by
  obtain ⟨init,rfl⟩ := List.getLast?_eq_some_iff.mp hl
  rcases List.mem_append.mp hx with hx | hx
  · exact ((List.pairwise_append.mp h).2.2 x hx last List.mem_cons_self).le
  · exact (List.mem_singleton.mp hx).le

end Insertion

theorem add_ascending {bb : U64List} (h : bb.list.Pairwise (· < ·)) (blk : ℕ) :
    (add bb blk).list.Pairwise (· < ·) := by
  unfold add
  dsimp only
  cases hl : bb.list.getLast? with
  | none => exact List.pairwise_singleton _ _
  | some last =>
    dsimp only
    split
    · exact h
    · split
      case isTrue hlt =>
        refine List.pairwise_append.mpr ⟨h,List.pairwise_singleton _ _,fun x hx y hy => ?_⟩
        rw [List.mem_singleton.mp hy]
        exact (le_getLast_of_ascending h hl hx).trans_lt hlt
      case isFalse => exact insertBlock_ascending h

theorem length_add_le (bb : U64List) (blk : ℕ) : (add bb blk).list.length ≤ bb.list.length + 1 := by
  unfold add
  dsimp only
  cases bb.list.getLast? with
  | none => exact Nat.succ_le_succ (Nat.zero_le _)
  | some last =>
    dsimp only
    split
    · exact Nat.le_succ _
    · split
      · exact (List.length_append).le
      · exact length_insertBlock_le

theorem add_size (bb : U64List) (blk : ℕ) :
    (add bb blk).size = if bb.size ≤ bb.list.length then bb.size + 100 else bb.size := by
  unfold add
  dsimp only
  cases bb.list.getLast? with
  | none => rfl
  | some last =>
    dsimp only
    split
    · rfl
    · split <;> rfl

theorem Valid.add {bb : U64List} (h : Valid bb) (alloc : Allocator) (blk : ℕ) :
    Valid (bbU64ListAdd alloc bb blk).2 := by
  unfold bbU64ListAdd
  split
  · exact h
  case isFalse hgranted =>
    have hlen := length_add_le bb blk
    have hroom := h.room
    have hlt := h.size_lt
    refine ⟨add_ascending h.ascending blk,?_,?_⟩
    · dsimp only
      rw [add_size]
      split <;> omega
    · dsimp only
      rw [add_size]
      split
      case isTrue hfull =>
        -- An array of 2 ^ 31 entries would have been refused.
        by_contra hbig
        have hbytes : 2 ^ 63 ≤ listBytes (bb.size + 100) := le_listBytes (by omega) (by omega)
        have hyes : alloc.grants (listBytes (bb.size + 100)) = true :=
          Bool.eq_true_of_not_eq_false fun hno => hgranted ⟨hfull,hno⟩
        exact absurd (alloc.lt_of_grants hyes) (not_lt.mpr hbytes)
      case isFalse => exact hlt

section Search
variable {list : List ℕ} {blk low high i : ℕ}

theorem getD_of_lt (hi : i < list.length) : list.getD i 0 = list[i] := by
  rw [List.getD_eq_getElem?_getD,List.getElem?_eq_getElem hi,Option.getD_some]

theorem getD_lt_getD (h : list.Pairwise (· < ·)) {i j : ℕ} (hij : i < j) (hj : j < list.length) :
    list.getD i 0 < list.getD j 0 := by
  have hi : i < list.length := hij.trans hj
  rw [getD_of_lt hi,getD_of_lt hj]
  exact List.pairwise_iff_getElem.mp h i j hi hj hij

theorem getElem?_of_getD (hi : i < list.length) (h : blk = list.getD i 0) : list[i]? = some blk := by
  rw [h,getD_of_lt hi]
  exact List.getElem?_eq_getElem hi

theorem bisect_sound (hh : high < list.length) (h : bisect list blk low high = some i) :
    list[i]? = some blk := by
  fun_induction bisect list blk low high with
  | case1 => cases h
  | case2 low high hlt mid hmid heq =>
    obtain rfl := Option.some.inj h
    exact getElem?_of_getD (by omega) heq
  | case3 low high hlt mid hmid hne hless ih => exact ih (by omega) h
  | case4 low high hlt mid hmid hne hge ih => exact ih hh h
  | case5 => cases h

/-- The search goes on strictly between its bounds until nothing is left there. -/
theorem bisect_complete (hs : list.Pairwise (· < ·)) (hh : high < list.length) {k : ℕ}
    (hlow : low < k) (hhigh : k < high) (hk : list.getD k 0 = blk) :
    ∃ i, bisect list blk low high = some i := by
  fun_induction bisect list blk low high with
  | case1 low high hlt mid hmid => omega
  | case2 low high hlt mid hmid heq => exact ⟨mid,rfl⟩
  | case3 low high hlt mid hmid hne hless ih =>
    refine ih (by omega) hlow ?_
    by_contra hge
    rcases Nat.eq_or_lt_of_le (not_lt.mp hge) with heq | hgt
    · exact hne (by rw [heq,hk])
    · have := getD_lt_getD hs hgt (by omega)
      omega
  | case4 low high hlt mid hmid hne hge ih =>
    refine ih hh ?_ hhigh
    by_contra hle
    rcases Nat.eq_or_lt_of_le (not_lt.mp hle) with heq | hgt
    · exact hne (by rw [← heq,hk])
    · have := getD_lt_getD hs hgt (by omega)
      omega
  | case5 low high hge => omega

theorem find_sound {bb : U64List} (h : find bb blk = some i) : bb.list[i]? = some blk := by
  unfold find at h
  split at h
  · cases h
  case isFalse hne =>
    have hlen := List.length_pos_iff.mpr hne
    dsimp only at h
    split at h
    case isTrue h0 =>
      obtain rfl := Option.some.inj h
      exact getElem?_of_getD hlen h0
    case isFalse =>
      split at h
      case isTrue hhigh =>
        obtain rfl := Option.some.inj h
        exact getElem?_of_getD (by omega) hhigh
      case isFalse => exact bisect_sound (by omega) h

theorem find_complete {bb : U64List} (hs : bb.list.Pairwise (· < ·)) (h : blk ∈ bb.list) :
    ∃ i, find bb blk = some i := by
  obtain ⟨k,hk,hkb⟩ := List.getElem_of_mem h
  rw [← getD_of_lt hk] at hkb
  unfold find
  split
  case isTrue hnil => rw [hnil] at h; cases h
  case isFalse =>
    dsimp only
    split
    · exact ⟨0,rfl⟩
    case isFalse h0 =>
      split
      · exact ⟨_,rfl⟩
      case isFalse hhigh =>
        have hk0 : k ≠ 0 := fun he => h0 (by rw [← hkb,he])
        have hkh : k ≠ bb.list.length - 1 := fun he => hhigh (by rw [← hkb,he])
        exact bisect_complete hs (by omega) (by omega) (by omega) hkb

theorem find_isSome_iff {bb : U64List} (hs : bb.list.Pairwise (· < ·)) (blk : ℕ) :
    (find bb blk).isSome ↔ blk ∈ bb.list := by
  rw [Option.isSome_iff_exists]
  constructor
  · rintro ⟨i,hi⟩
    exact List.mem_of_getElem? (find_sound hi)
  · exact find_complete hs

end Search

section Runs

/-- A list together with the blocks of the additions that have returned 0. -/
structure Session where
  bb : U64List
  added : List ℕ

def Session.call (s : Session) (c : Allocator × ℕ) : Session :=
  let r := bbU64ListAdd c.1 s.bb c.2
  ⟨r.2,if r.1 = .ok then s.added ++ [c.2] else s.added⟩

def Session.run (calls : List (Allocator × ℕ)) : Session := calls.foldl Session.call ⟨create 0,[]⟩

structure Session.Sound (s : Session) : Prop where
  valid : Valid s.bb
  mem_iff : ∀ x, x ∈ s.bb.list ↔ x ∈ s.added

theorem Session.Sound.call {s : Session} (h : s.Sound) (c : Allocator × ℕ) : (s.call c).Sound := by
  refine ⟨h.valid.add c.1 c.2,fun x => ?_⟩
  unfold Session.call bbU64ListAdd
  split
  · exact h.mem_iff x
  · simp only [if_true,List.mem_append,List.mem_singleton]
    rw [mem_add,h.mem_iff]
    exact or_comm

theorem Session.Sound.foldl {s : Session} (h : s.Sound) (calls : List (Allocator × ℕ)) :
    (calls.foldl Session.call s).Sound := by
  induction calls generalizing s with
  | nil => exact h
  | cons c calls ih => exact ih (h.call c)

theorem Session.sound_run (calls : List (Allocator × ℕ)) : (Session.run calls).Sound :=
  Session.Sound.foldl ⟨valid_create,fun _ => Iff.rfl⟩ calls

/-- After any calls the list is strictly ascending and within its size, holds exactly the
blocks added, and a lookup answers with an index of the block exactly where it was added. -/
theorem u64List_exact (calls : List (Allocator × ℕ)) :
    (Session.run calls).bb.list.Pairwise (· < ·) ∧
      (Session.run calls).bb.list.length ≤ (Session.run calls).bb.size ∧
      (Session.run calls).bb.size < 2 ^ 31 ∧
      (∀ x, x ∈ (Session.run calls).bb.list ↔ x ∈ (Session.run calls).added) ∧
      ∀ blk, (∀ i, find (Session.run calls).bb blk = some i →
          (Session.run calls).bb.list[i]? = some blk) ∧
        ((find (Session.run calls).bb blk).isSome ↔ blk ∈ (Session.run calls).added) := by
  have h := Session.sound_run calls
  refine ⟨h.valid.ascending,h.valid.room,h.valid.size_lt,h.mem_iff,fun blk => ⟨fun i => find_sound,?_⟩⟩
  rw [find_isSome_iff h.valid.ascending,h.mem_iff]

end Runs

end SecureWipeOut.BadBlockList
