import Mathlib.Tactic

/-! # Searching for a text

The first occurrence of a text in another one, and the loop that passes the occurrences that it
does not accept. The loop goes on behind the end of an occurrence, so that it sees all of them
only where no two overlap.
-/
namespace SecureWipeOut.Search
variable {α : Type*} [DecidableEq α]

/-- A text stands at a place of another one. -/
def Occurs (needle text : List α) (i : ℕ) : Prop := needle <+: text.drop i

instance (needle text : List α) (i : ℕ) : Decidable (Occurs needle text i) :=
  inferInstanceAs (Decidable (needle <+: text.drop i))

/-- The first place where a text stands. -/
def find (needle text : List α) : Option ℕ := text.tails.findIdx? fun t => needle.isPrefixOf t

section Find
variable {needle text : List α} {i j : ℕ}

omit [DecidableEq α] in
theorem Occurs.le_length (h : Occurs needle text i) (hne : needle ≠ []) : i + needle.length ≤ text.length := by
  have hlen := List.IsPrefix.length_le h
  have hpos := List.length_pos_of_ne_nil hne
  rw [List.length_drop] at hlen
  omega

theorem find_eq_some_iff : find needle text = some i ↔
    i ≤ text.length ∧ Occurs needle text i ∧ ∀ j < i, ¬Occurs needle text j := by
  rw [find,List.findIdx?_eq_some_iff_getElem]
  simp only [List.getElem_tails,List.isPrefixOf_iff_prefix,List.length_tails,Nat.lt_succ_iff]
  constructor
  · rintro ⟨hi,hocc,hleast⟩
    exact ⟨hi,hocc,hleast⟩
  · rintro ⟨hi,hocc,hleast⟩
    exact ⟨hi,hocc,hleast⟩

theorem find_eq_none_iff (hne : needle ≠ []) : find needle text = none ↔ ∀ i, ¬Occurs needle text i := by
  rw [find,List.findIdx?_eq_none_iff]
  constructor
  · intro h i hocc
    have hle := hocc.le_length hne
    have hmem : text.drop i ∈ text.tails := by
      rw [List.mem_tails]
      exact List.drop_suffix i text
    have hno := h _ hmem
    rw [List.isPrefixOf_iff_prefix.mpr hocc] at hno
    exact Bool.noConfusion hno
  · intro h t ht
    obtain ⟨pre,rfl⟩ := (List.mem_tails t text).mp ht
    rw [Bool.eq_false_iff]
    intro hocc
    refine h pre.length ?_
    rw [Occurs,List.drop_left]
    exact List.isPrefixOf_iff_prefix.mp hocc

omit [DecidableEq α] in
theorem occurs_drop : Occurs needle (text.drop i) j ↔ Occurs needle text (i + j) := by
  rw [Occurs,Occurs,List.drop_drop]

omit [DecidableEq α] in
/-- What stands in the first part of a text stands in the text and ends there. -/
theorem occurs_take (hne : needle ≠ []) :
    Occurs needle (text.take j) i ↔ Occurs needle text i ∧ i + needle.length ≤ j := by
  unfold Occurs
  rw [List.drop_take]
  constructor
  · intro h
    have hlen := h.length_le
    have hpos := List.length_pos_of_ne_nil hne
    rw [List.length_take] at hlen
    exact ⟨h.trans (List.take_prefix _ _),by omega⟩
  · rintro ⟨h,hle⟩
    exact List.prefix_take_iff.mpr ⟨h,by omega⟩

/-- Where no occurrence begins in the first part, the search goes on in the second one. -/
theorem find_append {pre : List α} (h : ∀ i < pre.length, ¬Occurs needle (pre ++ text) i) :
    find needle (pre ++ text) = (find needle text).map (pre.length + ·) := by
  have hshift : ∀ k, Occurs needle (pre ++ text) (pre.length + k) ↔ Occurs needle text k := by
    intro k
    rw [Occurs,Occurs,← List.drop_drop,List.drop_left]
  apply Option.ext
  intro i
  rw [Option.map_eq_some_iff,find_eq_some_iff]
  constructor
  · rintro ⟨hle,hocc,hleast⟩
    have hge : pre.length ≤ i := by
      by_contra hlt
      exact h i (not_le.mp hlt) hocc
    obtain ⟨k,rfl⟩ := Nat.exists_eq_add_of_le hge
    rw [List.length_append] at hle
    refine ⟨k,find_eq_some_iff.mpr ⟨by omega,(hshift k).mp hocc,fun j hj hoccj => ?_⟩,rfl⟩
    exact hleast (pre.length + j) (by omega) ((hshift j).mpr hoccj)
  · rintro ⟨k,hk,rfl⟩
    obtain ⟨hle,hocc,hleast⟩ := find_eq_some_iff.mp hk
    rw [List.length_append]
    refine ⟨by omega,(hshift k).mpr hocc,fun j hj hoccj => ?_⟩
    rcases Nat.lt_or_ge j pre.length with hlt | hge
    · exact h j hlt hoccj
    · obtain ⟨k',rfl⟩ := Nat.exists_eq_add_of_le hge
      exact hleast k' (by omega) ((hshift k').mp hoccj)

theorem find_isSome {i : ℕ} (hi : i ≤ text.length) (h : Occurs needle text i) : ∃ k ≤ i, find needle text = some k := by
  classical
  have hex : ∃ i, i ≤ text.length ∧ Occurs needle text i := ⟨i,hi,h⟩
  refine ⟨Nat.find hex,Nat.find_min' hex ⟨hi,h⟩,find_eq_some_iff.mpr ⟨(Nat.find_spec hex).1,(Nat.find_spec hex).2,fun j hj hoccj => ?_⟩⟩
  exact Nat.find_min hex hj ⟨hj.le.trans (Nat.find_spec hex).1,hoccj⟩

omit [DecidableEq α] in
/-- A text without a separator does not go over it. -/
theorem prefix_append_sep {sep : α} (hsep : sep ∉ needle) (pre post : List α) :
    needle <+: pre ++ sep :: post ↔ needle <+: pre := by
  constructor
  · intro h
    have hwhole : pre ++ [sep] <+: pre ++ sep :: post := ⟨post,by rw [List.append_assoc]; rfl⟩
    rcases Nat.lt_or_ge pre.length needle.length with hlt | hge
    · have hlong := List.prefix_of_prefix_length_le hwhole h (by rw [List.length_append]; exact hlt)
      exact absurd (hlong.subset (List.mem_append_right _ List.mem_cons_self)) hsep
    · exact List.prefix_of_prefix_length_le h ( List.prefix_append _ _) hge
  · exact fun h => h.trans ( List.prefix_append _ _)

end Find

section Seek

/-- The loop that passes the occurrences that are not accepted: where it stops searching, and the
occurrence found. -/
def seek (accept : ℕ → Bool) (c : α) (needle text : List α) (pos : ℕ) : ℕ × Option ℕ :=
  match _h : find (c :: needle) (text.drop pos) with
  | none => (pos,none)
  | some k => if accept (pos + k) then (pos,some (pos + k)) else seek accept c needle text (pos + k + (c :: needle).length)
  termination_by text.length - pos
  decreasing_by
    have hocc := (find_eq_some_iff.mp _h).2.1
    have hle := hocc.le_length (List.cons_ne_nil _ _)
    rw [List.length_drop,List.length_cons] at hle
    rw [List.length_cons]
    omega

/-- No two occurrences overlap. -/
def Apart (needle text : List α) : Prop :=
  ∀ i j, Occurs needle text i → Occurs needle text j → i < j → i + needle.length ≤ j

omit [DecidableEq α] in
theorem apart_iff (needle text : List α) : Apart needle text ↔ ∀ i ≤ text.length, ∀ j ≤ text.length,
    Occurs needle text i → Occurs needle text j → i < j → i + needle.length ≤ j := by
  refine ⟨fun h i _ j _ => h i j,fun h i j hi hj hij => ?_⟩
  rcases eq_or_ne needle [] with rfl | hne
  · exact hij.le
  · have hi' := hi.le_length hne
    have hj' := hj.le_length hne
    exact h i (by omega) j (by omega) hi hj hij

instance (needle text : List α) : Decidable (Apart needle text) := decidable_of_iff' _ (apart_iff needle text)

variable {accept : ℕ → Bool} {c : α} {needle text : List α} {pos p : ℕ}

theorem seek_none (h : find (c :: needle) (text.drop pos) = none) : seek accept c needle text pos = (pos,none) := by
  rw [seek]
  split
  next => rfl
  next k hk => rw [h] at hk; cases hk

theorem seek_some {k : ℕ} (h : find (c :: needle) (text.drop pos) = some k) : seek accept c needle text pos =
    if accept (pos + k) then (pos,some (pos + k)) else seek accept c needle text (pos + k + (c :: needle).length) := by
  rw [seek]
  split
  next hk => rw [h] at hk; cases hk
  next k' hk =>
    obtain rfl : k = k' := Option.some.inj (h.symm.trans hk)
    rfl

/-- How the loop ends: at an occurrence that is accepted, those before it not being accepted, or
with none, behind the last occurrence. -/
structure Sought (accept : ℕ → Bool) (needle text : List α) (pos : ℕ) (r : ℕ × Option ℕ) : Prop where
  le : pos ≤ r.1
  found : ∀ p, r.2 = some p → pos ≤ p ∧ Occurs needle text p ∧ accept p = true
  first : Apart needle text → ∀ p, r.2 = some p → ∀ i, pos ≤ i → i < p → Occurs needle text i → accept i = false
  refused : Apart needle text → r.2 = none → ∀ i, pos ≤ i → Occurs needle text i → accept i = false
  stop : r.2 = none → (r.1 = pos ∧ ∀ i, pos ≤ i → ¬Occurs needle text i) ∨
    ∃ i, pos ≤ i ∧ Occurs needle text i ∧ r.1 = i + needle.length

theorem seek_sought (accept : ℕ → Bool) (c : α) (needle text : List α) (pos : ℕ) :
    Sought accept (c :: needle) text pos (seek accept c needle text pos) := by
  induction hlen : text.length - pos using Nat.strongRecOn generalizing pos with
  | ind m ih =>
    cases hfind : find (c :: needle) (text.drop pos) with
    | none =>
      have hno : ∀ i, pos ≤ i → ¬Occurs (c :: needle) text i := by
        intro i hi hocc
        refine (find_eq_none_iff (List.cons_ne_nil _ _)).mp hfind (i - pos) ?_
        rw [occurs_drop,Nat.add_sub_cancel' hi]
        exact hocc
      rw [seek_none hfind]
      exact ⟨le_rfl,fun p hp => (nomatch hp),fun _ p hp => (nomatch hp),fun _ _ i hi hocc => absurd hocc (hno i hi),
        fun _ => Or.inl ⟨rfl,hno⟩⟩
    | some k =>
      obtain ⟨-,hocc,hleast⟩ := find_eq_some_iff.mp hfind
      rw [occurs_drop] at hocc
      have hbefore : ∀ i, pos ≤ i → i < pos + k → ¬Occurs (c :: needle) text i := by
        intro i hi hik hocc'
        refine hleast (i - pos) (by omega) ?_
        rw [occurs_drop,Nat.add_sub_cancel' hi]
        exact hocc'
      have hle := hocc.le_length (List.cons_ne_nil _ _)
      have hpos : 0 < (c :: needle).length := Nat.succ_pos _
      rw [seek_some hfind]
      cases haccept : accept (pos + k) with
      | true =>
        rw [if_pos rfl]
        refine ⟨le_rfl,fun p hp => ?_,fun _ p hp i hi hip hocc' => ?_,fun _ h => (nomatch h),fun h => nomatch h⟩
        · obtain rfl := Option.some.inj hp
          exact ⟨Nat.le_add_right _ _,hocc,haccept⟩
        · obtain rfl := Option.some.inj hp
          exact absurd hocc' (hbefore i hi hip)
      | false =>
        rw [if_neg Bool.false_ne_true]
        have hrest := ih (text.length - (pos + k + (c :: needle).length)) (by omega) _ rfl
        have hskip : Apart (c :: needle) text → ∀ i, pos ≤ i → i < pos + k + (c :: needle).length →
            Occurs (c :: needle) text i → accept i = false := by
          intro hapart i hi hlt hocc'
          rcases lt_trichotomy i (pos + k) with h | rfl | h
          · exact absurd hocc' (hbefore i hi h)
          · exact haccept
          · exact absurd (hapart _ _ hocc hocc' h) (by omega)
        refine ⟨by have := hrest.le; omega,fun p hp => ?_,fun hapart p hp i hi hip hocc' => ?_,
          fun hapart hnone i hi hocc' => ?_,fun hnone => Or.inr ?_⟩
        · obtain ⟨hp,hrest⟩ := hrest.found p hp
          exact ⟨by omega,hrest⟩
        · rcases Nat.lt_or_ge i (pos + k + (c :: needle).length) with h | h
          · exact hskip hapart i hi h hocc'
          · exact hrest.first hapart p hp i h hip hocc'
        · rcases Nat.lt_or_ge i (pos + k + (c :: needle).length) with h | h
          · exact hskip hapart i hi h hocc'
          · exact hrest.refused hapart hnone i h hocc'
        · rcases hrest.stop hnone with ⟨hstop,-⟩ | ⟨i,hi,hocc',hstop⟩
          · exact ⟨pos + k,Nat.le_add_right _ _,hocc,hstop⟩
          · exact ⟨i,by omega,hocc',hstop⟩

end Seek

end SecureWipeOut.Search
