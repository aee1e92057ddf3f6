import SecureWipeOut.Image.PeRegions

/-! # What one call adds to the list of regions

A list that has only been filled with checked calls is in ascending order, its regions lie
apart and it does not outgrow its maximum. A call that is refused leaves it alone. One that
succeeds adds a region at the start asked for, and of the size asked for as long as this has
32 bits.
-/
namespace SecureWipeOut.PeImage

section insertion
variable {l l' : List Region} {new : Region} {stop : ℤ}

/-- The new region may be shorter than the range that was looked up. -/
theorem insertRegion_some (hl : InOrder l) (hstop : new.stop ≤ stop)
    (h : insertRegion new stop l = some l') : InOrder l' ∧ l'.Perm (new :: l) := by
  induction l generalizing l' with
  | nil =>
    obtain rfl := Option.some.inj h
    exact ⟨List.pairwise_singleton _ _,List.Perm.refl _⟩
  | cons reg rest ih =>
    obtain ⟨hreg,hrest⟩ := List.pairwise_cons.mp hl
    rw [insertRegion] at h
    split at h
    case isTrue hbehind =>
      obtain ⟨t,ht,rfl⟩ := Option.map_eq_some_iff.mp h
      obtain ⟨horder,hperm⟩ := ih hrest ht
      refine ⟨List.pairwise_cons.mpr ⟨fun r hr => ?_,horder⟩,?_⟩
      · rcases List.mem_cons.mp (hperm.subset hr) with rfl | hr
        · exact hbehind
        · exact hreg r hr
      · exact (hperm.cons reg).trans (List.Perm.swap new reg rest)
    case isFalse =>
      split at h
      case isTrue hfront =>
        obtain rfl := Option.some.inj h
        refine ⟨List.pairwise_cons.mpr ⟨fun r hr => ?_,hl⟩,List.Perm.refl _⟩
        rcases List.mem_cons.mp hr with rfl | hr
        · exact hstop.trans hfront
        · have hafter := hreg r hr
          have hsize : reg.data ≤ reg.stop := by
            rw [Region.stop]
            omega
          omega
      case isFalse => cases h

theorem insertRegion_eq_none_iff (hl : InOrder l) :
    insertRegion new stop l = none ↔ ∃ r ∈ l, ¬(r.stop ≤ new.data ∨ stop ≤ r.data) := by
  induction l with
  | nil => simp [insertRegion]
  | cons reg rest ih =>
    obtain ⟨hreg,hrest⟩ := List.pairwise_cons.mp hl
    rw [insertRegion]
    by_cases hbehind : reg.stop ≤ new.data
    · rw [if_pos hbehind,Option.map_eq_none_iff,ih hrest]
      simp [hbehind]
    · rw [if_neg hbehind]
      by_cases hfront : stop ≤ reg.data
      · have hsize : reg.data ≤ reg.stop := by
          rw [Region.stop]
          omega
        -- Whatever stands behind reg starts behind the new region as well.
        have hall : ∀ r ∈ reg :: rest, r.stop ≤ new.data ∨ stop ≤ r.data := by
          intro r hr
          rcases List.mem_cons.mp hr with rfl | hr
          · exact Or.inr hfront
          · have := hreg r hr
            exact Or.inr (by omega)
        rw [if_pos hfront]
        constructor
        · intro h
          cases h
        · rintro ⟨r,hr,hbad⟩
          exact absurd (hall r hr) hbad
      · rw [if_neg hfront]
        exact ⟨fun _ => ⟨reg,List.mem_cons_self,fun h => h.elim hbehind hfront⟩,fun _ => rfl⟩

end insertion

/-- The list after a number of checked calls. -/
structure Listed (regs : Regions) : Prop where
  order : InOrder regs.reg
  room : regs.reg.length ≤ regs.max

/-- A checked call is refused for want of room, for a range that ends before it starts, or
for an overlap. -/
def Refused (regs : Regions) (r : Range) : Prop :=
  regs.max ≤ regs.reg.length ∨ r.2 < r.1 ∨ ∃ t ∈ regs.reg, ¬(t.stop ≤ r.1 ∨ r.2 ≤ t.data)

/-- What one checked call shall do: the list stays in order, apart and within its maximum,
gains the new region on success and is unchanged otherwise. -/
structure CallSound (regs : Regions) (r : Range) : Prop where
  listed : Listed (efiImageRegionAdd regs r.1 r.2 false).2
  sorted : (efiImageRegionAdd regs r.1 r.2 false).2.reg.Pairwise fun a b => a.data ≤ b.data
  added : (efiImageRegionAdd regs r.1 r.2 false).1 = true →
    (efiImageRegionAdd regs r.1 r.2 false).2.reg.Perm (r.region :: regs.reg)
  kept : (efiImageRegionAdd regs r.1 r.2 false).1 = false →
    (efiImageRegionAdd regs r.1 r.2 false).2 = regs

section calls
variable {regs : Regions} {r : Range}

/-- The region that a call stores. -/
def Range.stored (r : Range) : Region := ⟨r.1,(r.2 - r.1).toNat % 2 ^ 32⟩

theorem Range.stored_stop_le (h : r.1 ≤ r.2) : r.stored.stop ≤ r.2 := by
  have := Nat.mod_le (r.2 - r.1).toNat (2 ^ 32)
  simp only [Range.stored,Region.stop]
  omega

theorem Range.stored_eq_iff : r.stored = r.region ↔ r.2 - r.1 < 2 ^ 32 := by
  simp only [Range.stored,Range.region,Region.mk.injEq,true_and]
  rw [Nat.mod_eq_iff_lt (by decide)]
  omega

/-- A call either is refused or puts its region at its place. -/
theorem efiImageRegionAdd_cases (h : Listed regs) (r : Range) :
    (Refused regs r ∧ efiImageRegionAdd regs r.1 r.2 false = (false,regs)) ∨
      (¬Refused regs r ∧ ∃ l, efiImageRegionAdd regs r.1 r.2 false = (true,{ regs with reg := l }) ∧
        InOrder l ∧ l.Perm (r.stored :: regs.reg)) := by
  by_cases hfull : regs.max ≤ regs.reg.length
  · exact Or.inl ⟨Or.inl hfull,if_pos hfull⟩
  · by_cases hback : r.2 < r.1
    · refine Or.inl ⟨Or.inr (Or.inl hback),?_⟩
      rw [efiImageRegionAdd,if_neg hfull,if_pos hback]
    · have hnone : insertRegion r.stored r.2 regs.reg = none ↔
          ∃ t ∈ regs.reg, ¬(t.stop ≤ r.1 ∨ r.2 ≤ t.data) := insertRegion_eq_none_iff h.order
      cases hins : insertRegion r.stored r.2 regs.reg with
      | none =>
        refine Or.inl ⟨Or.inr (Or.inr (hnone.mp hins)),?_⟩
        rw [efiImageRegionAdd,if_neg hfull,if_neg hback]
        simp only [Range.stored] at hins
        simp only [hins,Bool.false_eq_true,if_false]
      | some l =>
        obtain ⟨horder,hperm⟩ := insertRegion_some h.order
          (Range.stored_stop_le (not_lt.mp hback)) hins
        refine Or.inr ⟨?_,l,?_,horder,hperm⟩
        · rintro (hc | hc | hc)
          · exact hfull hc
          · exact hback hc
          · rw [hnone.mpr hc] at hins
            cases hins
        · rw [efiImageRegionAdd,if_neg hfull,if_neg hback]
          simp only [Range.stored] at hins
          simp only [hins,Bool.false_eq_true,if_false]

theorem Listed.add (h : Listed regs) (r : Range) : Listed (efiImageRegionAdd regs r.1 r.2 false).2 := by
  rcases efiImageRegionAdd_cases h r with ⟨_,heq⟩ | ⟨hnot,l,heq,horder,hperm⟩
  · rw [heq]
    exact h
  · rw [heq]
    refine ⟨horder,?_⟩
    have hlen := hperm.length_eq
    have hroom : ¬regs.max ≤ regs.reg.length := fun hc => hnot (Or.inl hc)
    rw [List.length_cons] at hlen
    dsimp only
    omega

theorem InOrder.sorted {l : List Region} (h : InOrder l) : l.Pairwise fun a b => a.data ≤ b.data := by
  refine h.imp fun {a b} hab => ?_
  rw [Region.stop] at hab
  omega

/-- A call keeps its promise unless it succeeds with a range of 4 GiB or more. -/
theorem Listed.callSound_iff (h : Listed regs) (r : Range) :
    CallSound regs r ↔ Refused regs r ∨ r.2 - r.1 < 2 ^ 32 := by
  have hlisted := h.add r
  constructor
  · intro hs
    rcases efiImageRegionAdd_cases h r with ⟨href,_⟩ | ⟨_,l,heq,_,hperm⟩
    · exact Or.inl href
    · have hadded := hs.added (by rw [heq])
      rw [heq] at hadded
      have hsame := hperm.symm.trans hadded
      have hmem : r.stored = r.region := by
        have hcount := hsame.count_eq r.stored
        by_contra hne
        rw [List.count_cons_self,List.count_cons_of_ne (Ne.symm hne)] at hcount
        omega
      exact Or.inr (Range.stored_eq_iff.mp hmem)
  · intro hcond
    rcases efiImageRegionAdd_cases h r with ⟨_,heq⟩ | ⟨hnot,l,heq,_,hperm⟩
    · refine ⟨hlisted,hlisted.order.sorted,fun ht => ?_,fun _ => by rw [heq]⟩
      rw [heq] at ht
      cases ht
    · have hsize := Range.stored_eq_iff.mpr (hcond.resolve_left hnot)
      refine ⟨hlisted,hlisted.order.sorted,fun _ => ?_,fun hf => ?_⟩
      · rw [heq,← hsize]
        exact hperm
      · rw [heq] at hf
        cases hf

end calls

section runs

/-- A property of every call of a sequence, at the list on which it is made. -/
def EveryCall (P : Regions → Range → Prop) : Regions → List Range → Prop
  | _, [] => True
  | regs, r :: rest => P regs r ∧ EveryCall P (efiImageRegionAdd regs r.1 r.2 false).2 rest

theorem Listed.everyCall {P Q : Regions → Range → Prop} (hPQ : ∀ regs r, Listed regs → (P regs r ↔ Q regs r))
    {regs : Regions} (h : Listed regs) (rs : List Range) :
    EveryCall P regs rs ↔ EveryCall Q regs rs := by
  induction rs generalizing regs with
  | nil => exact Iff.rfl
  | cons r rest ih => exact and_congr (hPQ regs r h) (ih (h.add r))

/-- Every call of a sequence on an empty list keeps its promise exactly when each one is
refused or has a range of less than 4 GiB. -/
theorem efiImageRegionAdd_iff (max : ℕ) (rs : List Range) :
    EveryCall CallSound ⟨max,[]⟩ rs ↔
      EveryCall (fun regs r => Refused regs r ∨ r.2 - r.1 < 2 ^ 32) ⟨max,[]⟩ rs := by
  have hempty : Listed ⟨max,[]⟩ := ⟨List.Pairwise.nil,Nat.zero_le _⟩
  exact hempty.everyCall (fun _ r h => h.callSound_iff r) rs

/-- A range of exactly 4 GiB is accepted and stored as an empty region. -/
theorem efiImageRegionAdd_four_gib :
    (efiImageRegionAdd ⟨2,[]⟩ 0x10000 0x100010000 false).1 = true ∧
      ¬EveryCall CallSound ⟨2,[]⟩ [((0x10000 : ℤ),(0x100010000 : ℤ))] := by
  have hempty : Listed ⟨2,[]⟩ := ⟨List.Pairwise.nil,Nat.zero_le _⟩
  refine ⟨rfl,fun h => ?_⟩
  rcases (hempty.callSound_iff _).mp h.1 with (hfull | hback | ⟨t,ht,_⟩) | hsize
  · exact absurd hfull (by decide)
  · exact absurd hback (by decide)
  · cases ht
  · exact absurd hsize (by decide)

end runs

end SecureWipeOut.PeImage
