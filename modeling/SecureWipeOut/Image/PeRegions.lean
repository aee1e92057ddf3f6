import SecureWipeOut.Image.PeImage

/-! # The list of regions

Regions are kept in ascending order and apart from each other. A new one that overlaps a
region of the list is dropped, so the list holds the ranges that a first come, first
served choice keeps, in the order of their addresses.
-/
namespace SecureWipeOut.PeImage

/-- A range of addresses, the second one excluded. -/
abbrev Range := ℤ × ℤ

def Apart (a b : Range) : Prop := a.2 ≤ b.1 ∨ b.2 ≤ a.1

instance (a b : Range) : Decidable (Apart a b) := inferInstanceAs (Decidable (_ ∨ _))

/-- First come, first served. -/
def keepOne (kept : List Range) (r : Range) : List Range :=
  if r.1 ≤ r.2 ∧ ∀ k ∈ kept, Apart k r then kept ++ [r] else kept

def keep (rs : List Range) : List Range := rs.foldl keepOne []

def Range.region (r : Range) : Region := ⟨r.1,(r.2 - r.1).toNat⟩

/-- A range that a region can stand for. -/
def Range.Fits (r : Range) : Prop := r.1 ≤ r.2 ∧ r.2 < r.1 + 2 ^ 32

theorem Range.Fits.stop {r : Range} (h : r.Fits) : (Range.region r).stop = r.2 := by
  obtain ⟨hle,-⟩ := h
  simp only [Range.region,Region.stop]
  omega

section keep

theorem keepOne_eq_or (kept : List Range) (r : Range) :
    keepOne kept r = kept ∨ keepOne kept r = kept ++ [r] := by
  rw [keepOne]
  split_ifs
  · exact Or.inr rfl
  · exact Or.inl rfl

theorem length_keepOne_le (kept : List Range) (r : Range) :
    (keepOne kept r).length ≤ kept.length + 1 := by
  rcases keepOne_eq_or kept r with h | h <;> simp [h]

theorem length_foldl_keepOne_le (rs kept : List Range) :
    (rs.foldl keepOne kept).length ≤ kept.length + rs.length := by
  induction rs generalizing kept with
  | nil => exact le_rfl
  | cons r rs ih =>
    have hstep := length_keepOne_le kept r
    have hrest := ih (keepOne kept r)
    rw [List.foldl_cons,List.length_cons]
    omega

/-- Ranges that are apart from each other are all kept. -/
theorem foldl_keepOne_of_apart {rs kept : List Range} (hle : ∀ r ∈ rs, r.1 ≤ r.2)
    (hkept : ∀ k ∈ kept, ∀ r ∈ rs, Apart k r) (hapart : rs.Pairwise Apart) :
    rs.foldl keepOne kept = kept ++ rs := by
  induction rs generalizing kept with
  | nil => simp
  | cons r rs ih =>
    obtain ⟨hr,hrs⟩ := List.pairwise_cons.mp hapart
    have hstep : keepOne kept r = kept ++ [r] :=
      if_pos ⟨hle r List.mem_cons_self,fun k hk => hkept k hk r List.mem_cons_self⟩
    rw [List.foldl_cons,hstep,ih (fun q hq => hle q (List.mem_cons_of_mem _ hq)) ?_ hrs,
      List.append_assoc,List.singleton_append]
    intro k hk q hq
    rcases List.mem_append.mp hk with hk | hk
    · exact hkept k hk q (List.mem_cons_of_mem _ hq)
    · rw [List.mem_singleton.mp hk]
      exact hr q hq

end keep

section regions

/-- The regions of a list, in ascending order and apart. -/
def InOrder (l : List Region) : Prop := l.Pairwise fun a b => a.stop ≤ b.data

theorem insertRegion_apart {l : List Region} {new : Region} (hl : InOrder l)
    (hapart : ∀ r ∈ l, r.stop ≤ new.data ∨ new.stop ≤ r.data) :
    ∃ l', insertRegion new new.stop l = some l' ∧ InOrder l' ∧ l'.Perm (new :: l) := by
  induction l with
  | nil => exact ⟨[new],rfl,List.pairwise_singleton _ _,List.Perm.refl _⟩
  | cons reg rest ih =>
    obtain ⟨hreg,hrest⟩ := List.pairwise_cons.mp hl
    rw [insertRegion]
    by_cases hbehind : reg.stop ≤ new.data
    · obtain ⟨l',hl',horder,hperm⟩ := ih hrest fun r hr => hapart r (List.mem_cons_of_mem _ hr)
      rw [if_pos hbehind,hl',Option.map_some]
      refine ⟨reg :: l',rfl,List.pairwise_cons.mpr ⟨fun r hr => ?_,horder⟩,?_⟩
      · rcases List.mem_cons.mp (hperm.subset hr) with rfl | hr
        · exact hbehind
        · exact hreg r hr
      · exact (hperm.cons reg).trans (List.Perm.swap new reg rest)
    · have hfront := (hapart reg List.mem_cons_self).resolve_left hbehind
      rw [if_neg hbehind,if_pos hfront]
      refine ⟨_,rfl,List.pairwise_cons.mpr ⟨fun r hr => ?_,hl⟩,List.Perm.refl _⟩
      rcases List.mem_cons.mp hr with rfl | hr
      · exact hfront
      · have hafter := hreg r hr
        have hsize : reg.data ≤ reg.stop := by
          rw [Region.stop]
          omega
        omega

theorem insertRegion_overlap {l : List Region} {new : Region} (hl : InOrder l)
    (hoverlap : ∃ r ∈ l, ¬ (r.stop ≤ new.data ∨ new.stop ≤ r.data)) :
    insertRegion new new.stop l = none := by
  induction l with
  | nil => simp at hoverlap
  | cons reg rest ih =>
    obtain ⟨hreg,hrest⟩ := List.pairwise_cons.mp hl
    obtain ⟨r,hr,hbad⟩ := hoverlap
    rw [insertRegion]
    by_cases hbehind : reg.stop ≤ new.data
    · have hr' : r ∈ rest := (List.mem_cons.mp hr).resolve_left fun h => hbad (Or.inl (h ▸ hbehind))
      rw [if_pos hbehind,ih hrest ⟨r,hr',hbad⟩,Option.map_none]
    · rw [if_neg hbehind,if_neg]
      intro hfront
      -- What stands behind reg starts behind it, so it cannot reach the new region.
      rcases List.mem_cons.mp hr with rfl | hr
      · exact hbad (Or.inr hfront)
      · have hafter := hreg r hr
        have hsize : reg.data ≤ reg.stop := by
          rw [Region.stop]
          omega
        exact hbad (Or.inr (by omega))

/-- The list holds the regions of the ranges kept. -/
structure Represents (regs : Regions) (kept : List Range) : Prop where
  order : InOrder regs.reg
  perm : regs.reg.Perm (kept.map Range.region)
  fits : ∀ k ∈ kept, k.Fits

theorem efiImageRegionAdd_max (regs : Regions) (start stop : ℤ) (nocheck : Bool) :
    (efiImageRegionAdd regs start stop nocheck).2.max = regs.max := by
  rw [efiImageRegionAdd]
  split_ifs
  · rfl
  · rfl
  · rfl
  · simp only
    split <;> rfl

theorem efiImageRegionAdd_of_fits {regs : Regions} {start stop : ℤ} (hlen : ¬ regs.max ≤ regs.reg.length)
    (hfits : Range.Fits (start,stop)) :
    efiImageRegionAdd regs start stop false =
      match insertRegion (Range.region (start,stop)) (Range.region (start,stop)).stop regs.reg with
      | some reg => (true,{ regs with reg := reg })
      | none => (false,regs) := by
  have hstop : (Range.region (start,stop)).stop = stop := hfits.stop
  obtain ⟨hle,hsize⟩ := hfits
  have hregion : (⟨start,(stop - start).toNat % 2 ^ 32⟩ : Region) = Range.region (start,stop) := by
    rw [Range.region,Nat.mod_eq_of_lt (by omega)]
  rw [hstop,efiImageRegionAdd,if_neg hlen,if_neg (not_lt.mpr hle)]
  cases hins : insertRegion (Range.region (start,stop)) stop regs.reg with
  | none => simp only [hregion,hins,Bool.false_eq_true,if_false]
  | some reg => simp only [hregion,hins,Bool.false_eq_true,if_false]

/-- A region lies apart from the stored ones when its range does from the chosen ones. -/
theorem Represents.apart_iff {regs : Regions} {kept : List Range} (h : Represents regs kept)
    {r : Range} (hr : r.Fits) :
    (∀ t ∈ regs.reg, t.stop ≤ r.region.data ∨ r.region.stop ≤ t.data) ↔ ∀ k ∈ kept, Apart k r := by
  rw [hr.stop]
  constructor
  · intro hall k hk
    have := hall k.region (h.perm.symm.subset (List.mem_map_of_mem hk))
    rwa [(h.fits k hk).stop] at this
  · intro hall t ht
    obtain ⟨k,hk,rfl⟩ := List.mem_map.mp (h.perm.subset ht)
    rw [(h.fits k hk).stop]
    exact hall k hk

/-- Adding a region is one step of the choice, while there is room. -/
theorem Represents.add {regs : Regions} {kept : List Range} (h : Represents regs kept)
    (hroom : kept.length < regs.max) {start stop : ℤ} (hsize : stop < start + 2 ^ 32) :
    Represents (efiImageRegionAdd regs start stop false).2 (keepOne kept (start,stop)) := by
  have hlen : ¬ regs.max ≤ regs.reg.length := by
    rw [h.perm.length_eq,List.length_map]
    omega
  by_cases hle : start ≤ stop
  · have hfits : Range.Fits (start,stop) := ⟨hle,hsize⟩
    rw [efiImageRegionAdd_of_fits hlen hfits]
    by_cases hapart : ∀ k ∈ kept, Apart k (start,stop)
    · obtain ⟨l',hl',horder,hperm⟩ := insertRegion_apart h.order ((h.apart_iff hfits).mpr hapart)
      rw [hl',keepOne,if_pos ⟨hle,hapart⟩]
      refine ⟨horder,hperm.trans ?_,fun k hk => ?_⟩
      · rw [List.map_append,List.map_singleton]
        exact (h.perm.cons _).trans (List.perm_append_singleton _ _).symm
      · rcases List.mem_append.mp hk with hk | hk
        · exact h.fits k hk
        · rw [List.mem_singleton.mp hk]
          exact hfits
    · have hnone := insertRegion_overlap h.order (by
        have hnot := mt (h.apart_iff hfits).mp hapart
        push Not at hnot
        obtain ⟨r,hr,h1,h2⟩ := hnot
        exact ⟨r,hr,fun hor => hor.elim (not_le.mpr h1) (not_le.mpr h2)⟩)
      rw [hnone,keepOne,if_neg fun hc => hapart hc.2]
      exact h
  · rw [efiImageRegionAdd,if_neg hlen,if_pos (not_le.mp hle),keepOne,if_neg fun hc => hle hc.1]
    exact h

/-- All ranges of a list, one after the other. -/
def addAll (regs : Regions) (rs : List Range) : Regions :=
  rs.foldl (fun regs r => (efiImageRegionAdd regs r.1 r.2 false).2) regs

theorem addAll_append (regs : Regions) (rs ts : List Range) :
    addAll regs (rs ++ ts) = addAll (addAll regs rs) ts := List.foldl_append

theorem addAll_max (regs : Regions) (rs : List Range) : (addAll regs rs).max = regs.max := by
  induction rs generalizing regs with
  | nil => rfl
  | cons r rs ih => exact (ih _).trans (efiImageRegionAdd_max regs r.1 r.2 false)

theorem Represents.addAll {regs : Regions} {kept rs : List Range} (h : Represents regs kept)
    (hroom : kept.length + rs.length ≤ regs.max) (hsize : ∀ r ∈ rs, r.2 < r.1 + 2 ^ 32) :
    Represents (addAll regs rs) (rs.foldl keepOne kept) := by
  induction rs generalizing regs kept with
  | nil => exact h
  | cons r rs ih =>
    have hlen := length_keepOne_le kept r
    rw [List.length_cons] at hroom
    refine ih (h.add (by omega) (hsize r List.mem_cons_self)) ?_
      fun q hq => hsize q (List.mem_cons_of_mem _ hq)
    rw [efiImageRegionAdd_max]
    omega

end regions

section parse
variable (mem : Memory) (l : Layout)

def headerRanges : List Range :=
  (0,checkSum mem) ::
    if numberOfRvaAndSizes mem l ≤ ctidx then [(subsystem mem,(sizeOfHeaders mem : ℤ))]
    else [(subsystem mem,securityEntry mem l),(securityEntry mem l + 8,(sizeOfHeaders mem : ℤ))]

def sectionRange (align : ℕ) (s : SectionHeader) : Range :=
  (s.pointerToRawData,s.pointerToRawData + roundedSize align s.sizeOfRawData)

/-- The ranges of the sections that have raw data. -/
def sectionRanges (align : ℕ) (ss : List SectionHeader) : List Range :=
  (ss.filter fun s => s.sizeOfRawData ≠ 0).map (sectionRange align)

theorem readWord_lt (mem : Memory) (a : ℤ) : readWord mem a < 65536 := by
  have h1 := (mem a).toNat_lt
  have h2 := (mem (a + 1)).toNat_lt
  rw [readWord]
  omega

theorem readDword_lt (mem : Memory) (a : ℤ) : readDword mem a < 2 ^ 32 := by
  have h1 := readWord_lt mem a
  have h2 := readWord_lt mem (a + 2)
  rw [readDword]
  omega

theorem roundedSize_lt (align raw : ℕ) : roundedSize align raw < 2 ^ 32 := BitVec.isLt _

theorem layoutOf_cases {m : ℕ} {l : Layout} (h : layoutOf m = some l) : l = layout32 ∨ l = layout64 := by
  rw [layoutOf] at h
  split_ifs at h
  · exact Or.inr (Option.some.inj h).symm
  · exact Or.inl (Option.some.inj h).symm

variable {mem l}

theorem addHeaders_eq (regs : Regions) :
    addHeaders mem l regs = addAll regs (headerRanges mem l) := by
  rw [addHeaders,headerRanges]
  split_ifs <;> rfl

/-- The sections: their ranges added, their sizes counted. -/
theorem foldl_addSection_eq (align : ℕ) (ss : List SectionHeader) (regs : Regions) (n : ℕ) :
    ss.foldl (addSection align) (regs,n) = (addAll regs (sectionRanges align ss),
      n + ((ss.filter fun s => s.sizeOfRawData ≠ 0).map
        fun s => roundedSize align s.sizeOfRawData).sum) := by
  induction ss generalizing regs n with
  | nil => rfl
  | cons s ss ih =>
    rw [List.foldl_cons]
    by_cases hraw : s.sizeOfRawData = 0
    · have hstep : addSection align (regs,n) s = (regs,n) := if_pos hraw
      rw [hstep,ih,sectionRanges,sectionRanges,List.filter_cons_of_neg (by simpa using hraw)]
    · have hstep : addSection align (regs,n) s =
          ((efiImageRegionAdd regs (sectionRange align s).1 (sectionRange align s).2 false).2,
            n + roundedSize align s.sizeOfRawData) := if_neg hraw
      rw [hstep,ih,sectionRanges,sectionRanges,List.filter_cons_of_pos (by simpa using hraw),
        List.map_cons,List.map_cons,List.sum_cons,Nat.add_assoc]
      rfl

end parse

end SecureWipeOut.PeImage
