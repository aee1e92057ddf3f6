import SecureWipeOut.Lib.BitLanes
import SecureWipeOut.Lib.Loop

/-! # Sharing out the cores among the hash threads

The bits of the process mask are taken off from the lowest one on, the same number for
every thread; the mask of the last thread starts as the whole and loses what the others get.
-/
namespace SecureWipeOut.ThreadAffinity
open BitMask BitLanes Loop

abbrev DwordPtr := BitVec 64

/-- The sums of two adjacent lanes, by a mask with ones in every other lane. -/
def addLanes (u : DwordPtr) (s : ℕ) (mask : DwordPtr) : DwordPtr := (u &&& mask) + (u >>> s &&& mask)

/-- The count, as an 8-bit number. -/
def popcnt64 (u : DwordPtr) : ℕ :=
  let u := addLanes u 1 0x5555555555555555
  let u := addLanes u 2 0x3333333333333333
  let u := addLanes u 4 0x0f0f0f0f0f0f0f0f
  let u := addLanes u 8 0x00ff00ff00ff00ff
  let u := addLanes u 16 0x0000ffff0000ffff
  let u := addLanes u 32 0x00000000ffffffff
  u.toNat % 256

def lowest (affinity : DwordPtr) : DwordPtr := affinity &&& -1 * affinity

/-- The inner loop: a thread's mask and what is left. -/
def spread : ℕ → DwordPtr × DwordPtr → DwordPtr × DwordPtr
  | 0,s => s
  | j + 1,s => spread j (s.1 ||| lowest s.2,s.2 ^^^ lowest s.2)

structure Affinities where
  thread : ℕ → DwordPtr
  affinity : DwordPtr

/-- One round of the outer loop. -/
def shareStep (count numThreads : ℕ) (s : Affinities) (i : ℕ) : Affinities :=
  let r := spread count (s.thread i,s.affinity)
  let thread := Function.update s.thread i r.1
  ⟨Function.update thread (numThreads - 1) (thread (numThreads - 1) ^^^ r.1),r.2⟩

/-- The process mask is none where it cannot be read. -/
def setThreadAffinity (process : Option DwordPtr) (numThreads : ℕ) : Bool × (ℕ → DwordPtr) :=
  let cleared : ℕ → DwordPtr := fun _ => 0
  match process with
  | none => (false,cleared)
  | some affinity =>
    let pc := popcnt64 affinity
    if pc < numThreads then (false,cleared)
    else
      let start : Affinities := ⟨Function.update cleared (numThreads - 1) affinity,affinity⟩
      (true,((List.range (numThreads - 1)).foldl (shareStep (pc / numThreads) numThreads) start).thread)

section count

theorem toNat_addLanes {s n : ℕ} (hs : 0 < s) (h : 2 * s * n = 64) {mask : DwordPtr}
    (hmask : mask.toNat = laneMask s n) (u : DwordPtr) :
    (addLanes u s mask).toNat = foldLanes s n u.toNat := by
  have hlt := foldLanes_lt hs n u.toNat
  rw [h] at hlt
  rw [addLanes,BitVec.toNat_add,BitVec.toNat_and,BitVec.toNat_and,BitVec.toNat_ushiftRight,hmask]
  exact Nat.mod_eq_of_lt hlt

/-- The six foldings leave the sum of the bits in one lane. -/
theorem popcnt64_lanes (u : DwordPtr) : popcnt64 u = lanes 1 64 u.toNat % 256 := by
  have hlanes : ∀ v, foldLanes 32 1 v = lanes 32 2 v := by
    intro v
    have hlt := foldLanes_lt (s := 32) (by decide) 1 v
    rw [← lanes_foldLanes (by decide) 1 v,lanes,lanes,Nat.add_zero]
    exact (Nat.mod_eq_of_lt hlt).symm
  rw [popcnt64,toNat_addLanes (n := 1) (by decide) (by decide) (by decide),
    toNat_addLanes (n := 2) (by decide) (by decide) (by decide),
    toNat_addLanes (n := 4) (by decide) (by decide) (by decide),
    toNat_addLanes (n := 8) (by decide) (by decide) (by decide),
    toNat_addLanes (n := 16) (by decide) (by decide) (by decide),
    toNat_addLanes (n := 32) (by decide) (by decide) (by decide),hlanes,
    lanes_foldLanes (s := 16) (by decide) 2,lanes_foldLanes (s := 8) (by decide) 4,
    lanes_foldLanes (s := 4) (by decide) 8,lanes_foldLanes (s := 2) (by decide) 16,
    lanes_foldLanes (s := 1) (by decide) 32]

theorem popcnt64_eq (u : DwordPtr) : popcnt64 u = (bits u).card := by
  have hcard : lanes 1 64 u.toNat = (bits u).card := lanes_one 64 u.toNat
  have hle : (bits u).card ≤ 64 := (Finset.card_filter_le _ _).trans_eq (Finset.card_range 64)
  rw [popcnt64_lanes,hcard]
  exact Nat.mod_eq_of_lt (by omega)

end count

section shares
variable {a : DwordPtr} {n c k : ℕ} {s : Affinities}

/-- The inner loop moves the lowest bits. -/
theorem spread_bits (j : ℕ) (m a : DwordPtr) (h : j ≤ (bits a).card) :
    ∃ t ⊆ bits a, t.card = j ∧ bits (spread j (m,a)).1 = bits m ∪ t ∧
      bits (spread j (m,a)).2 = bits a \ t ∧ ∀ p ∈ t, ∀ q ∈ bits a \ t, p < q := by
  induction j generalizing m a with
  | zero => exact ⟨∅,by simp,rfl,by simp [spread],by simp [spread],by simp⟩
  | succ j ih =>
    have hne : (bits a).Nonempty := Finset.card_pos.mp (by omega)
    obtain ⟨low,hmem,hmin⟩ : ∃ low ∈ bits a, ∀ i ∈ bits a, low ≤ i :=
      ⟨_,(bits a).min'_mem hne,fun i hi => (bits a).min'_le i hi⟩
    have hlow : bits (lowest a) = {low} := bits_lowest hmem hmin
    have hleft : bits (a ^^^ lowest a) = bits a \ {low} := by
      rw [bits_xor (by rw [hlow]; exact Finset.singleton_subset_iff.mpr hmem),hlow]
    have hcard : (bits (a ^^^ lowest a)).card = (bits a).card - 1 := by
      rw [hleft,Finset.card_sdiff_of_subset (Finset.singleton_subset_iff.mpr hmem),Finset.card_singleton]
    obtain ⟨t,ht,htcard,hmask,hrest,horder⟩ := ih (m ||| lowest a) (a ^^^ lowest a) (by omega)
    rw [hleft] at ht hrest horder
    have hnot : low ∉ t := fun h => by simpa using ht h
    refine ⟨insert low t,?_,?_,?_,?_,?_⟩
    · exact Finset.insert_subset hmem (ht.trans Finset.sdiff_subset)
    · rw [Finset.card_insert_of_notMem hnot,htcard]
    · rw [spread,hmask,bits_or,hlow]
      ext i
      simp only [Finset.mem_union,Finset.mem_singleton,Finset.mem_insert]
      tauto
    · rw [spread,hrest]
      ext i
      simp only [Finset.mem_sdiff,Finset.mem_singleton,Finset.mem_insert]
      tauto
    · intro p hp q hq
      simp only [Finset.mem_sdiff,Finset.mem_insert,not_or] at hq
      rcases Finset.mem_insert.mp hp with rfl | hp
      · exact lt_of_le_of_ne (hmin q hq.1) (Ne.symm hq.2.1)
      · refine horder p hp q ?_
        simp only [Finset.mem_sdiff,Finset.mem_singleton]
        exact ⟨⟨hq.1,hq.2.1⟩,hq.2.2⟩

/-- Every bit of one mask is below every bit of the other. -/
def Below (x y : DwordPtr) : Prop := ∀ p ∈ bits x, ∀ q ∈ bits y, p < q

/-- Before round k: the first k threads have c bits each, in ascending order, and the last
one has what is left. -/
structure Shared (a : DwordPtr) (n c k : ℕ) (s : Affinities) : Prop where
  last : s.thread (n - 1) = s.affinity
  pending : ∀ i, k ≤ i → i < n - 1 → s.thread i = 0
  union : ((Finset.range k).biUnion fun i => bits (s.thread i)) ∪ bits s.affinity = bits a
  card : ∀ i < k, (bits (s.thread i)).card = c
  left : (bits s.affinity).card + k * c = (bits a).card
  below : ∀ i < k, Below (s.thread i) s.affinity
  ordered : ∀ i j, i < j → j < k → Below (s.thread i) (s.thread j)

theorem Below.of_subset {x x' y y' : DwordPtr} (h : Below x y) (hx : bits x' ⊆ bits x)
    (hy : bits y' ⊆ bits y) : Below x' y' :=
  fun p hp q hq => h p (hx hp) q (hy hq)

/-- What a round does to the masks. -/
theorem shareStep_thread (h : Shared a n c k s) (hk : k < n - 1) (hroom : c ≤ (bits s.affinity).card) :
    ∃ t ⊆ bits s.affinity, t.card = c ∧ bits ((shareStep c n s k).thread k) = t ∧
      bits (shareStep c n s k).affinity = bits s.affinity \ t ∧
      (shareStep c n s k).thread (n - 1) = (shareStep c n s k).affinity ∧
      (∀ i, i ≠ k → i ≠ n - 1 → (shareStep c n s k).thread i = s.thread i) ∧
      ∀ p ∈ t, ∀ q ∈ bits s.affinity \ t, p < q := by
  obtain ⟨t,ht,hcard,hmask,hrest,horder⟩ := spread_bits c (s.thread k) s.affinity hroom
  rw [h.pending k le_rfl hk,bits_zero,Finset.empty_union] at hmask
  refine ⟨t,ht,hcard,?_,?_,?_,fun i hi hi' => ?_,horder⟩
  · rw [shareStep,h.pending k le_rfl hk]
    simpa [hk.ne] using hmask
  · rw [shareStep,h.pending k le_rfl hk]
    rwa [h.pending k le_rfl hk] at hrest
  · rw [h.pending k le_rfl hk] at hrest
    refine bits_injective ?_
    simp only [shareStep,h.pending k le_rfl hk,Function.update_self,Function.update_of_ne hk.ne',h.last]
    rw [bits_xor (by rw [hmask]; exact ht),hmask,hrest]
  · simp only [shareStep,Function.update_of_ne hi',Function.update_of_ne hi]

theorem shareStep_shared (h : Shared a n c k s) (hk : k < n - 1) (hc : n * c ≤ (bits a).card) :
    Shared a n c (k + 1) (shareStep c n s k) := by
  have hroom : c ≤ (bits s.affinity).card := by
    have hleft := h.left
    have hmul : (k + 1) * c ≤ n * c := Nat.mul_le_mul_right c (by omega)
    rw [Nat.succ_mul] at hmul
    omega
  obtain ⟨t,ht,hcard,hmask,hrest,hlast,hother,horder⟩ := shareStep_thread h hk hroom
  have hold : ∀ i < k, (shareStep c n s k).thread i = s.thread i :=
    fun i hi => hother i (by omega) (by omega)
  have hsub : bits (shareStep c n s k).affinity ⊆ bits s.affinity := hrest ▸ Finset.sdiff_subset
  refine ⟨hlast,fun i hi hi' => ?_,?_,fun i hi => ?_,?_,fun i hi => ?_,fun i j hij hj => ?_⟩
  · rw [hother i (by omega) (by omega)]
    exact h.pending i (by omega) hi'
  · rw [Finset.range_add_one,Finset.biUnion_insert,hmask,hrest,← h.union,
      Finset.biUnion_congr rfl fun i hi => by rw [hold i (Finset.mem_range.mp hi)]]
    ext p
    have hp := @ht p
    simp only [Finset.mem_union,Finset.mem_sdiff]
    tauto
  · rcases Nat.lt_succ_iff_lt_or_eq.mp hi with hlt | rfl
    · rw [hold i hlt]
      exact h.card i hlt
    · rw [hmask,hcard]
  · rw [hrest,Finset.card_sdiff_of_subset ht,hcard,Nat.succ_mul]
    have := h.left
    omega
  · rcases Nat.lt_succ_iff_lt_or_eq.mp hi with hlt | rfl
    · rw [hold i hlt]
      exact (h.below i hlt).of_subset subset_rfl hsub
    · intro p hp q hq
      exact horder p (hmask ▸ hp) q (hrest ▸ hq)
  · rw [hold i (by omega)]
    rcases Nat.lt_succ_iff_lt_or_eq.mp hj with hlt | rfl
    · rw [hold j hlt]
      exact h.ordered i j hij hlt
    · exact (h.below i hij).of_subset subset_rfl (hmask ▸ ht)

end shares

/-- All masks together. -/
def allThreads (n : ℕ) (thread : ℕ → DwordPtr) : DwordPtr :=
  (List.range n).foldl (fun m i => m ||| thread i) 0

/-- The masks share out the process mask. -/
structure Partition (a : DwordPtr) (n : ℕ) (thread : ℕ → DwordPtr) : Prop where
  disjoint : ∀ i < n, ∀ j < n, i ≠ j → thread i &&& thread j = 0
  nonempty : ∀ i < n, thread i ≠ 0
  union : allThreads n thread = a
  card : ∀ i < n - 1, (bits (thread i)).card = (bits a).card / n
  ordered : ∀ i, i + 1 < n → Below (thread i) (thread (i + 1))

theorem bits_allThreads (n : ℕ) (thread : ℕ → DwordPtr) :
    bits (allThreads n thread) = (Finset.range n).biUnion fun i => bits (thread i) := by
  refine range_rule (I := fun k m => bits m = (Finset.range k).biUnion fun i => bits (thread i))
    bits_zero fun i _ m h => ?_
  rw [bits_or,h,Finset.range_add_one,Finset.biUnion_insert,Finset.union_comm]

section result
variable {a : DwordPtr} {n : ℕ}

theorem shared_start : Shared a n c 0 ⟨Function.update (fun _ => 0) (n - 1) a,a⟩ where
  last := by simp
  pending i _ hi := by simp [hi.ne]
  union := by simp
  card i hi := absurd hi i.not_lt_zero
  left := by simp
  below i hi := absurd hi i.not_lt_zero
  ordered i j _ hj := absurd hj j.not_lt_zero

theorem Shared.partition {s : Affinities} (h : Shared a n ((bits a).card / n) (n - 1) s) (hn : 1 ≤ n)
    (hpc : n ≤ (bits a).card) : Partition a n s.thread := by
  have hc : 0 < (bits a).card / n := Nat.div_pos hpc hn
  have hbelow : ∀ i j, i < j → j < n → Below (s.thread i) (s.thread j) := by
    intro i j hij hj
    rcases Nat.lt_or_ge j (n - 1) with hlt | hge
    · exact h.ordered i j hij hlt
    · obtain rfl : j = n - 1 := by omega
      exact h.last ▸ h.below i hij
  have hdisjoint : ∀ i j, i < j → j < n → s.thread i &&& s.thread j = 0 := by
    intro i j hij hj
    rw [← bits_eq_empty,bits_and,Finset.eq_empty_iff_forall_notMem]
    intro p hp
    rw [Finset.mem_inter] at hp
    exact absurd (hbelow i j hij hj p hp.1 p hp.2) (lt_irrefl p)
  refine ⟨fun i hi j hj hij => ?_,fun i hi h0 => ?_,bits_injective ?_,h.card,fun i hi =>
    hbelow i (i + 1) (Nat.lt_succ_self i) hi⟩
  · rcases Nat.lt_or_gt_of_ne hij with hlt | hgt
    · exact hdisjoint i j hlt hj
    · rw [BitVec.and_comm]
      exact hdisjoint j i hgt hi
  · rcases Nat.lt_or_ge i (n - 1) with hlt | hge
    · have hcard := h.card i hlt
      rw [h0,bits_zero,Finset.card_empty] at hcard
      omega
    · obtain rfl : i = n - 1 := by omega
      have hleft := h.left
      rw [← h.last,h0,bits_zero,Finset.card_empty] at hleft
      have hmul := Nat.mul_div_le (bits a).card n
      have hsucc : n * ((bits a).card / n) = (n - 1) * ((bits a).card / n) + (bits a).card / n := by
        rw [← Nat.succ_mul,Nat.succ_eq_add_one,Nat.sub_add_cancel hn]
      omega
  · have hrange : Finset.range n = insert (n - 1) (Finset.range (n - 1)) := by
      rw [← Finset.range_add_one,Nat.sub_add_cancel hn]
    rw [bits_allThreads,hrange,Finset.biUnion_insert,Finset.union_comm,h.last,h.union]

/-- The masks of the threads share out the process mask evenly, in ascending order. -/
theorem setThreadAffinity_partition (a : DwordPtr) (n : ℕ) (hn : 1 ≤ n) (hpc : n ≤ (bits a).card) :
    (setThreadAffinity (some a) n).1 = true ∧ Partition a n (setThreadAffinity (some a) n).2 := by
  have hpop := popcnt64_eq a
  have hstart := range_rule (shared_start (a := a) (c := (bits a).card / n))
    fun i hi s hs => shareStep_shared hs hi (Nat.mul_div_le _ _)
  rw [setThreadAffinity]
  simp only [hpop,if_neg (not_lt.mpr hpc)]
  exact ⟨trivial,hstart.partition hn hpc⟩

theorem setThreadAffinity_partition_three : 1 ≤ 3 ∧ 3 ≤ (bits (0xb6#64 : DwordPtr)).card ∧
    (setThreadAffinity (some 0xb6) 3).1 = true ∧ Partition 0xb6 3 (setThreadAffinity (some 0xb6) 3).2 := by
  have hpc : 3 ≤ (bits (0xb6#64 : DwordPtr)).card := by decide
  exact ⟨by decide,hpc,setThreadAffinity_partition 0xb6 3 (by decide) hpc⟩

end result

end SecureWipeOut.ThreadAffinity
