import SecureWipeOut.Update.Download

/-! # When a download is sound

The rounds up to the first one that does not go on decide what a call does. A call is sound as
long as the data never exceeds the buffer, which nothing in the loop looks at, the declared
length is not zero where the data ends with it, and the file of a failed download is deleted.
-/
namespace SecureWipeOut.Download
open Loop

section conditions
variable (b : Build) (q : Request) (totalSize : UInt64) (rounds : ℕ → Round)

/-- The loop is reached. -/
def Opened : Prop :=
  q.prepared = true ∧ if q.file then q.created = true else q.buffer = true ∧ q.allocated = true

/-- Round k delivers data, which is written where there is a file. -/
structure Kept (k : ℕ) : Prop where
  cancelled : (rounds k).cancelled = false
  chunk : (rounds k).chunk ≠ []
  written : q.file = true → (rounds k).ok = true ∧ (rounds k).chunk.length ≤ (rounds k).written

/-- The server has no more in round k, and the 64 bits of the size are the declared length. -/
structure Ends (k : ℕ) : Prop where
  cancelled : (rounds k).cancelled = false
  chunk : (rounds k).chunk = []
  size : (body rounds k).length % 2 ^ 64 = totalSize.toNat

/-- What a sound call needs. -/
structure Adequate : Prop where
  allocation : q.prepared = true → q.file = false → q.buffer = true →
    totalSize.toNat + 2 < b.sizeT
  room : Opened q → q.file = false → ∀ k, (∀ j < k, Kept q rounds j) →
    (body rounds k).length ≤ totalSize.toNat + 2
  complete : Opened q → ∀ k, (∀ j < k, Kept q rounds j) → Ends totalSize rounds k →
    0 < totalSize.toNat ∧ (body rounds k).length = totalSize.toNat
  deleted : q.file = true → q.deleted = false →
    (Opened q → ∀ k, (∀ j < k, Kept q rounds j) → Kept q rounds k ∨ Ends totalSize rounds k) ∧
    (¬ Opened q → q.existing = none)

end conditions

section steps
variable {q : Request} {totalSize : UInt64} {rounds : ℕ → Round} {n k : ℕ} {s : State}

/-- Before round k: all data so far is in the file or in the block, with zeros behind it. -/
structure At (q : Request) (rounds : ℕ → Round) (n k : ℕ) (s : State) : Prop where
  round : s.round = k
  size : s.size = UInt64.ofNat (body rounds k).length
  out : q.file = true → s.out = body rounds k
  fits : q.file = false → (body rounds k).length ≤ n
  block : q.file = false → s.block = body rounds k ++ List.replicate (n - (body rounds k).length) 0

/-- A round after which the loop goes on. -/
def Goes (q : Request) (rounds : ℕ → Round) (n k : ℕ) : Prop :=
  Kept q rounds k ∧ (q.file = false → (body rounds (k + 1)).length ≤ n)

/-- How the loop is left in round k. -/
inductive Exits (q : Request) (totalSize : UInt64) (rounds : ℕ → Round) (n k : ℕ) (s : State) :
    Left → Prop
  | overrun (hfile : q.file = false) (hkept : Kept q rounds k)
      (hlong : n < (body rounds (k + 1)).length) : Exits q totalSize rounds n k s .overrun
  | complete (hends : Ends totalSize rounds k) : Exits q totalSize rounds n k s (.left true s)
  | failed (s' : State) (hkept : ¬ Kept q rounds k) (hends : ¬ Ends totalSize rounds k) :
      Exits q totalSize rounds n k s (.left false s')

theorem length_body_succ (rounds : ℕ → Round) (k : ℕ) :
    (body rounds (k + 1)).length = (body rounds k).length + (rounds k).chunk.length :=
  List.length_append

theorem memcpy_append (data chunk : List UInt8) (n : ℕ) :
    memcpy (data ++ List.replicate n 0) data.length chunk =
      data ++ chunk ++ List.replicate (n - chunk.length) 0 := by
  rw [memcpy,List.take_left,← List.drop_drop,List.drop_left,List.drop_replicate]

theorem At.size_toNat (h : At q rounds n k s) (hn : n < 2 ^ 64) (hfile : q.file = false) :
    s.size.toNat = (body rounds k).length := by
  rw [h.size,UInt64.toNat_ofNat',Nat.mod_eq_of_lt]
  exact (h.fits hfile).trans_lt hn

theorem At.length_block (h : At q rounds n k s) (hfile : q.file = false) : s.block.length = n := by
  have hfits := h.fits hfile
  rw [h.block hfile,List.length_append,List.length_replicate]
  omega

theorem at_start (q : Request) (rounds : ℕ → Round) (n : ℕ) :
    At q rounds n 0 ⟨0,0,List.replicate n 0,[]⟩ :=
  ⟨rfl,rfl,fun _ => rfl,fun _ => Nat.zero_le _,fun _ => rfl⟩

theorem At.next (totalSize : UInt64) (h : At q rounds n k s) (hn : n < 2 ^ 64) (hgoes : Goes q rounds n k) :
    ∃ s', downloadStep q totalSize rounds s = .inl s' ∧ At q rounds n (k + 1) s' := by
  obtain ⟨⟨hcancelled,hchunk,hwritten⟩,hroom⟩ := hgoes
  have hsize : s.size + UInt64.ofNat (rounds k).chunk.length =
      UInt64.ofNat (body rounds (k + 1)).length := by
    rw [h.size,length_body_succ,UInt64.ofNat_add]
  rw [downloadStep,h.round,hsize]
  simp only [hcancelled,if_neg hchunk,Bool.false_eq_true,if_false]
  cases hfile : q.file with
  | true =>
    obtain ⟨hok,hall⟩ := hwritten hfile
    rw [if_pos rfl,hok,Bool.true_and,if_pos (decide_eq_true hall)]
    refine ⟨_,rfl,rfl,rfl,fun _ => ?_,fun hno => ?_,fun hno => ?_⟩
    · rw [h.out hfile,List.take_of_length_le hall]
      rfl
    · exact Bool.noConfusion (hfile.symm.trans hno)
    · exact Bool.noConfusion (hfile.symm.trans hno)
  | false =>
    have hle := hroom hfile
    have hlength := length_body_succ rounds k
    rw [if_neg Bool.false_ne_true,h.length_block hfile,h.size_toNat hn hfile,← hlength,
      if_neg (Nat.not_lt.mpr hle)]
    refine ⟨_,rfl,rfl,rfl,fun hyes => ?_,fun _ => hle,fun _ => ?_⟩
    · exact Bool.noConfusion (hfile.symm.trans hyes)
    · rw [h.block hfile,memcpy_append,hlength,Nat.sub_sub]
      rfl

theorem At.exits (totalSize : UInt64) (h : At q rounds n k s) (hn : n < 2 ^ 64)
    (hnot : ¬ Goes q rounds n k) :
    ∃ r, downloadStep q totalSize rounds s = .inr r ∧ Exits q totalSize rounds n k s r := by
  rw [downloadStep,h.round]
  dsimp only
  split
  · next hcancelled =>
    refine ⟨_,rfl,.failed _ (fun hkept => ?_) fun hends => ?_⟩
    · exact Bool.noConfusion (hcancelled.symm.trans hkept.cancelled)
    · exact Bool.noConfusion (hcancelled.symm.trans hends.cancelled)
  · next hcancelled =>
    rw [Bool.not_eq_true] at hcancelled
    split
    · next hchunk =>
      have hsize : (s.size == totalSize) = decide ((body rounds k).length % 2 ^ 64 = totalSize.toNat) := by
        rw [h.size,Bool.eq_iff_iff,beq_iff_eq,decide_eq_true_iff,← UInt64.toNat_inj,UInt64.toNat_ofNat']
      rw [hsize]
      by_cases heq : (body rounds k).length % 2 ^ 64 = totalSize.toNat
      · rw [decide_eq_true heq]
        exact ⟨_,rfl,.complete ⟨hcancelled,hchunk,heq⟩⟩
      · rw [decide_eq_false heq]
        exact ⟨_,rfl,.failed _ (fun hkept => hkept.chunk hchunk) fun hends => heq hends.size⟩
    · next hchunk =>
      cases hfile : q.file with
      | true =>
        rw [if_pos rfl]
        split
        · next hwritten =>
          rw [Bool.and_eq_true,decide_eq_true_iff] at hwritten
          refine absurd ⟨⟨hcancelled,hchunk,fun _ => hwritten⟩,fun hno => ?_⟩ hnot
          exact Bool.noConfusion (hfile.symm.trans hno)
        · next hwritten =>
          rw [Bool.and_eq_true,decide_eq_true_iff] at hwritten
          exact ⟨_,rfl,.failed _ (fun hkept => hwritten (hkept.written hfile))
            fun hends => hchunk hends.chunk⟩
      | false =>
        have hlength := length_body_succ rounds k
        have hkept : Kept q rounds k :=
          ⟨hcancelled,hchunk,fun hyes => Bool.noConfusion (hfile.symm.trans hyes)⟩
        rw [if_neg Bool.false_ne_true,h.length_block hfile,h.size_toNat hn hfile,← hlength]
        split
        · next hlong => exact ⟨_,rfl,.overrun hfile hkept hlong⟩
        · next hshort => exact absurd ⟨hkept,fun _ => Nat.not_lt.mp hshort⟩ hnot

end steps

section calls
variable {b : Build} {q : Request} {totalSize : UInt64} {rounds : ℕ → Round} {k : ℕ}

/-- The size of the block that the loop fills. -/
def capacity (b : Build) (q : Request) (totalSize : UInt64) : ℕ :=
  if q.file then 0 else callocSize b totalSize

theorem sizeT_le (b : Build) : b.sizeT ≤ 2 ^ 64 := by
  cases b <;> decide

theorem callocSize_lt (b : Build) (totalSize : UInt64) : callocSize b totalSize < b.sizeT :=
  Nat.mod_lt _ (by cases b <;> decide)

theorem capacity_lt (b : Build) (q : Request) (totalSize : UInt64) :
    capacity b q totalSize < 2 ^ 64 := by
  rw [capacity]
  split
  · decide
  · exact (callocSize_lt b totalSize).trans_le (sizeT_le b)

/-- The size is the one meant unless it does not fit `size_t`. -/
theorem callocSize_eq_iff (b : Build) (totalSize : UInt64) :
    callocSize b totalSize = totalSize.toNat + 2 ↔ totalSize.toNat + 2 < b.sizeT := by
  refine ⟨fun h => h ▸ callocSize_lt b totalSize,fun h => ?_⟩
  have hlt : totalSize.toNat < b.sizeT := (Nat.le_add_right _ 2).trans_lt h
  rw [callocSize,Nat.mod_eq_of_lt hlt,Nat.mod_eq_of_lt h]

theorem download_opened (h : Opened q) (fuel : ℕ) :
    downloadToFileOrBufferEx b q totalSize rounds fuel =
      (run (downloadStep q totalSize rounds) fuel
        ⟨0,0,List.replicate (capacity b q totalSize) 0,[]⟩).map (Left.ending q) := by
  obtain ⟨hprepared,hrest⟩ := h
  rw [downloadToFileOrBufferEx,capacity,hprepared]
  cases hfile : q.file with
  | true =>
    rw [hfile,if_pos rfl] at hrest
    rw [hrest]
    rfl
  | false =>
    rw [hfile,if_neg Bool.false_ne_true] at hrest
    rw [hrest.1,hrest.2]
    rfl

theorem download_closed (h : ¬ Opened q) (fuel : ℕ) :
    downloadToFileOrBufferEx b q totalSize rounds fuel =
      some (.returned (finish q false 0 none (if q.file then q.existing else none))) := by
  rw [downloadToFileOrBufferEx]
  cases hprepared : q.prepared with
  | false => rfl
  | true =>
    cases hfile : q.file with
    | true =>
      have hcreated : q.created = false := by
        rw [Bool.eq_false_iff]
        exact fun hc => h ⟨hprepared,by rw [hfile]; exact hc⟩
      rw [hcreated]
      rfl
    | false =>
      have hbuffer : q.buffer = false ∨ q.allocated = false := by
        by_contra hboth
        rw [not_or,Bool.not_eq_false,Bool.not_eq_false] at hboth
        exact h ⟨hprepared,by rw [hfile]; exact hboth⟩
      cases hb : q.buffer with
      | false => rfl
      | true =>
        rw [hbuffer.resolve_left (by rw [hb]; exact Bool.noConfusion)]
        rfl

/-- A sound call that comes to a round in which the loop is left. -/
theorem Sound.exits (h : Sound b q totalSize rounds) (hopened : Opened q)
    (hk : ∀ j < k, Goes q rounds (capacity b q totalSize) j)
    (hnot : ¬ Goes q rounds (capacity b q totalSize) k) :
    ∃ s r, At q rounds (capacity b q totalSize) k s ∧
      Exits q totalSize rounds (capacity b q totalSize) k s r ∧
      Delivers q totalSize rounds (r.ending q) := by
  have hn := capacity_lt b q totalSize
  obtain ⟨s,r,hs,hr,hrun⟩ := run_leaves (at_start q rounds (capacity b q totalSize))
    (fun _ _ h => h.next totalSize hn)
    (fun _ _ h hnot => (h.exits totalSize hn hnot).imp fun _ => And.left) hk hnot
  obtain ⟨r',hr',hexits⟩ := hs.exits totalSize hn hnot
  obtain rfl : r = r' := Sum.inr.inj (hr.symm.trans hr')
  refine ⟨s,r,hs,hexits,h.2 (k + 1) _ ?_⟩
  rw [download_opened hopened,hrun]
  rfl

theorem Sound.allocation (h : Sound b q totalSize rounds) (hprepared : q.prepared = true)
    (hfile : q.file = false) (hbuffer : q.buffer = true) : totalSize.toNat + 2 < b.sizeT :=
  (callocSize_eq_iff b totalSize).mp (h.1 hprepared hfile hbuffer)

theorem Opened.buffer (h : Opened q) (hfile : q.file = false) : q.buffer = true := by
  have := h.2
  rw [hfile,if_neg Bool.false_ne_true] at this
  exact this.1

theorem Sound.capacity_eq (h : Sound b q totalSize rounds) (hopened : Opened q)
    (hfile : q.file = false) : capacity b q totalSize = totalSize.toNat + 2 := by
  rw [capacity,hfile]
  exact h.1 hopened.1 hfile (hopened.buffer hfile)

/-- The first round that would not fit the block makes a store behind it. -/
theorem Sound.goes (h : Sound b q totalSize rounds) (hopened : Opened q)
    (hk : ∀ j < k, Kept q rounds j) : ∀ j < k, Goes q rounds (capacity b q totalSize) j := by
  intro j
  induction j using Nat.strong_induction_on with
  | _ j ih =>
    intro hj
    by_contra hnot
    obtain ⟨s,r,-,hexits,hdelivers⟩ := h.exits hopened (fun i hi => ih i hi (hi.trans hj)) hnot
    cases hexits with
    | overrun => exact hdelivers
    | complete hends => exact (hk j hj).chunk hends.chunk
    | failed _ hkept => exact hkept (hk j hj)

theorem Sound.room (h : Sound b q totalSize rounds) (hopened : Opened q) (hfile : q.file = false)
    (hk : ∀ j < k, Kept q rounds j) : (body rounds k).length ≤ totalSize.toNat + 2 := by
  cases k with
  | zero => exact Nat.zero_le _
  | succ k => exact (h.capacity_eq hopened hfile) ▸ (h.goes hopened hk k (Nat.lt_succ_self k)).2 hfile

theorem Ends.not_goes {n : ℕ} (h : Ends totalSize rounds k) : ¬ Goes q rounds n k :=
  fun hgoes => hgoes.1.chunk h.chunk

/-- Only one round is the first without data. -/
theorem first_unique {k k' : ℕ} (hk : ∀ j < k, (rounds j).chunk ≠ []) (hend : (rounds k).chunk = [])
    (hk' : ∀ j < k', (rounds j).chunk ≠ []) (hend' : (rounds k').chunk = []) : k = k' := by
  rcases Nat.lt_trichotomy k k' with hlt | heq | hgt
  · exact absurd hend (hk' k hlt)
  · exact heq
  · exact absurd hend' (hk k' hgt)

theorem Sound.complete (h : Sound b q totalSize rounds) (hopened : Opened q)
    (hk : ∀ j < k, Kept q rounds j) (hends : Ends totalSize rounds k) :
    0 < totalSize.toNat ∧ (body rounds k).length = totalSize.toNat := by
  obtain ⟨s,r,hs,hexits,hdelivers⟩ := h.exits hopened (h.goes hopened hk) hends.not_goes
  cases hexits with
  | overrun => exact hdelivers.elim
  | failed _ _ hnot => exact absurd hends hnot
  | complete =>
    have hsize : s.size = totalSize := by
      rw [← UInt64.toNat_inj,hs.size,UInt64.toNat_ofNat']
      exact hends.size
    rw [Left.ending,finish,if_pos rfl,Delivers] at hdelivers
    by_cases hret : s.size = 0
    · rw [if_pos hret] at hdelivers
      cases hfile : q.file <;> simp [hfile] at hdelivers
    · rw [if_neg hret] at hdelivers
      obtain ⟨k',hfirst,hend,hlength,-⟩ := hdelivers
      obtain rfl := first_unique (fun j hj => (hk j hj).chunk) hends.chunk hfirst hend
      refine ⟨Nat.pos_of_ne_zero fun hzero => hret ?_,hlength⟩
      rw [hsize,← UInt64.toNat_inj,hzero]
      rfl

theorem Sound.deleted (h : Sound b q totalSize rounds) (hfile : q.file = true)
    (hdeleted : q.deleted = false) :
    (Opened q → ∀ k, (∀ j < k, Kept q rounds j) → Kept q rounds k ∨ Ends totalSize rounds k) ∧
    (¬ Opened q → q.existing = none) := by
  refine ⟨fun hopened k hk => ?_,fun hclosed => ?_⟩
  · by_contra hneither
    rw [not_or] at hneither
    obtain ⟨s,r,-,hexits,hdelivers⟩ := h.exits hopened (h.goes hopened hk)
      fun hgoes => hneither.1 hgoes.1
    cases hexits with
    | overrun hno => exact Bool.noConfusion (hfile.symm.trans hno)
    | complete hends => exact hneither.2 hends
    | failed s' =>
      simp [Left.ending,finish,Delivers,hfile,hdeleted] at hdelivers
  · have hdelivers := h.2 0 _ (download_closed hclosed 0)
    simpa [finish,Delivers,hfile,hdeleted] using hdelivers

theorem Adequate.capacity_eq (h : Adequate b q totalSize rounds) (hopened : Opened q)
    (hfile : q.file = false) : capacity b q totalSize = totalSize.toNat + 2 := by
  rw [capacity,hfile]
  exact (callocSize_eq_iff b totalSize).mpr (h.allocation hopened.1 hfile (hopened.buffer hfile))

theorem Adequate.delivers (h : Adequate b q totalSize rounds) (hopened : Opened q) {s : State} {r : Left}
    (hk : ∀ j < k, Kept q rounds j) (hs : At q rounds (capacity b q totalSize) k s)
    (hexits : Exits q totalSize rounds (capacity b q totalSize) k s r) :
    Delivers q totalSize rounds (r.ending q) := by
  cases hexits with
  | overrun hfile hkept hlong =>
    have hcapacity := h.capacity_eq hopened hfile
    have hroom := h.room hopened hfile (k + 1) fun j hj => by
      rcases Nat.lt_succ_iff_lt_or_eq.mp hj with hlt | rfl
      · exact hk j hlt
      · exact hkept
    exact absurd hroom (by omega)
  | complete hends =>
    obtain ⟨hpos,hlength⟩ := h.complete hopened k hk hends
    have hsize : s.size.toNat = totalSize.toNat := by
      rw [hs.size,UInt64.toNat_ofNat']
      exact hends.size
    have hret : s.size ≠ 0 := fun hzero => by
      rw [hzero] at hsize
      exact hpos.ne hsize
    rw [Left.ending,finish,if_pos rfl,Delivers,if_neg hret]
    refine ⟨k,fun j hj => (hk j hj).chunk,hends.chunk,hlength,?_⟩
    cases hfile : q.file with
    | true => exact congrArg some (hs.out hfile)
    | false =>
      have hzeros : capacity b q totalSize - (body rounds k).length = 2 := by
        rw [h.capacity_eq hopened hfile,hlength,Nat.add_sub_cancel_left]
      refine congrArg some ?_
      rw [hs.block hfile,hzeros]
      rfl
  | failed s' hkept hends =>
    rw [Left.ending,finish,if_neg Bool.false_ne_true,Delivers,if_pos rfl]
    cases hfile : q.file with
    | false => exact ⟨rfl,rfl⟩
    | true =>
      cases hdeleted : q.deleted with
      | true => exact ⟨rfl,rfl⟩
      | false =>
        rcases (h.deleted hfile hdeleted).1 hopened k hk with hyes | hyes
        · exact absurd hyes hkept
        · exact absurd hyes hends

end calls

/-- Every call is sound exactly when what it gets is adequate. -/
theorem downloadToFileOrBufferEx_sound_iff (b : Build) (q : Request) (totalSize : UInt64)
    (rounds : ℕ → Round) : Sound b q totalSize rounds ↔ Adequate b q totalSize rounds := by
  constructor
  · intro h
    exact ⟨h.allocation,fun hopened hfile _ => h.room hopened hfile,
      fun hopened _ => h.complete hopened,h.deleted⟩
  · intro h
    refine ⟨fun hprepared hfile hbuffer =>
      (callocSize_eq_iff b totalSize).mpr (h.allocation hprepared hfile hbuffer),fun fuel e he => ?_⟩
    by_cases hopened : Opened q
    · rw [download_opened hopened,Option.map_eq_some_iff] at he
      obtain ⟨r,hrun,rfl⟩ := he
      have hn := capacity_lt b q totalSize
      obtain ⟨k,s,hk,hnot,hs,hr⟩ := run_left (at_start q rounds (capacity b q totalSize))
        (fun _ _ h => h.next totalSize hn)
        (fun _ _ h hnot => (h.exits totalSize hn hnot).imp fun _ => And.left) hrun
      obtain ⟨r',hr',hexits⟩ := hs.exits totalSize hn hnot
      obtain rfl : r = r' := Sum.inr.inj (hr.symm.trans hr')
      exact h.delivers hopened (fun j hj => (hk j hj).1) hs hexits
    · rw [download_closed hopened] at he
      obtain rfl := Option.some.inj he
      rw [finish,if_neg Bool.false_ne_true,Delivers,if_pos rfl]
      refine ⟨rfl,?_⟩
      cases hfile : q.file with
      | false => rfl
      | true =>
        cases hdeleted : q.deleted with
        | true => rfl
        | false => exact (h.deleted hfile hdeleted).2 hopened

/-- A server that declares no data and delivers three bytes. -/
theorem downloadToFileOrBufferEx_not_sound :
    ¬ Sound .x64 ⟨false,true,true,false,true,true,none⟩ 0 fun _ => ⟨false,some [1,2,3],true,3⟩ :=
  fun h => h.2 1 .overrun rfl

end SecureWipeOut.Download
