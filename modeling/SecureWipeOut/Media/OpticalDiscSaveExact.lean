import SecureWipeOut.Media.OpticalDiscSave

/-! # When a saved image is good

The outcomes of the calls decide which rounds are made. The image is good unless a position
that could not be set back ends the attempts, which sets no error status, or the device was
read at another place than meant.
-/
namespace SecureWipeOut.OpticalDisc
open ByteStore CInt Loop

section tries
variable {t : ℕ → Try} {left : ℕ → ℕ} {buf : ℕ → UInt8} {rSize wb : ℕ}

theorem writeTries_end (more i : ℕ) (m : Image) :
    (writeTries t left buf rSize wb more i m).1 = triesEnd t rSize more i := by
  induction more generalizing i m with
  | zero => rfl
  | succ more ih =>
    rw [writeTries,triesEnd]
    split
    · rfl
    · dsimp only
      split
      · rfl
      · split
        · split
          · rfl
          · exact ih _ _
        · rfl

theorem putBytes_le (t : ℕ → Try) (left : ℕ → ℕ) (rSize i : ℕ) : putBytes t left rSize i ≤ rSize := by
  rw [putBytes]
  split <;> exact min_le_right _ _

/-- The attempts change nothing outside the range, and one that ends them has filled it. -/
theorem writeTries_image (t : ℕ → Try) (left : ℕ → ℕ) (buf : ℕ → UInt8) (rSize more i : ℕ)
    {m : Image} (hpos : m.pos = wb) :
    SameOutside m.data (writeTries t left buf rSize wb more i m).2.data wb rSize ∧
    (triesEnd t rSize more i = .written → m.size ≤ wb + rSize →
      (writeTries t left buf rSize wb more i m).2.size = wb + rSize ∧
      (writeTries t left buf rSize wb more i m).2.pos = wb + rSize ∧
      ∀ p < rSize, (writeTries t left buf rSize wb more i m).2.data (wb + p) = buf p) := by
  induction more generalizing i m with
  | zero => exact ⟨.refl _ _ _,fun h => by cases h⟩
  | succ more ih =>
    have hput := putBytes_le t left rSize i
    have houtside : SameOutside m.data (m.write buf (putBytes t left rSize i)).data wb rSize := by
      intro p hp
      exact overwrite_outside _ _ (by omega)
    rw [writeTries,triesEnd]
    split
    · exact ⟨.refl _ _ _,fun h => by cases h⟩
    · dsimp only
      split
      · next hdone =>
        rw [Bool.and_eq_true,beq_iff_eq] at hdone
        have hall : putBytes t left rSize i = rSize := by rw [putBytes,if_pos hdone.1,hdone.2]
        refine ⟨houtside,fun _ hsize => ?_⟩
        rw [hall,Image.write,hpos]
        refine ⟨by simpa using hsize,rfl,fun p hp => ?_⟩
        refine (overwrite_inside _ _ (Nat.le_add_right wb p) ?_).trans ?_
        · omega
        · rw [Nat.add_sub_cancel_left]
      · split
        · split
          · exact ⟨houtside,fun h => by cases h⟩
          · obtain ⟨hrest,hwritten⟩ := ih (i + 1)
              (m := { m.write buf (putBytes t left rSize i) with pos := wb }) rfl
            refine ⟨houtside.trans hrest,fun hend hsize => hwritten hend ?_⟩
            simp only [Image.write,hpos]
            omega
        · exact ⟨houtside,fun h => by cases h⟩

/-- Attempts that fail without writing anything leave the range short. -/
theorem writeTries_short (t : ℕ → Try) (buf : ℕ → UInt8) (more i : ℕ) {m : Image} (hr : 0 < rSize)
    (hpos : m.pos = wb) (hsize : m.size < wb + rSize) (hleft : ∀ i, left i = 0) (hend : triesEnd t rSize more i ≠ .written) :
    (writeTries t left buf rSize wb more i m).2.size < wb + rSize := by
  induction more generalizing i m with
  | zero => exact hsize
  | succ more ih =>
    rw [triesEnd] at hend
    rw [writeTries]
    split
    · exact hsize
    · next hcancelled =>
      rw [if_neg hcancelled] at hend
      dsimp only
      split
      · next hdone =>
        rw [if_pos hdone] at hend
        exact absurd rfl hend
      · next hdone =>
        rw [if_neg hdone] at hend
        have hput : putBytes t left rSize i < rSize := by
          rw [putBytes,hleft]
          rw [Bool.and_eq_true,beq_iff_eq] at hdone
          split
          · next hok => exact lt_of_le_of_ne (min_le_right _ _) fun h => hdone ⟨hok,h⟩
          · omega
        have hshort : (m.write buf (putBytes t left rSize i)).size < wb + rSize := by
          simp only [Image.write,hpos]
          omega
        split
        · next hmore =>
          rw [if_pos hmore] at hend
          split
          · exact hshort
          · next hreset =>
            rw [if_neg hreset] at hend
            exact ih (i + 1) rfl hshort hend
        · exact hshort

end tries

section rounds
variable (deviceSize : UInt64) (bufSize : UInt32) (rounds : ℕ → Round)

/-- The bytes that a round reads at an offset. -/
def chunk (wb k : ℕ) : ℕ := min ((rounds k).read.getD 0) (request deviceSize bufSize wb)

/-- Where a round starts when all rounds before it were written. -/
def offset : ℕ → ℕ
  | 0 => 0
  | k + 1 => offset k + chunk deviceSize bufSize rounds (offset k) k

/-- The bytes of round k. -/
def amount (k : ℕ) : ℕ := chunk deviceSize bufSize rounds (offset deviceSize bufSize rounds k) k

def attempts (k : ℕ) : Attempts :=
  triesEnd (rounds k).tries (amount deviceSize bufSize rounds k) writeRetries 1

/-- Round k reads something and writes it. -/
def Written (k : ℕ) : Prop :=
  0 < amount deviceSize bufSize rounds k ∧ attempts deviceSize bufSize rounds k = .written

/-- Round k reads something and gives up because a position cannot be set back. -/
def Abandoned (k : ℕ) : Prop :=
  0 < amount deviceSize bufSize rounds k ∧ attempts deviceSize bufSize rounds k = .abandoned

/-- Round k reads nothing more, and the whole device was counted. -/
def Finished (k : ℕ) : Prop :=
  (rounds k).read.isSome = true ∧ amount deviceSize bufSize rounds k = 0 ∧
    offset deviceSize bufSize rounds k = deviceSize.toNat

/-- No round that is reached is abandoned, and a finished run has set every position of the
device. -/
def Harmless : Prop :=
  ∀ k, (∀ j < k, Written deviceSize bufSize rounds j) →
    ¬ Abandoned deviceSize bufSize rounds k ∧
      (Finished deviceSize bufSize rounds k → ∀ j < k, (rounds j).seek = true)

variable {deviceSize bufSize rounds}

theorem request_eq (bufSize : UInt32) {wb : ℕ} (h : wb ≤ deviceSize.toNat) :
    request deviceSize bufSize wb = min bufSize.toNat (deviceSize.toNat - wb) := by
  rw [request,qsub_of_le h deviceSize.toNat_lt,dword_of_lt]
  have := bufSize.toNat_lt
  omega

theorem offset_le (deviceSize : UInt64) (bufSize : UInt32) (rounds : ℕ → Round) (k : ℕ) :
    offset deviceSize bufSize rounds k ≤ deviceSize.toNat := by
  induction k with
  | zero => exact Nat.zero_le _
  | succ k ih =>
    rw [offset,chunk,request_eq bufSize ih]
    omega

theorem offset_succ (k : ℕ) : offset deviceSize bufSize rounds (k + 1) =
    offset deviceSize bufSize rounds k + amount deviceSize bufSize rounds k := rfl

theorem isSome_of_amount {k : ℕ} (h : 0 < amount deviceSize bufSize rounds k) :
    (rounds k).read.isSome = true := by
  by_contra hnone
  rw [Bool.not_eq_true,Option.isSome_eq_false_iff,Option.isNone_iff_eq_none] at hnone
  rw [amount,chunk,hnone] at h
  simp at h

/-- Every written round moves on. -/
theorem le_offset {k : ℕ} (h : ∀ j < k, Written deviceSize bufSize rounds j) :
    k ≤ offset deviceSize bufSize rounds k := by
  induction k with
  | zero => exact Nat.zero_le _
  | succ k ih =>
    have hpos := (h k (Nat.lt_succ_self k)).1
    have := ih fun j hj => h j (Nat.lt_succ_of_lt hj)
    rw [offset_succ]
    omega

theorem exists_not_written (deviceSize : UInt64) (bufSize : UInt32) (rounds : ℕ → Round) :
    ∃ k, (∀ j < k, Written deviceSize bufSize rounds j) ∧ ¬ Written deviceSize bufSize rounds k := by
  classical
  have hex : ∃ k, ¬ Written deviceSize bufSize rounds k := by
    by_contra hall
    have hle := le_offset (k := deviceSize.toNat + 1) fun j _ => not_exists_not.mp hall j
    have hmost := offset_le deviceSize bufSize rounds (deviceSize.toNat + 1)
    omega
  exact ⟨Nat.find hex,fun j hj => not_not.mp (Nat.find_min hex hj),Nat.find_spec hex⟩

end rounds

section runs
variable {deviceSize : UInt64} {bufSize : UInt32} {rounds : ℕ → Round} {c : Contents} {k : ℕ} {s : Save}

/-- Where the device is read for a round. -/
def place (deviceSize : UInt64) (bufSize : UInt32) (rounds : ℕ → Round) (c : Contents) (k : ℕ) : ℕ :=
  if (rounds k).seek then offset deviceSize bufSize rounds k else c.stray k

/-- Before round k, all earlier ones written: each has put what it read behind the others. -/
structure At (deviceSize : UInt64) (bufSize : UInt32) (rounds : ℕ → Round) (c : Contents) (k : ℕ)
    (s : Save) : Prop where
  round : s.round = k
  wb : s.wb = offset deviceSize bufSize rounds k
  pos : s.image.pos = offset deviceSize bufSize rounds k
  size : s.image.size = offset deviceSize bufSize rounds k
  data : ∀ j < k, ∀ p < amount deviceSize bufSize rounds j,
    s.image.data (offset deviceSize bufSize rounds j + p) =
      c.device (place deviceSize bufSize rounds c j + p)

theorem offset_mono (deviceSize : UInt64) (bufSize : UInt32) (rounds : ℕ → Round) :
    Monotone (offset deviceSize bufSize rounds) :=
  monotone_nat_of_le_succ fun _ => Nat.le_add_right _ _

theorem at_start : At deviceSize bufSize rounds c 0 ⟨0,0,⟨fun _ => 0,0,0⟩⟩ :=
  ⟨rfl,rfl,rfl,rfl,fun _ h => absurd h (Nat.not_lt_zero _)⟩

/-- The attempts of a round. -/
def roundTries (deviceSize : UInt64) (bufSize : UInt32) (rounds : ℕ → Round) (c : Contents) (k : ℕ)
    (m : Image) : Attempts × Image :=
  writeTries (rounds k).tries (c.left k) (fun i => c.device (place deviceSize bufSize rounds c k + i))
    (amount deviceSize bufSize rounds k) (offset deviceSize bufSize rounds k) writeRetries 1 m

theorem saveStep_at (h : At deviceSize bufSize rounds c k s) :
    saveStep deviceSize bufSize rounds c s =
      if (rounds k).read.isSome then
        if amount deviceSize bufSize rounds k = 0 then
          .inr ⟨offset deviceSize bufSize rounds k != deviceSize.toNat,s.image⟩
        else
          let w := roundTries deviceSize bufSize rounds c k s.image
          match attempts deviceSize bufSize rounds k with
          | .written => .inl ⟨k + 1,offset deviceSize bufSize rounds (k + 1),w.2⟩
          | .error => .inr ⟨true,w.2⟩
          | .abandoned => .inr ⟨false,w.2⟩
      else .inr ⟨true,s.image⟩ := by
  rw [saveStep,h.round,h.wb]
  cases hread : (rounds k).read with
  | none => rfl
  | some count =>
    have hamount : min count (request deviceSize bufSize (offset deviceSize bufSize rounds k)) =
        amount deviceSize bufSize rounds k := by
      rw [amount,chunk,hread,Option.getD_some]
    simp only [hamount,Option.isSome_some,if_true]
    split
    · rfl
    · rw [attempts,← writeTries_end]
      rfl

theorem saveStep_written (h : At deviceSize bufSize rounds c k s)
    (hk : Written deviceSize bufSize rounds k) :
    ∃ s', saveStep deviceSize bufSize rounds c s = .inl s' ∧ At deviceSize bufSize rounds c (k + 1) s' := by
  obtain ⟨hamount,hwritten⟩ := hk
  rw [saveStep_at h,if_pos (isSome_of_amount hamount),if_neg hamount.ne',hwritten]
  refine ⟨_,rfl,?_⟩
  obtain ⟨houtside,hinside⟩ := writeTries_image (rounds k).tries (c.left k)
    (fun i => c.device (place deviceSize bufSize rounds c k + i))
    (amount deviceSize bufSize rounds k) writeRetries 1 h.pos
  obtain ⟨hsize,hpos,hdata⟩ := hinside hwritten (h.size.le.trans (Nat.le_add_right _ _))
  refine ⟨rfl,rfl,hpos,hsize,fun j hj p hp => ?_⟩
  rcases Nat.lt_succ_iff_lt_or_eq.mp hj with hlt | rfl
  · have hend : offset deviceSize bufSize rounds (j + 1) ≤ offset deviceSize bufSize rounds k :=
      offset_mono _ _ _ hlt
    rw [offset_succ] at hend
    exact (houtside _ (Or.inl (by omega))).trans (h.data j hlt p hp)
  · exact hdata p hp

theorem saveStep_exit (h : At deviceSize bufSize rounds c k s)
    (hnot : ¬ Written deviceSize bufSize rounds k) :
    ∃ r, saveStep deviceSize bufSize rounds c s = .inr r := by
  rw [saveStep_at h]
  split
  · split
    · exact ⟨_,rfl⟩
    · next hamount =>
      cases hend : attempts deviceSize bufSize rounds k with
      | written => exact absurd ⟨Nat.pos_of_ne_zero hamount,hend⟩ hnot
      | error => exact ⟨_,rfl⟩
      | abandoned => exact ⟨_,rfl⟩
  · exact ⟨_,rfl⟩

/-- The thread ends in the first round that is not written. -/
theorem exists_saved (c : Contents) (hk : ∀ j < k, Written deviceSize bufSize rounds j)
    (hnot : ¬ Written deviceSize bufSize rounds k) :
    ∃ s r, At deviceSize bufSize rounds c k s ∧ saveStep deviceSize bufSize rounds c s = .inr r ∧
      opticalDiscSaveImageThread deviceSize bufSize rounds c true (k + 1) = some r :=
  run_leaves at_start (fun _ _ => saveStep_written) (fun _ _ => saveStep_exit) hk hnot

/-- The bytes before an offset all belong to a round. -/
theorem exists_round {i : ℕ} (hi : i < offset deviceSize bufSize rounds k) :
    ∃ j < k, ∃ p < amount deviceSize bufSize rounds j, i = offset deviceSize bufSize rounds j + p := by
  induction k with
  | zero => exact absurd hi (Nat.not_lt_zero _)
  | succ k ih =>
    rcases Nat.lt_or_ge i (offset deviceSize bufSize rounds k) with hlt | hge
    · obtain ⟨j,hj,hp⟩ := ih hlt
      exact ⟨j,Nat.lt_succ_of_lt hj,hp⟩
    · rw [offset_succ] at hi
      exact ⟨k,Nat.lt_succ_self k,i - offset deviceSize bufSize rounds k,by omega,by omega⟩

theorem At.exact (h : At deviceSize bufSize rounds c k s)
    (hall : offset deviceSize bufSize rounds k = deviceSize.toNat)
    (hseek : ∀ j < k, (rounds j).seek = true) : Exact deviceSize c s.image := by
  refine ⟨h.size.trans hall,fun i hi => ?_⟩
  obtain ⟨j,hj,p,hp,rfl⟩ := exists_round (hall ▸ hi)
  rw [h.data j hj p hp,place,if_pos (hseek j hj)]

theorem Reported.exact (h : Reported deviceSize bufSize rounds) (c : Contents)
    (hk : ∀ j < k, Written deviceSize bufSize rounds j) (hnot : ¬ Written deviceSize bufSize rounds k) :
    ∃ s r, At deviceSize bufSize rounds c k s ∧ saveStep deviceSize bufSize rounds c s = .inr r ∧
      (r.error = false → Exact deviceSize c r.image) := by
  obtain ⟨s,r,hs,hr,hrun⟩ := exists_saved c hk hnot
  obtain ⟨fuel,r',hrun',hexact⟩ := h c true
  obtain rfl := run_unique hrun hrun'
  exact ⟨s,r,hs,hr,hexact⟩

theorem Reported.not_abandoned (h : Reported deviceSize bufSize rounds)
    (hk : ∀ j < k, Written deviceSize bufSize rounds j) : ¬ Abandoned deviceSize bufSize rounds k := by
  rintro ⟨hamount,hend⟩
  have hnot : ¬ Written deviceSize bufSize rounds k := fun hw => by
    have := hw.2
    rw [hend] at this
    cases this
  -- writes that fail leave nothing
  obtain ⟨s,r,hs,hr,hexact⟩ := h.exact ⟨fun _ => 0,fun _ => 0,fun _ _ => 0⟩ hk hnot
  rw [saveStep_at hs,if_pos (isSome_of_amount hamount),if_neg hamount.ne',hend] at hr
  obtain rfl := Sum.inr.inj hr
  have hsize := (hexact rfl).1
  have hshort := writeTries_short (rounds k).tries (fun _ => 0) writeRetries 1 hamount hs.pos
    (by rw [hs.size]; omega) (fun _ => rfl) (by rw [attempts] at hend; rw [hend]; decide)
  have hmost := offset_le deviceSize bufSize rounds (k + 1)
  rw [offset_succ] at hmost
  exact absurd hsize (hshort.trans_le hmost).ne

theorem Reported.seek (h : Reported deviceSize bufSize rounds)
    (hk : ∀ j < k, Written deviceSize bufSize rounds j) (hfinished : Finished deviceSize bufSize rounds k)
    {j : ℕ} (hj : j < k) : (rounds j).seek = true := by
  obtain ⟨hread,hamount,hall⟩ := hfinished
  by_contra hseek
  -- a byte that is nowhere else on the device
  obtain ⟨s,r,hs,hr,hexact⟩ := h.exact
    ⟨fun i => if i = offset deviceSize bufSize rounds j then 1 else 0,
      fun j => offset deviceSize bufSize rounds j + 1,fun _ _ => 0⟩ hk fun hw => hw.1.ne' hamount
  rw [saveStep_at hs,if_pos hread,if_pos hamount] at hr
  obtain rfl := Sum.inr.inj hr
  have hpos := (hk j hj).1
  have hmost := offset_le deviceSize bufSize rounds (j + 1)
  rw [offset_succ] at hmost
  have hright := (hexact (by rw [hall]; exact bne_self_eq_false _)).2
    (offset deviceSize bufSize rounds j) (by omega)
  have hwrong := hs.data j hj 0 hpos
  rw [place,if_neg hseek] at hwrong
  rw [Nat.add_zero] at hwrong
  simp [hwrong] at hright

end runs

/-- The thread ends, and without an error only when the image is the device's bytes, exactly
when no round that is reached is abandoned and a finished run has set every position. -/
theorem opticalDiscSaveImageThread_reported_iff (deviceSize : UInt64) (bufSize : UInt32)
    (rounds : ℕ → Round) :
    Reported deviceSize bufSize rounds ↔ Harmless deviceSize bufSize rounds := by
  refine ⟨fun h k hk => ⟨h.not_abandoned hk,fun hfinished j hj => h.seek hk hfinished hj⟩,?_⟩
  intro h c opened
  cases opened with
  | false => exact ⟨0,_,rfl,fun herror => Bool.noConfusion herror⟩
  | true =>
    obtain ⟨k,hk,hnot⟩ := exists_not_written deviceSize bufSize rounds
    obtain ⟨s,r,hs,hr,hrun⟩ := exists_saved c hk hnot
    refine ⟨k + 1,r,hrun,fun herror => ?_⟩
    obtain ⟨habandoned,hseek⟩ := h k hk
    rw [saveStep_at hs] at hr
    split at hr
    · next hread =>
      split at hr
      · next hamount =>
        obtain rfl := Sum.inr.inj hr
        have hall : offset deviceSize bufSize rounds k = deviceSize.toNat := by simpa using herror
        exact hs.exact hall (hseek ⟨hread,hamount,hall⟩)
      · next hamount =>
        cases hend : attempts deviceSize bufSize rounds k with
        | written => exact absurd ⟨Nat.pos_of_ne_zero hamount,hend⟩ hnot
        | error =>
          rw [hend] at hr
          obtain rfl := Sum.inr.inj hr
          cases herror
        | abandoned => exact absurd ⟨Nat.pos_of_ne_zero hamount,hend⟩ habandoned
    · obtain rfl := Sum.inr.inj hr
      cases herror

/-- A disc of one byte, whose image is left empty without an error. -/
theorem opticalDiscSaveImageThread_not_reported : ¬ Reported 1 1 fun _ =>
    ⟨true,some 1,fun _ => ⟨false,false,0,false⟩⟩ := by
  intro h
  obtain ⟨fuel,r,hrun,hexact⟩ := h ⟨fun _ => 0,fun _ => 0,fun _ _ => 0⟩ true
  cases fuel with
  | zero => cases hrun
  | succ fuel =>
    obtain rfl := Option.some.inj hrun
    exact absurd (hexact rfl).1 (by decide)

end SecureWipeOut.OpticalDisc
