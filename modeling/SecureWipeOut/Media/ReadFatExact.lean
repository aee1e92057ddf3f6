import SecureWipeOut.Media.ReadFat

/-! # Which plans of calls are exact

A plan says which sectors are asked for and which reads fail. When it takes a sector from
a window whose read has failed, some image and some rest of a failed read show it.
-/
namespace SecureWipeOut.ReadFat

section worst
variable {secsize : ℕ} {lsn : Int32} {sec : UInt64}

/-- What a read that fails leaves in the buffer. -/
def ones : Buffer := Vector.replicate bufSize 1

/-- A buffer that holds a window of the image or what a failed read has left. -/
def held (secsize : ℕ) (img : ℕ → UInt8) (lsn : Int32) : Option ℕ → Buffer
  | some a => Vector.ofFn fun k => img (lsn.toInt.toNat * isoBlockSize + a * secsize + k)
  | none => ones

theorem held_window {img : ℕ → UInt8} {a k : ℕ} (hk : k < bufSize) :
    (held secsize img lsn (some a))[k]?.getD 0 =
      img (lsn.toInt.toNat * isoBlockSize + a * secsize + k) := by
  simp [held,hk]

theorem held_rest {img : ℕ → UInt8} {k : ℕ} (hk : k < bufSize) :
    (held secsize img lsn none)[k]?.getD 0 = 1 := by
  simp [held,ones,hk]

def worst (c : UInt64 × Bool) : UInt64 × Read := (c.1,if c.2 then .full else .short ones)

theorem plan_worst (c : UInt64 × Bool) : plan (worst c) = c := by
  obtain ⟨sec,full⟩ := c
  cases full <;> rfl

/-- An image with a one at a single place. -/
def mark (x : ℕ) : ℕ → UInt8 := fun i => if i = x then 1 else 0

theorem mark_eq_one {x i : ℕ} (h : mark x i = 1) : i = x := by
  by_contra hne
  simp [mark,hne] at h

/-- What is not the window the sector is taken from may differ from it. -/
theorem stale_differs (lsn : Int32) (h : secsize ∣ bufSize) {s : ℕ}
    (hin : inBuffer secsize s sec.toNat = true) {c : Option ℕ} (hc : c ≠ some s) :
    ∃ img, copy secsize (held secsize img lsn c) s sec.toNat ≠ fatBytes secsize img lsn sec.toNat := by
  obtain ⟨hle,hoff,hend⟩ := offset_inBuffer h hin
  have hpos := secsize_pos h
  have hk : (sec.toNat - s) * secsize + 0 < bufSize := by omega
  cases c with
  | none =>
    refine ⟨fun _ => 0,fun heq => ?_⟩
    have hbyte := List.map_inj_left.mp heq 0 (List.mem_range.mpr hpos)
    rw [hoff,held_rest hk] at hbyte
    exact absurd (show (1 : UInt8) = 0 from hbyte) (by decide)
  | some a =>
    refine ⟨mark (lsn.toInt.toNat * isoBlockSize + sec.toNat * secsize),fun heq => ?_⟩
    have hbyte := List.map_inj_left.mp heq 0 (List.mem_range.mpr hpos)
    have hplace : lsn.toInt.toNat * isoBlockSize + a * secsize + (sec.toNat - s) * secsize =
        lsn.toInt.toNat * isoBlockSize + sec.toNat * secsize := by
      rw [hoff,held_window hk] at hbyte
      exact mark_eq_one (hbyte.trans (by simp [mark]))
    have hmul : (sec.toNat - s) * secsize + s * secsize = sec.toNat * secsize := by
      rw [← Nat.add_mul,Nat.sub_add_cancel hle]
    exact hc (congrArg some (Nat.eq_of_mul_eq_mul_right hpos (by omega)))

/-- Blocks that deliver the sector of every image are those meant. -/
theorem block_of_exact (h : secsize ∣ bufSize) (hlsn : 0 ≤ lsn.toInt) {start : Int32}
    (hstart : 0 ≤ start.toInt)
    (hexact : ∀ img, copy secsize (blocks img start.toInt.toNat) (windowStart secsize sec.toNat)
      sec.toNat = fatBytes secsize img lsn sec.toNat) :
    start.toInt = lsn.toInt + (sec.toNat * secsize / isoBlockSize : ℕ) := by
  have hbyte := hexact (mark (lsn.toInt.toNat * isoBlockSize + sec.toNat * secsize))
  rw [copy_blocks h] at hbyte
  have hfirst := List.map_inj_left.mp hbyte 0 (List.mem_range.mpr (secsize_pos h))
  have hplace := mark_eq_one (hfirst.trans (by simp [mark]))
  rw [isoBlockSize_eq] at hplace ⊢
  omega

/-- After a read that fails the buffer holds something other than the window. -/
theorem worst_fails (h : secsize ∣ bufSize) {s : ℕ} {c : Option ℕ} {full : Bool}
    (hc : ∀ a, c = some a → 0 ≤ (startBlock secsize lsn a).toInt)
    (hin : inBuffer secsize s sec.toNat = false)
    (hr : (full && decide (0 ≤
      (startBlock secsize lsn (windowStart secsize sec.toNat)).toInt)) = false) :
    ∃ c', (∀ a, c' = some a → 0 ≤ (startBlock secsize lsn a).toInt) ∧
      c' ≠ some (windowStart secsize sec.toNat) ∧
      ∀ img, iso9660Readfat secsize img ⟨lsn,s,held secsize img lsn c⟩ sec (worst (sec,full)).2 =
        (none,⟨lsn,windowStart secsize sec.toNat,held secsize img lsn c'⟩) := by
  rcases Int.lt_or_le (startBlock secsize lsn (windowStart secsize sec.toNat)).toInt 0 with
    hstart | hstart
  · refine ⟨c,hc,?_,fun img => readfat_refused h hin hstart⟩
    rintro rfl
    exact absurd (hc _ rfl) (not_le.mpr hstart)
  · obtain rfl : full = false := by simpa [hstart] using hr
    exact ⟨none,by simp,by simp,fun img =>
      readfat_short (p := ⟨lsn,s,held secsize img lsn c⟩) h hin hstart ones⟩

/-- A read that succeeds has to be at the block meant, and fills the buffer with the window. -/
theorem worst_full (h : secsize ∣ bufSize) (hlsn : 0 ≤ lsn.toInt) {s : ℕ} {c : Option ℕ}
    (hin : inBuffer secsize s sec.toNat = false)
    (hstart : 0 ≤ (startBlock secsize lsn (windowStart secsize sec.toNat)).toInt)
    (hexact : ∀ img, ∀ data,
      (iso9660Readfat secsize img ⟨lsn,s,held secsize img lsn c⟩ sec .full).1 = some data →
        data = fatBytes secsize img lsn sec.toNat) :
    (startBlock secsize lsn (windowStart secsize sec.toNat)).toInt =
      lsn.toInt + (sec.toNat * secsize / isoBlockSize : ℕ) ∧
    ∀ img, (iso9660Readfat secsize img ⟨lsn,s,held secsize img lsn c⟩ sec .full).2 =
      ⟨lsn,windowStart secsize sec.toNat,
        held secsize img lsn (some (windowStart secsize sec.toNat))⟩ := by
  have hcall : ∀ img, iso9660Readfat secsize img ⟨lsn,s,held secsize img lsn c⟩ sec .full = _ :=
    fun img => readfat_full h hin hstart
  have hblock := block_of_exact h hlsn hstart fun img => hexact img _ (congrArg Prod.fst (hcall img))
  have hbase := blocks_holds (p := ⟨lsn,s,ones⟩) h hlsn hblock
  refine ⟨hblock,fun img => ?_⟩
  rw [hcall,blocks,hbase]
  rfl

theorem fresh_of_exact (h : secsize ∣ bufSize) (hlsn : 0 ≤ lsn.toInt)
    (pattern : List (UInt64 × Bool)) (s : ℕ) (f : Bool) (c : Option ℕ)
    (hc : ∀ a, c = some a → 0 ≤ (startBlock secsize lsn a).toInt) (hf : f = false → c ≠ some s)
    (hexact : ∀ img, Exact secsize img lsn
      (run secsize img ⟨lsn,s,held secsize img lsn c⟩ (pattern.map worst))) :
    fresh secsize lsn s f pattern = true := by
  induction pattern generalizing s f c with
  | nil => rfl
  | cons q pattern ih =>
    obtain ⟨sec,full⟩ := q
    simp only [List.map_cons,run,exact_cons] at hexact
    have hfirst := fun img => (hexact img).1
    have hrest := fun img => (hexact img).2
    cases hin : inBuffer secsize s sec.toNat with
    | true =>
      have hcall : ∀ img, iso9660Readfat secsize img ⟨lsn,s,held secsize img lsn c⟩ sec
          (worst (sec,full)).2 = _ := fun img => readfat_inBuffer h hin
      rw [fresh_inBuffer hin,Bool.and_eq_true]
      refine ⟨?_,ih s f c hc hf fun img => ?_⟩
      · by_contra hne
        have hstale : c ≠ some s := hf (by simpa using hne)
        obtain ⟨img,hdiff⟩ := stale_differs lsn h hin hstale
        exact hdiff (hfirst img _ (congrArg Prod.fst (hcall img)))
      · have htail := hrest img
        rwa [show (worst (sec,full)).1 = sec from rfl,hcall img] at htail
    | false =>
      cases hr : full && decide (0 ≤
        (startBlock secsize lsn (windowStart secsize sec.toNat)).toInt) with
      | true =>
        have hfull := hr
        rw [Bool.and_eq_true,decide_eq_true_eq] at hfull
        obtain ⟨rfl,hstart⟩ := hfull
        obtain ⟨hblock,hnext⟩ := worst_full h hlsn hin hstart hfirst
        rw [fresh_outside hin hr,decide_eq_true hblock]
        refine ih _ true (some (windowStart secsize sec.toNat)) ?_ ?_ fun img => ?_
        · intro a ha
          rwa [← Option.some.inj ha]
        · intro hfalse
          cases hfalse
        · rw [← hnext]
          exact hrest img
      | false =>
        obtain ⟨c',hc',hne,hnext⟩ := worst_fails h hc hin hr
        rw [fresh_outside hin hr]
        refine ih _ false c' hc' (fun _ => hne) fun img => ?_
        have htail := hrest img
        rwa [show (worst (sec,full)).1 = sec from rfl,hnext img] at htail

end worst

section results
variable {secsize : ℕ} {img : ℕ → UInt8} {lsn : Int32} {junk : Buffer} {r : Read}

theorem populate_some {p : ReadfatPrivate} (h : populate img lsn junk r = some p) :
    0 ≤ lsn.toInt ∧ p = ⟨lsn,0,blocks img lsn.toInt.toNat⟩ := by
  by_cases hlsn : lsn.toInt < 0
  · simp [populate,iso9660IsoSeekRead,hlsn] at h
  · refine ⟨not_lt.mp hlsn,?_⟩
    cases r with
    | full => simpa [populate,iso9660IsoSeekRead,hlsn] using h.symm
    | short left => simp [populate,iso9660IsoSeekRead,hlsn] at h

theorem populate_full (h : 0 ≤ lsn.toInt) :
    populate img lsn junk .full = some ⟨lsn,0,blocks img lsn.toInt.toNat⟩ := by
  simp [populate,iso9660IsoSeekRead,not_lt.mpr h]

theorem startBlock_zero (secsize : ℕ) (lsn : Int32) : startBlock secsize lsn 0 = lsn := by
  simp [startBlock,CInt.qword]

theorem blocks_eq_held : blocks img lsn.toInt.toNat = held secsize img lsn (some 0) := by
  simp only [blocks,held,Nat.zero_mul,Nat.add_zero]

/-- Whatever the image holds and the reads that fail leave, the calls that succeed deliver
the bytes of their sectors, exactly when the plan is fresh. -/
theorem readfat_exact_iff (h : secsize ∣ bufSize) (lsn : Int32) (pattern : List (UInt64 × Bool)) :
    (∀ img junk r p calls, populate img lsn junk r = some p → calls.map plan = pattern →
      Exact secsize img lsn (run secsize img p calls)) ↔
    (0 ≤ lsn.toInt → fresh secsize lsn 0 true pattern = true) := by
  constructor
  · intro hexact hlsn
    refine fresh_of_exact h hlsn pattern 0 true (some 0) ?_ ?_ fun img => ?_
    · intro a ha
      rwa [← Option.some.inj ha,startBlock_zero]
    · intro hfalse
      cases hfalse
    · have hplan : (pattern.map worst).map plan = pattern := by
        rw [List.map_map]
        exact (List.map_congr_left fun c _ => plan_worst c).trans (List.map_id _)
      rw [← blocks_eq_held]
      exact hexact img ones .full _ _ (populate_full hlsn) hplan
  · rintro hfresh img junk r p calls hp rfl
    obtain ⟨hlsn,rfl⟩ := populate_some hp
    refine run_exact h calls ⟨lsn,0,blocks img lsn.toInt.toNat⟩ true hlsn (fun _ k hk => ?_)
      (hfresh hlsn)
    rw [blocks_get _ hk,Nat.zero_mul,Nat.add_zero]

/-- A read that fails is no harm when its window is left before a sector is taken from it. -/
theorem readfat_exact_after_failure : 512 ∣ bufSize ∧
    ∀ img junk r p calls, populate img 300 junk r = some p →
      calls.map plan = [(0,true),(64,false),(5,true),(130,true)] →
      Exact 512 img 300 (run 512 img p calls) :=
  ⟨by decide,(readfat_exact_iff (by decide) 300 [(0,true),(64,false),(5,true),(130,true)]).mpr
    fun _ => by decide⟩

/-- An image whose FAT starts with a window of zeros and goes on with ones. -/
def twoWindows (x : ℕ) : UInt8 := if x < 300 * 2048 + 32768 then 0 else 1

/-- A sector whose read has failed is delivered by the next call for it, with the bytes of
the window before. -/
theorem readfat_stale : ¬ ∀ secsize, secsize ∣ bufSize → ∀ img lsn junk r p calls,
    populate img lsn junk r = some p → Exact secsize img lsn (run secsize img p calls) := by
  intro hall
  have hexact := hall 512 (by decide) twoWindows 300 (blocks twoWindows 300) .full _
    [(64,.short (blocks twoWindows 300)),(64,.full)] (populate_full (by decide))
  have hfails : iso9660Readfat 512 twoWindows ⟨300,0,blocks twoWindows (300 : Int32).toInt.toNat⟩ 64
      (.short (blocks twoWindows 300)) = (none,⟨300,64,blocks twoWindows 300⟩) :=
    readfat_short (by decide) (by decide) (by decide) _
  have hcached : iso9660Readfat 512 twoWindows ⟨300,64,blocks twoWindows 300⟩ 64 .full =
      (some (copy 512 (blocks twoWindows 300) 64 64),⟨300,64,blocks twoWindows 300⟩) :=
    readfat_inBuffer (by decide) (by decide)
  rw [run,hfails,run,hcached,exact_cons,exact_cons] at hexact
  have hdata := hexact.2.1 _ rfl
  rw [copy,fatBytes] at hdata
  have hbyte := List.map_inj_left.mp hdata 0 (List.mem_range.mpr (by decide))
  rw [blocks_get _ (by decide)] at hbyte
  exact absurd hbyte (by decide)

end results

end SecureWipeOut.ReadFat
