import SecureWipeOut.Lib.CInt

/-! # Sectors of a FAT image on an ISO

`iso9660_readfat` keeps sixteen blocks of the ISO and the number of the sector they start
with. The number is changed before the blocks are read, and it stays when the read fails.
-/
namespace SecureWipeOut.ReadFat
open CInt

def isoBlockSize : ℕ := 2048
def isoNbBlocks : ℕ := 16
def bufSize : ℕ := isoBlockSize * isoNbBlocks

abbrev Buffer := Vector UInt8 bufSize

structure ReadfatPrivate where
  lsn : Int32
  secStart : ℕ
  buf : Buffer

/-- How a read of the ISO ends: with all the blocks or with something else in the buffer. -/
inductive Read where
  | full
  | short (left : Buffer)

def Read.isFull : Read → Bool
  | .full => true
  | .short _ => false

/-- The blocks from a position on. -/
def blocks (img : ℕ → UInt8) (start : ℕ) : Buffer :=
  Vector.ofFn fun k => img (start * isoBlockSize + k)

/-- Whether all the blocks were read, and the buffer. A negative position is refused. -/
def iso9660IsoSeekRead (img : ℕ → UInt8) (buf : Buffer) (start : Int32) (r : Read) :
    Bool × Buffer :=
  if start.toInt < 0 then (false,buf)
  else
    match r with
    | .full => (true,blocks img start.toInt.toNat)
    | .short left => (false,left)

section sectors
variable (secsize : ℕ)

def inBuffer (secStart sec : ℕ) : Bool :=
  !(decide (sec < secStart) || decide (qword (secStart + bufSize / secsize) ≤ sec))

def windowStart (sec : ℕ) : ℕ :=
  qword (sec * secsize) / isoBlockSize * isoBlockSize / secsize

def startBlock (lsn : Int32) (secStart : ℕ) : Int32 :=
  lsn + Int32.ofNat (qword (secStart * secsize) / isoBlockSize)

def copy (buf : Buffer) (secStart sec : ℕ) : List UInt8 :=
  (List.range secsize).map fun k => buf[qword (qsub sec secStart * secsize) + k]?.getD 0

/-- The bytes of the sector when the call returns `secsize`, none when it returns 0. -/
def iso9660Readfat (img : ℕ → UInt8) (p : ReadfatPrivate) (sec : UInt64) (r : Read) :
    Option (List UInt8) × ReadfatPrivate :=
  if bufSize % secsize ≠ 0 then (none,p)
  else if inBuffer secsize p.secStart sec.toNat then
    (some (copy secsize p.buf p.secStart sec.toNat),p)
  else
    -- the start of the window is stored before the read that fills it
    let secStart := windowStart secsize sec.toNat
    let read := iso9660IsoSeekRead img p.buf (startBlock secsize p.lsn secStart) r
    (if read.1 then some (copy secsize read.2 secStart sec.toNat) else none,
      ⟨p.lsn,secStart,read.2⟩)

/-- The buffer as it is first filled, before the FAT is opened. -/
def populate (img : ℕ → UInt8) (lsn : Int32) (buf : Buffer) (r : Read) : Option ReadfatPrivate :=
  let read := iso9660IsoSeekRead img buf lsn r
  if read.1 then some ⟨lsn,0,read.2⟩ else none

/-- The calls one after the other, each with the end of the read it may make. -/
def run (img : ℕ → UInt8) : ReadfatPrivate → List (UInt64 × Read) → List (UInt64 × Option (List UInt8))
  | _, [] => []
  | p, c :: rest =>
    let r := iso9660Readfat secsize img p c.1 c.2
    (c.1,r.1) :: run img r.2 rest

/-- The bytes of a sector of the FAT image, which starts at a block of the ISO. -/
def fatBytes (img : ℕ → UInt8) (lsn : Int32) (sec : ℕ) : List UInt8 :=
  (List.range secsize).map fun k => img (lsn.toInt.toNat * isoBlockSize + sec * secsize + k)

/-- Every call that succeeds delivers the bytes of its sector. -/
def Exact (img : ℕ → UInt8) (lsn : Int32) (results : List (UInt64 × Option (List UInt8))) : Prop :=
  ∀ q ∈ results, ∀ data, q.2 = some data → data = fatBytes secsize img lsn q.1.toNat

/-- No sector is taken from a window whose read has failed, and no read succeeds at a block
other than the one meant, for which the block number has to be one of 32 bits. -/
def fresh (lsn : Int32) : ℕ → Bool → List (UInt64 × Bool) → Bool
  | _, _, [] => true
  | secStart, filled, (sec,full) :: rest =>
    if inBuffer secsize secStart sec.toNat then filled && fresh lsn secStart filled rest
    else
      let secStart := windowStart secsize sec.toNat
      let start := (startBlock secsize lsn secStart).toInt
      let filled := full && decide (0 ≤ start)
      (!filled || decide (start = lsn.toInt + (sec.toNat * secsize / isoBlockSize : ℕ))) &&
        fresh lsn secStart filled rest

end sectors

section windows
variable {secsize : ℕ}

/-- A sector that is not made of blocks is a part of one. -/
theorem dvd_block (h : secsize ∣ bufSize) : secsize ∣ isoBlockSize ∨ isoBlockSize ∣ secsize := by
  obtain ⟨k,-,rfl⟩ := (Nat.dvd_prime_pow (m := 15) Nat.prime_two).mp h
  rcases Nat.le_total k 11 with hk | hk
  · exact .inl (pow_dvd_pow 2 hk)
  · exact .inr (pow_dvd_pow 2 hk)

theorem secsize_pos (h : secsize ∣ bufSize) : 0 < secsize :=
  Nat.pos_of_dvd_of_pos h (by decide)

theorem bufSize_eq : bufSize = 32768 := rfl
theorem isoBlockSize_eq : isoBlockSize = 2048 := rfl

theorem secsize_le (h : secsize ∣ bufSize) : secsize ≤ 32768 := Nat.le_of_dvd (by decide) h

/-- The window starts at the block that the sector starts in. -/
theorem windowStart_mul (h : secsize ∣ bufSize) (sec : ℕ) :
    windowStart secsize sec * secsize = qword (sec * secsize) / 2048 * 2048 := by
  refine Nat.div_mul_cancel ?_
  rcases dvd_block h with hd | hd
  · exact dvd_mul_of_dvd_right hd _
  · have hpow : secsize ∣ 2 ^ 64 := h.trans (by decide)
    have hq : secsize ∣ qword (sec * secsize) :=
      (Nat.dvd_mod_iff hpow).mpr (Dvd.intro_left sec rfl)
    rwa [Nat.div_mul_cancel (hd.trans hq)]

theorem windowStart_le (h : secsize ∣ bufSize) (sec : ℕ) : windowStart secsize sec ≤ sec := by
  refine Nat.le_of_mul_le_mul_right ?_ (secsize_pos h)
  rw [windowStart_mul h]
  exact (Nat.div_mul_le_self _ _).trans (Nat.mod_le _ _)

/-- The place of a sector in a window that has just been chosen for it. -/
theorem offset_windowStart (h : secsize ∣ bufSize) (sec : UInt64) :
    qword (qsub sec.toNat (windowStart secsize sec.toNat) * secsize) =
      sec.toNat * secsize % 2048 := by
  have hle := windowStart_le h sec.toNat
  have hmul := windowStart_mul h sec.toNat
  rw [qsub_of_le hle sec.toNat_lt,Nat.sub_mul,hmul]
  unfold qword
  omega

theorem offset_windowStart_lt (h : secsize ∣ bufSize) (sec : ℕ) :
    sec * secsize % 2048 + secsize ≤ bufSize := by
  have hle := secsize_le h
  rw [bufSize_eq]
  rcases dvd_block h with hd | hd
  · have hs := Nat.le_of_dvd (by decide) hd
    rw [isoBlockSize_eq] at hs
    omega
  · rw [isoBlockSize_eq] at hd
    rw [Nat.mod_eq_zero_of_dvd (hd.trans (Dvd.intro_left sec rfl))]
    omega

/-- The place of a sector in a window that holds it. -/
theorem offset_inBuffer (h : secsize ∣ bufSize) {secStart : ℕ} {sec : UInt64}
    (hin : inBuffer secsize secStart sec.toNat = true) :
    secStart ≤ sec.toNat ∧
      qword (qsub sec.toNat secStart * secsize) = (sec.toNat - secStart) * secsize ∧
      (sec.toNat - secStart) * secsize + secsize ≤ bufSize := by
  simp only [inBuffer,Bool.not_eq_true',Bool.or_eq_false_iff,decide_eq_false_iff_not,not_lt,
    not_le] at hin
  obtain ⟨hle,hlt⟩ := hin
  have hcount : sec.toNat - secStart + 1 ≤ bufSize / secsize := by
    have hmod := Nat.mod_le (secStart + bufSize / secsize) (2 ^ 64)
    unfold qword at hlt
    omega
  have hend : (sec.toNat - secStart) * secsize + secsize ≤ bufSize := by
    calc (sec.toNat - secStart) * secsize + secsize = (sec.toNat - secStart + 1) * secsize := by ring
      _ ≤ bufSize / secsize * secsize := Nat.mul_le_mul_right _ hcount
      _ = bufSize := Nat.div_mul_cancel h
  refine ⟨hle,?_,hend⟩
  rw [qsub_of_le hle sec.toNat_lt,qword_of_lt]
  rw [bufSize_eq] at hend
  omega

end windows

section calls
variable {secsize : ℕ} {img : ℕ → UInt8} {p : ReadfatPrivate} {sec : UInt64} {r : Read}

theorem blocks_get (start : ℕ) {k : ℕ} (hk : k < bufSize) :
    (blocks img start)[k]?.getD 0 = img (start * isoBlockSize + k) := by
  simp [blocks,hk]

/-- The buffer holds the window. -/
def Holds (secsize : ℕ) (img : ℕ → UInt8) (p : ReadfatPrivate) : Prop :=
  ∀ k < bufSize, p.buf[k]?.getD 0 =
    img (p.lsn.toInt.toNat * isoBlockSize + p.secStart * secsize + k)

theorem readfat_inBuffer (h : secsize ∣ bufSize)
    (hin : inBuffer secsize p.secStart sec.toNat = true) :
    iso9660Readfat secsize img p sec r = (some (copy secsize p.buf p.secStart sec.toNat),p) := by
  rw [iso9660Readfat,if_neg (not_not_intro (Nat.mod_eq_zero_of_dvd h)),if_pos hin]

theorem readfat_full (h : secsize ∣ bufSize) (hin : inBuffer secsize p.secStart sec.toNat = false)
    (hstart : 0 ≤ (startBlock secsize p.lsn (windowStart secsize sec.toNat)).toInt) :
    iso9660Readfat secsize img p sec .full =
      (some (copy secsize (blocks img
          (startBlock secsize p.lsn (windowStart secsize sec.toNat)).toInt.toNat)
          (windowStart secsize sec.toNat) sec.toNat),
        ⟨p.lsn,windowStart secsize sec.toNat,blocks img
          (startBlock secsize p.lsn (windowStart secsize sec.toNat)).toInt.toNat⟩) := by
  rw [iso9660Readfat,if_neg (not_not_intro (Nat.mod_eq_zero_of_dvd h)),hin]
  simp [iso9660IsoSeekRead,not_lt.mpr hstart]

theorem readfat_refused (h : secsize ∣ bufSize)
    (hin : inBuffer secsize p.secStart sec.toNat = false)
    (hstart : (startBlock secsize p.lsn (windowStart secsize sec.toNat)).toInt < 0) :
    iso9660Readfat secsize img p sec r = (none,⟨p.lsn,windowStart secsize sec.toNat,p.buf⟩) := by
  rw [iso9660Readfat,if_neg (not_not_intro (Nat.mod_eq_zero_of_dvd h)),hin]
  simp [iso9660IsoSeekRead,hstart]

theorem readfat_short (h : secsize ∣ bufSize) (hin : inBuffer secsize p.secStart sec.toNat = false)
    (hstart : 0 ≤ (startBlock secsize p.lsn (windowStart secsize sec.toNat)).toInt) (left : Buffer) :
    iso9660Readfat secsize img p sec (.short left) =
      (none,⟨p.lsn,windowStart secsize sec.toNat,left⟩) := by
  rw [iso9660Readfat,if_neg (not_not_intro (Nat.mod_eq_zero_of_dvd h)),hin]
  simp [iso9660IsoSeekRead,not_lt.mpr hstart]

/-- A read that fails leaves the start of the window behind. -/
theorem readfat_fails (img : ℕ → UInt8) (h : secsize ∣ bufSize)
    (hin : inBuffer secsize p.secStart sec.toNat = false)
    (hr : (r.isFull && decide (0 ≤
      (startBlock secsize p.lsn (windowStart secsize sec.toNat)).toInt)) = false) :
    ∃ buf, iso9660Readfat secsize img p sec r =
      (none,⟨p.lsn,windowStart secsize sec.toNat,buf⟩) := by
  rcases Int.lt_or_le (startBlock secsize p.lsn (windowStart secsize sec.toNat)).toInt 0 with
    hstart | hstart
  · exact ⟨p.buf,readfat_refused h hin hstart⟩
  · cases r with
    | full => simp [Read.isFull,hstart] at hr
    | short left => exact ⟨left,readfat_short h hin hstart left⟩

theorem copy_holds (h : secsize ∣ bufSize) (hp : Holds secsize img p)
    (hin : inBuffer secsize p.secStart sec.toNat = true) :
    copy secsize p.buf p.secStart sec.toNat = fatBytes secsize img p.lsn sec.toNat := by
  obtain ⟨hle,hoff,hend⟩ := offset_inBuffer h hin
  refine List.map_congr_left fun k hk => ?_
  have hk' := List.mem_range.mp hk
  rw [hoff,hp _ (by omega)]
  congr 1
  have hmul : (sec.toNat - p.secStart) * secsize + p.secStart * secsize = sec.toNat * secsize := by
    rw [← Nat.add_mul,Nat.sub_add_cancel hle]
  omega

/-- The bytes delivered from blocks that have been read for the sector. -/
theorem copy_blocks (h : secsize ∣ bufSize) (start : ℕ) :
    copy secsize (blocks img start) (windowStart secsize sec.toNat) sec.toNat =
      (List.range secsize).map fun k =>
        img (start * isoBlockSize + (sec.toNat * secsize % isoBlockSize + k)) := by
  have hlt := offset_windowStart_lt h sec.toNat
  refine List.map_congr_left fun k hk => ?_
  have hk' := List.mem_range.mp hk
  rw [offset_windowStart h,blocks_get _ (by omega)]
  rfl

theorem blocks_holds (h : secsize ∣ bufSize) (hlsn : 0 ≤ p.lsn.toInt) {start : Int32}
    (hstart : start.toInt = p.lsn.toInt + (sec.toNat * secsize / isoBlockSize : ℕ)) :
    start.toInt.toNat * isoBlockSize =
      p.lsn.toInt.toNat * isoBlockSize + windowStart secsize sec.toNat * secsize := by
  have hlt := start.toInt_lt
  rw [isoBlockSize_eq] at hstart ⊢
  have hsmall : sec.toNat * secsize < 2 ^ 64 := by omega
  rw [windowStart_mul h,qword_of_lt hsmall]
  omega

theorem copy_blocks_exact (h : secsize ∣ bufSize) (hlsn : 0 ≤ p.lsn.toInt) {start : Int32}
    (hstart : start.toInt = p.lsn.toInt + (sec.toNat * secsize / isoBlockSize : ℕ)) :
    copy secsize (blocks img start.toInt.toNat) (windowStart secsize sec.toNat) sec.toNat =
      fatBytes secsize img p.lsn sec.toNat := by
  rw [copy_blocks h]
  refine List.map_congr_left fun k _ => congrArg img ?_
  rw [isoBlockSize_eq] at hstart ⊢
  omega

end calls

section runs
variable {secsize : ℕ} {img : ℕ → UInt8}

/-- What is known before a call: its sector and whether a read would succeed. -/
def plan (c : UInt64 × Read) : UInt64 × Bool := (c.1,c.2.isFull)

theorem exact_cons {lsn : Int32} {q : UInt64 × Option (List UInt8)}
    {results : List (UInt64 × Option (List UInt8))} :
    Exact secsize img lsn (q :: results) ↔
      (∀ data, q.2 = some data → data = fatBytes secsize img lsn q.1.toNat) ∧
        Exact secsize img lsn results :=
  List.forall_mem_cons

theorem fresh_inBuffer {lsn : Int32} {s : ℕ} {f : Bool} {sec : UInt64} {full : Bool}
    {rest : List (UInt64 × Bool)} (hin : inBuffer secsize s sec.toNat = true) :
    fresh secsize lsn s f ((sec,full) :: rest) = (f && fresh secsize lsn s f rest) := by
  rw [fresh,if_pos hin]

theorem fresh_outside {lsn : Int32} {s : ℕ} {f : Bool} {sec : UInt64} {full b : Bool}
    {rest : List (UInt64 × Bool)} (hin : inBuffer secsize s sec.toNat = false)
    (hb : (full && decide (0 ≤
      (startBlock secsize lsn (windowStart secsize sec.toNat)).toInt)) = b) :
    fresh secsize lsn s f ((sec,full) :: rest) =
      ((!b || decide ((startBlock secsize lsn (windowStart secsize sec.toNat)).toInt =
        lsn.toInt + (sec.toNat * secsize / isoBlockSize : ℕ))) &&
        fresh secsize lsn (windowStart secsize sec.toNat) b rest) := by
  rw [fresh,if_neg (by simp [hin])]
  simp only [hb]

/-- As long as the plan is fresh, the buffer of a read that succeeded holds its window. -/
theorem run_exact (h : secsize ∣ bufSize) (calls : List (UInt64 × Read)) (p : ReadfatPrivate)
    (f : Bool) (hlsn : 0 ≤ p.lsn.toInt) (hp : f = true → Holds secsize img p)
    (hf : fresh secsize p.lsn p.secStart f (calls.map plan) = true) :
    Exact secsize img p.lsn (run secsize img p calls) := by
  induction calls generalizing p f with
  | nil => intro q hq; cases hq
  | cons c calls ih =>
    obtain ⟨sec,r⟩ := c
    rw [List.map_cons,plan] at hf
    rw [run,exact_cons]
    cases hin : inBuffer secsize p.secStart sec.toNat with
    | true =>
      rw [fresh_inBuffer hin,Bool.and_eq_true] at hf
      obtain ⟨hfilled,hrest⟩ := hf
      rw [readfat_inBuffer h hin]
      refine ⟨fun data hdata => ?_,ih p f hlsn hp hrest⟩
      rw [← Option.some.inj hdata,copy_holds h (hp hfilled) hin]
    | false =>
      cases hr : r.isFull && decide (0 ≤
        (startBlock secsize p.lsn (windowStart secsize sec.toNat)).toInt) with
      | true =>
        rw [fresh_outside hin hr] at hf
        simp only [Bool.not_true,Bool.false_or,Bool.and_eq_true,decide_eq_true_eq] at hf hr
        obtain ⟨hblock,hrest⟩ := hf
        obtain ⟨hfull,hstart⟩ := hr
        obtain rfl : r = .full := by cases r <;> simp_all [Read.isFull]
        have hbase := blocks_holds h hlsn hblock
        rw [readfat_full h hin hstart]
        refine ⟨fun data hdata => ?_,ih ⟨_,_,_⟩ true hlsn (fun _ k hk => ?_) hrest⟩
        · rw [← Option.some.inj hdata,copy_blocks_exact h hlsn hblock]
        · rw [blocks_get _ hk,hbase]
      | false =>
        rw [fresh_outside hin hr] at hf
        simp only [Bool.not_false,Bool.true_or,Bool.true_and] at hf
        obtain ⟨buf,hbuf⟩ := readfat_fails img h hin hr
        rw [hbuf]
        refine ⟨fun data hdata => ?_,ih ⟨_,_,buf⟩ false hlsn (fun hfalse => ?_) hf⟩
        · cases hdata
        · cases hfalse

end runs

end SecureWipeOut.ReadFat
