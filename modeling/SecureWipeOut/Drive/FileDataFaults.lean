import SecureWipeOut.Drive.FileData
import SecureWipeOut.Drive.FileIO

/-! # Byte access to a drive that fails

A read that fails or comes up short only leaves a message and still counts as one when
any byte was transferred. What was not transferred is memory as it was allocated, which
`read_data` delivers and `write_data` writes back.
-/
namespace SecureWipeOut.FileData
open ByteStore CInt Sectors FileIO

/-- A drive whose calls take their answers from a sequence. A negative position is refused. -/
def faulty (env : ℕ → Answer) : Handle Drive where
  getFilePointer d :=
    (if (env d.calls).ok then some d.pos else none,{ d with calls := d.calls + 1 })
  setFilePointerEx li d :=
    if li < 2 ^ 63 then FileIO.setFilePointerEx env li d
    else (false,{ d with calls := d.calls + 1 })
  readFile n d :=
    let r := FileIO.readFile env n d
    (⟨r.ok,r.count,r.buf⟩,r.drive)
  writeFile buf n d :=
    let w := FileIO.writeFile env buf n d
    (⟨w.ok,w.count⟩,w.drive)
  cancelled d := (false,d)
  read_le _ _ := min_le_right _ _
  write_le _ _ _ := min_le_right _ _

/-- What a call reports: whether it succeeded and how many bytes it transferred. -/
structure Outcome where
  ok : Bool
  count : ℕ

/-- The answers with given outcomes. What else a call leaves is arbitrary: the bytes of a
transfer that is not complete and the file pointer behind it. -/
def answers (o : ℕ → Outcome) (junk : ℕ → ℕ → UInt8) (pos : ℕ → ℕ) (k : ℕ) : Answer :=
  ⟨(o k).ok,(o k).count,junk k,pos k,false⟩

section outcomes
variable (o : ℕ → Outcome)

/-- From call k on, the position is set and some byte of the sectors is read. -/
def Reads (bps addr len k : ℕ) : Prop :=
  Accepted bps addr len ∧ (o k).ok = true ∧ 0 < (o (k + 1)).count

/-- Byte i of the sectors is among those a successful read has transferred. -/
def Delivered (k i : ℕ) : Prop := (o (k + 1)).ok = true ∧ i < (o (k + 1)).count

/-- A write after which no other attempt is made. -/
def Ends (largeDrive : Bool) (n : ℕ) (a : Outcome) : Prop :=
  a.ok = true ∧ (n ≤ a.count ∨ largeDrive = true ∧ a.count = 0)

instance (largeDrive : Bool) (n : ℕ) (a : Outcome) : Decidable (Ends largeDrive n a) :=
  inferInstanceAs (Decidable (_ ∧ _))

/-- One of the attempts at call k and every second call after it writes everything, and
those before it were made and followed by a rewind. -/
def Attempted (largeDrive canRewind : Bool) (n left k : ℕ) : Prop :=
  ∃ j < left, (j = 0 ∨ canRewind = true) ∧ (o (k + 2 * j)).ok = true ∧
    n ≤ (o (k + 2 * j)).count ∧
    ∀ i < j, ¬ Ends largeDrive n (o (k + 2 * i)) ∧ (o (k + 2 * i + 1)).ok = true

/-- From call k on, n bytes are written: the position is set and read, and an attempt
succeeds. -/
def Written (largeDrive : Bool) (n k : ℕ) : Prop :=
  (o k).ok = true ∧ Attempted o largeDrive (o (k + 1)).ok n writeRetries (k + 2)

end outcomes

section seek
variable {env : ℕ → Answer} {li : ℕ} {d : Drive}

theorem faulty_seek (h : li < 2 ^ 63) (hok : (env d.calls).ok = true) :
    (faulty env).setFilePointerEx li d = (true,{ d with pos := li, calls := d.calls + 1 }) :=
  (if_pos h).trans (by simp [ FileIO.setFilePointerEx,hok])

theorem faulty_seek_fails (h : ¬ (li < 2 ^ 63 ∧ (env d.calls).ok = true)) :
    (faulty env).setFilePointerEx li d = (false,{ d with calls := d.calls + 1 }) := by
  by_cases hli : li < 2 ^ 63
  · have hok : (env d.calls).ok = false := by simpa using fun hok => h ⟨hli,hok⟩
    exact (if_pos hli).trans (by simp [ FileIO.setFilePointerEx,hok])
  · exact if_neg hli

end seek

section reads
variable {env : ℕ → Answer} {bps addr len : ℕ}

/-- What a read has left in the buffer: the bytes of the drive as far as it succeeded, and
behind them the memory as it was. -/
def fetched (env : ℕ → Answer) (bps addr len : ℕ) (mem : ℕ → UInt8) (d : Drive) : ℕ → UInt8 :=
  let a := env (d.calls + 1)
  overwrite mem 0 (min a.count (coverLen bps addr len)) fun i =>
    if a.ok && decide (i < min a.count (coverLen bps addr len)) then
      d.data (coverStart bps addr + i) else a.junk i

theorem readSectors_faulty {start size : ℕ} (hsize : size ≤ 0xFFFFFFFF) {d : Drive}
    (hstart : start < 2 ^ 63) (hok : (env d.calls).ok = true) :
    readSectors (faulty env) 1 start size d =
      (let r := FileIO.readFile env size { d with pos := start, calls := d.calls + 1 }
      (((r.count : ℤ),r.buf),r.drive)) := by
  rw [readSectors]
  simp only [Nat.mul_one]
  rw [if_neg (not_lt.mpr hsize),faulty_seek hstart hok]
  rfl

theorem readSectors_faulty_fails {start size : ℕ} (hsize : size ≤ 0xFFFFFFFF) {d : Drive}
    (h : ¬ (start < 2 ^ 63 ∧ (env d.calls).ok = true)) :
    readSectors (faulty env) 1 start size d =
      ((-1,fun _ => 0),{ d with calls := d.calls + 1 }) := by
  rw [readSectors]
  simp only [Nat.mul_one]
  rw [if_neg (not_lt.mpr hsize),faulty_seek_fails h]
  rfl

/-- Without a byte read the functions return 0, and the drive is as it was. -/
theorem fetch_faulty_none {o : ℕ → Outcome} (junk : ℕ → ℕ → UInt8) (pos : ℕ → ℕ) (hb : 0 < bps)
    (hb' : bps < 2 ^ 32) (hat : addr < 2 ^ 64) {d : Drive} (h : ¬ Reads o bps addr len d.calls)
    (mem : ℕ → UInt8) :
    (fetch (faulty (answers o junk pos)) bps addr len mem d).1 = none ∧
      (fetch (faulty (answers o junk pos)) bps addr len mem d).2.data = d.data := by
  have hcover := cover_bounds hb addr len
  rw [fetch]
  dsimp only
  split
  next => exact ⟨rfl,rfl⟩
  next hmax =>
    split
    next => exact ⟨rfl,rfl⟩
    next hlen =>
      have hstart : (sectorsOf bps addr len).1 * bps = coverStart bps addr := rfl
      have hqstart : qword (coverStart bps addr) = coverStart bps addr := qword_of_lt (by omega)
      have hsize : qword ((sectorsOf bps addr len).2 * bps) ≤ 0xFFFFFFFF := by
        unfold maxDataLen at hmax
        omega
      rw [readSectors64,hstart,hqstart]
      by_cases hseek : coverStart bps addr < 2 ^ 63 ∧ (answers o junk pos d.calls).ok = true
      · -- nothing wraps below the largest position
        obtain ⟨-,hsectors⟩ := sectorsOf_eq hb (show addr + len + bps < 2 ^ 64 by omega)
        have hlt : coverLen bps addr len < 2 ^ 64 := by
          have := ceilAlign_lt (addr + len) hb
          unfold coverLen
          omega
        rw [hsectors,qword_of_lt hlt] at hmax hsize ⊢
        rw [readSectors_faulty hsize hseek.1 hseek.2]
        have hzero : min (o (d.calls + 1)).count (coverLen bps addr len) = 0 := by
          by_contra hne
          have hpos := Nat.pos_of_ne_zero hne
          rw [lt_min_iff] at hpos
          exact h ⟨⟨hpos.2,not_lt.mp hmax,hseek.1⟩,hseek.2,hpos.1⟩
        have hcount : (( FileIO.readFile (answers o junk pos) (coverLen bps addr len)
            { d with pos := coverStart bps addr, calls := d.calls + 1 }).count : ℤ) ≤ 0 :=
          (congrArg Nat.cast hzero).le
        dsimp only
        rw [if_pos hcount]
        exact ⟨rfl,rfl⟩
      · rw [readSectors_faulty_fails hsize hseek,if_pos (by simp)]
        exact ⟨rfl,rfl⟩

theorem fetch_faulty_some {o : ℕ → Outcome} (junk : ℕ → ℕ → UInt8) (pos : ℕ → ℕ) (hb : 0 < bps)
    (hb' : bps < 2 ^ 32) {d : Drive} (h : Reads o bps addr len d.calls) (mem : ℕ → UInt8) :
    ∃ d' : Drive, fetch (faulty (answers o junk pos)) bps addr len mem d =
      (some (fetched (answers o junk pos) bps addr len mem d),d') ∧
        d'.data = d.data ∧ d'.calls = d.calls + 2 := by
  obtain ⟨⟨hpos,hmax,hstart⟩,hok,hcount⟩ := h
  have hcover := cover_bounds hb addr len
  unfold maxDataLen at hmax
  obtain ⟨h1,h2⟩ := sectorsOf_eq hb (show addr + len + bps < 2 ^ 64 by omega)
  have hq1 : qword (coverStart bps addr) = coverStart bps addr := qword_of_lt (by omega)
  have hq2 : qword (coverLen bps addr len) = coverLen bps addr len := qword_of_lt (by omega)
  rw [fetch]
  dsimp only
  rw [readSectors64,h1,h2,hq1,hq2,if_neg (by unfold maxDataLen; omega),if_neg (by omega),
    readSectors_faulty (by omega) hstart hok]
  refine ⟨( FileIO.readFile (answers o junk pos) (coverLen bps addr len)
    { d with pos := coverStart bps addr, calls := d.calls + 1 }).drive,?_,rfl,rfl⟩
  have hne : ¬ (( FileIO.readFile (answers o junk pos) (coverLen bps addr len)
      { d with pos := coverStart bps addr, calls := d.calls + 1 }).count : ℤ) ≤ 0 := by
    have hlt : 0 < min (o (d.calls + 1)).count (coverLen bps addr len) := lt_min hcount hpos
    change ¬ ((min (o (d.calls + 1)).count (coverLen bps addr len) : ℕ) : ℤ) ≤ 0
    omega
  dsimp only
  rw [if_neg hne,Int.toNat_natCast]
  rfl

theorem fetched_eq (o : ℕ → Outcome) (junk : ℕ → ℕ → UInt8) (pos : ℕ → ℕ) (mem : ℕ → UInt8)
    (d : Drive) : fetched (answers o junk pos) bps addr len mem d =
      overwrite mem 0 (min (o (d.calls + 1)).count (coverLen bps addr len)) fun i =>
        if (o (d.calls + 1)).ok &&
            decide (i < min (o (d.calls + 1)).count (coverLen bps addr len)) then
          d.data (coverStart bps addr + i) else junk (d.calls + 1) i := rfl

/-- Byte i of the buffer after a read, in terms of the outcome. -/
theorem fetched_answers (o : ℕ → Outcome) (junk : ℕ → ℕ → UInt8) (pos : ℕ → ℕ) (mem : ℕ → UInt8)
    (d : Drive) {i : ℕ} (hi : i < coverLen bps addr len) :
    fetched (answers o junk pos) bps addr len mem d i =
      if (o (d.calls + 1)).ok = true ∧ i < (o (d.calls + 1)).count then
        d.data (coverStart bps addr + i)
      else if i < (o (d.calls + 1)).count then junk (d.calls + 1) i else mem i := by
  rw [fetched_eq]
  by_cases hlt : i < (o (d.calls + 1)).count
  · have hmin : i < min (o (d.calls + 1)).count (coverLen bps addr len) := lt_min hlt hi
    rw [overwrite_inside _ _ (Nat.zero_le i) (by rw [Nat.zero_add]; exact hmin)]
    simp [hmin,hlt]
  · rw [overwrite_outside _ _ (by omega)]
    simp [hlt]

theorem fetched_delivered {o : ℕ → Outcome} {junk : ℕ → ℕ → UInt8} {pos : ℕ → ℕ}
    {mem : ℕ → UInt8} {d : Drive} {i : ℕ} (hi : i < coverLen bps addr len)
    (h : Delivered o d.calls i) :
    fetched (answers o junk pos) bps addr len mem d i = d.data (coverStart bps addr + i) := by
  rw [fetched_answers o junk pos mem d hi]
  exact if_pos h

/-- A byte that is not delivered may be any. -/
theorem fetched_undelivered {o : ℕ → Outcome} (pos : ℕ → ℕ) (mem : ℕ → UInt8) {d : Drive} {i : ℕ}
    (hi : i < coverLen bps addr len) (h : ¬ Delivered o d.calls i) :
    fetched (answers o (fun _ => mem) pos) bps addr len mem d i = mem i := by
  rw [fetched_answers o _ pos mem d hi]
  refine (if_neg h).trans ?_
  split <;> rfl

end reads

section writes
variable {largeDrive : Bool} {o : ℕ → Outcome} {junk : ℕ → ℕ → UInt8} {pos : ℕ → ℕ}
  {buf : ℕ → UInt8} {n place : ℕ}

/-- The attempt after a rewind is like the first one. -/
theorem writeTries_rewound (env : ℕ → Answer) (hplace : place < 2 ^ 63) (left written : ℕ)
    (d : Drive) :
    writeTries (faulty env) largeDrive buf n (some place) (left + 1) false written d =
      if (env d.calls).ok then
        writeTries (faulty env) largeDrive buf n (some place) (left + 1) true written
          { d with pos := place, calls := d.calls + 1 }
      else (⟨false,written⟩,{ d with calls := d.calls + 1 }) := by
  by_cases hok : (env d.calls).ok = true
  · rw [if_pos hok,writeTries,writeTries]
    simp only [Bool.false_eq_true,if_false,Option.getD_some,faulty_seek hplace hok]
    rfl
  · rw [if_neg hok,writeTries]
    simp only [Bool.false_eq_true,if_false,Option.getD_some]
    rw [faulty_seek_fails fun h => hok h.2]
    rfl

/-- The first attempt, and what follows it. -/
theorem writeTries_first (hn : 0 < n) (start : Option ℕ) (left written : ℕ) (d : Drive) :
    writeTries (faulty (answers o junk pos)) largeDrive buf n start (left + 1) true written d =
      (let w := FileIO.writeFile (answers o junk pos) buf n d
      if Ends largeDrive n (o d.calls) then (⟨w.ok,w.count⟩,w.drive)
      else if start.isNone then (⟨false,w.count⟩,w.drive)
      else writeTries (faulty (answers o junk pos)) largeDrive buf n start left false w.count
        w.drive) := by
  have hends : ((o d.calls).ok && (min (o d.calls).count n == n ||
      largeDrive && min (o d.calls).count n == 0)) = decide (Ends largeDrive n (o d.calls)) := by
    rw [Bool.eq_iff_iff,decide_eq_true_eq]
    simp only [Bool.and_eq_true,Bool.or_eq_true,beq_iff_eq,Ends,min_eq_right_iff]
    refine and_congr_right fun _ => or_congr_right (and_congr_right fun _ => ?_)
    omega
  rw [writeTries]
  simp only [if_true,Bool.not_true,Bool.false_eq_true,if_false]
  change (if ((o d.calls).ok && (min (o d.calls).count n == n ||
    largeDrive && min (o d.calls).count n == 0)) = true then _ else _) = _
  rw [hends]
  simp only [decide_eq_true_eq]
  rfl

theorem attempted_succ {canRewind : Bool} {left k : ℕ} :
    Attempted o largeDrive canRewind n (left + 1) k ↔
      ((o k).ok = true ∧ n ≤ (o k).count) ∨
        (¬ Ends largeDrive n (o k) ∧ canRewind = true ∧ (o (k + 1)).ok = true ∧
          Attempted o largeDrive canRewind n left (k + 2)) := by
  constructor
  · rintro ⟨j,hj,hrewind,hok,hcount,hbefore⟩
    cases j with
    | zero => exact Or.inl ⟨hok,hcount⟩
    | succ j =>
      obtain ⟨hends,hseek⟩ := hbefore 0 (by omega)
      have hrewind : canRewind = true := hrewind.resolve_left (by omega)
      refine Or.inr ⟨hends,hrewind,hseek,j,by omega,Or.inr hrewind,?_,?_,fun i hi => ?_⟩
      · rwa [show k + 2 + 2 * j = k + 2 * (j + 1) by omega]
      · rwa [show k + 2 + 2 * j = k + 2 * (j + 1) by omega]
      · rw [show k + 2 + 2 * i = k + 2 * (i + 1) by omega]
        exact hbefore (i + 1) (by omega)
  · rintro (⟨hok,hcount⟩ | ⟨hends,hrewind,hseek,j,hj,-,hok,hcount,hbefore⟩)
    · exact ⟨0,by omega,Or.inl rfl,hok,hcount,fun i hi => absurd hi (by omega)⟩
    · refine ⟨j + 1,by omega,Or.inr hrewind,?_,?_,fun i hi => ?_⟩
      · rwa [show k + 2 * (j + 1) = k + 2 + 2 * j by omega]
      · rwa [show k + 2 * (j + 1) = k + 2 + 2 * j by omega]
      · cases i with
        | zero => exact ⟨hends,hseek⟩
        | succ i =>
          rw [show k + 2 * (i + 1) = k + 2 + 2 * i by omega]
          exact hbefore i (by omega)

/-- When the attempts succeed, and what is on the drive then: each starts at the same
place, so that the last one covers what the others left. -/
theorem writeTries_answers (hn : 0 < n) (hplace : place < 2 ^ 63) {start : Option ℕ}
    (hstart : ∀ p, start = some p → p = place) (left written : ℕ) {d : Drive}
    (hpos : d.pos = place) :
    let r := writeTries (faulty (answers o junk pos)) largeDrive buf n start left true written d
    (r.1.ok = true ∧ r.1.count = n ↔ Attempted o largeDrive start.isSome n left d.calls) ∧
      (r.1.ok = true ∧ r.1.count = n → r.2.data = overwrite d.data place n buf) := by
  induction left generalizing written d with
  | zero =>
    refine ⟨⟨fun h => absurd h.1 (by simp [writeTries]),?_⟩,fun h => absurd h.1 (by simp [writeTries])⟩
    rintro ⟨j,hj,_⟩
    omega
  | succ left ih =>
    dsimp only
    rw [writeTries_first hn,attempted_succ]
    dsimp only
    have hdata : ( FileIO.writeFile (answers o junk pos) buf n d).drive.data = overwrite d.data d.pos n
        (if (o d.calls).ok && min (o d.calls).count n == n then buf else junk d.calls) := rfl
    by_cases hends : Ends largeDrive n (o d.calls)
    · rw [if_pos hends]
      change ((o d.calls).ok = true ∧ min (o d.calls).count n = n ↔ _) ∧
        ((o d.calls).ok = true ∧ min (o d.calls).count n = n → _)
      rw [min_eq_right_iff]
      refine ⟨⟨Or.inl,fun h => h.resolve_right fun h => h.1 hends⟩,fun h => ?_⟩
      rw [hdata,hpos,if_pos (by simp [h.1,h.2])]
    · rw [if_neg hends]
      have hfull : ¬ ((o d.calls).ok = true ∧ n ≤ (o d.calls).count) :=
        fun h => hends ⟨h.1,Or.inl h.2⟩
      cases start with
      | none => simp [hfull]
      | some p =>
        obtain rfl := hstart p rfl
        simp only [Option.isNone_some,Bool.false_eq_true,if_false,hfull,false_or,hends,
          not_false_eq_true,true_and,Option.isSome_some]
        cases left with
        | zero => simp [writeTries,Attempted]
        | succ left =>
          rw [writeTries_rewound _ hplace]
          change (_ ↔ (o (d.calls + 1)).ok = true ∧ _) ∧ _
          by_cases hseek : (o (d.calls + 1)).ok = true
          · have hok : (answers o junk pos
                ( FileIO.writeFile (answers o junk pos) buf n d).drive.calls).ok = true := hseek
            obtain ⟨hiff,hcovered⟩ := ih ( FileIO.writeFile (answers o junk pos) buf n d).count
              (d := { ( FileIO.writeFile (answers o junk pos) buf n d).drive with
                pos := p, calls := d.calls + 1 + 1 }) rfl
            rw [if_pos hok]
            refine ⟨hiff.trans (by simp [hseek]),fun h => ?_⟩
            refine (hcovered h).trans ?_
            rw [hdata,hpos,overwrite_overwrite]
          · have hok : (answers o junk pos
                ( FileIO.writeFile (answers o junk pos) buf n d).drive.calls).ok ≠ true := hseek
            rw [if_neg hok]
            simp [hseek]

theorem writeFileWithRetry_answers (hn : 0 < n) (hplace : place < 2 ^ 63) {d : Drive}
    (hpos : d.pos = place) :
    let r := writeFileWithRetry (faulty (answers o junk pos)) largeDrive buf n writeRetries d
    (r.1.ok = true ∧ r.1.count = n ↔
        Attempted o largeDrive (o d.calls).ok n writeRetries (d.calls + 1)) ∧
      (r.1.ok = true ∧ r.1.count = n → r.2.data = overwrite d.data place n buf) := by
  have hstart : ∀ p, (if (o d.calls).ok then some d.pos else none) = some p → p = place := by
    intro p hp
    cases h : (o d.calls).ok <;> simp_all
  have hsome : (if (o d.calls).ok then some d.pos else none).isSome = (o d.calls).ok := by
    cases (o d.calls).ok <;> rfl
  have htries := @writeTries_answers largeDrive o junk pos buf n place hn hplace _ hstart
    writeRetries n { d with calls := d.calls + 1 } hpos
  rw [hsome] at htries
  exact htries

theorem writeSectors_answers (hn : 0 < n) (hsize : n ≤ 0xFFFFFFFF) (hplace : place < 2 ^ 63)
    (d : Drive) :
    let w := writeSectors (faulty (answers o junk pos)) largeDrive 1 place n buf d
    (0 < w.1 ↔ Written o largeDrive n d.calls) ∧
      (0 < w.1 → w.2.data = overwrite d.data place n buf) := by
  dsimp only
  rw [writeSectors]
  simp only [Nat.mul_one]
  rw [if_neg (not_lt.mpr hsize)]
  by_cases hok : (o d.calls).ok = true
  · have hanswer : (answers o junk pos d.calls).ok = true := hok
    rw [faulty_seek hplace hanswer]
    have hretry := @writeFileWithRetry_answers largeDrive o junk pos buf n place hn hplace
      { d with pos := place, calls := d.calls + 1 } rfl
    simp only [Bool.not_true,Bool.false_eq_true,if_false] at hretry ⊢
    generalize writeFileWithRetry (faulty (answers o junk pos)) largeDrive buf n writeRetries
      { d with pos := place, calls := d.calls + 1 } = r at hretry ⊢
    obtain ⟨⟨rok,rcount⟩,r⟩ := r
    have hwritten : Written o largeDrive n d.calls ↔ rok = true ∧ rcount = n := by
      rw [Written,and_iff_right hok]
      exact hretry.1.symm
    rw [hwritten]
    cases rok with
    | false => simp
    | true =>
      by_cases hcount : rcount = n
      · subst hcount
        simpa [hn] using hretry.2
      · simp only [Bool.not_true,Bool.false_eq_true,if_false,ne_eq,hcount,not_false_eq_true,if_true,
          and_false,iff_false]
        split <;> simp
  · have hanswer : ¬ (place < 2 ^ 63 ∧ (answers o junk pos d.calls).ok = true) := fun h => hok h.2
    rw [faulty_seek_fails hanswer]
    simp [Written,hok]

end writes

section access
variable (largeDrive : Bool) {o : ℕ → Outcome} (junk : ℕ → ℕ → UInt8) (pos : ℕ → ℕ)
  {bps offset position len : ℕ} {pData : List UInt8} {d : Drive}

/-- The bytes of the drive in a range. -/
def held (d : Drive) (addr len : ℕ) : List UInt8 :=
  (List.range len).map fun i => d.data (addr + i)

theorem address_lt (position offset : ℕ) : qword (position + offset) < 2 ^ 64 :=
  Nat.mod_lt _ (by positivity)

theorem readData_reads (hb : 0 < bps) (hb' : bps < 2 ^ 32)
    (h : Reads o bps (qword (position + offset)) len d.calls) (mem : ℕ → UInt8) :
    ∃ d' : Drive, readData (faulty (answers o junk pos)) bps offset position len (some mem) d =
      (some ((List.range len).map fun i =>
        fetched (answers o junk pos) bps (qword (position + offset)) len mem d
          (qword (position + offset) - coverStart bps (qword (position + offset)) + i)),d') := by
  obtain ⟨d',hfetch,-,-⟩ := fetch_faulty_some junk pos hb hb' h mem
  have hoffset : qsub (qword (position + offset))
      (qword ((sectorsOf bps (qword (position + offset)) len).1 * bps)) =
      qword (position + offset) - coverStart bps (qword (position + offset)) :=
    qsub_coverStart hb (address_lt position offset)
  refine ⟨d',?_⟩
  rw [readData,hfetch,hoffset,Option.map_some]

theorem readData_none (hb : 0 < bps) (hb' : bps < 2 ^ 32)
    (h : ¬ Reads o bps (qword (position + offset)) len d.calls) (mem : Option (ℕ → UInt8)) :
    (readData (faulty (answers o junk pos)) bps offset position len mem d).1 = none := by
  cases mem with
  | none => rfl
  | some mem =>
    have hfetch := (fetch_faulty_none junk pos hb hb'
      (address_lt position offset) h mem).1
    rw [readData]
    dsimp only
    rw [hfetch,Option.map_none]

theorem writeData_none (hb : 0 < bps) (hb' : bps < 2 ^ 32)
    (h : ¬ Reads o bps (qword (position + offset)) pData.length d.calls)
    (mem : Option (ℕ → UInt8)) :
    (writeData (faulty (answers o junk pos)) largeDrive bps offset position pData mem d).1 =
      false := by
  cases mem with
  | none => rfl
  | some mem =>
    have hfetch := (fetch_faulty_none junk pos hb hb'
      (address_lt position offset) h mem).1
    rw [writeData]
    dsimp only
    generalize fetch (faulty (answers o junk pos)) bps (qword (position + offset)) pData.length mem
      d = r at hfetch ⊢
    obtain ⟨r,d'⟩ := r
    subst hfetch
    rfl

/-- The sectors are written back as they were fetched, with the data in its place. -/
theorem writeData_reads (hb : 0 < bps) (hb' : bps < 2 ^ 32)
    (h : Reads o bps (qword (position + offset)) pData.length d.calls) (mem : ℕ → UInt8) :
    let addr := qword (position + offset)
    let w := writeData (faulty (answers o junk pos)) largeDrive bps offset position pData (some mem) d
    (w.1 = true ↔ Written o largeDrive (coverLen bps addr pData.length) (d.calls + 2)) ∧
      (w.1 = true → w.2.data = overwrite d.data (coverStart bps addr)
        (coverLen bps addr pData.length)
        (overwrite (fetched (answers o junk pos) bps addr pData.length mem d)
          (addr - coverStart bps addr) pData.length fun i => pData.getD i 0)) := by
  have hat := address_lt position offset
  dsimp only
  rw [writeData]
  dsimp only
  generalize qword (position + offset) = addr at h hat
  obtain ⟨d',hfetch,hdata,hcalls⟩ := fetch_faulty_some junk pos hb hb' h mem
  obtain ⟨⟨hpos,hmax,hstart⟩,-,-⟩ := h
  have hcover := cover_bounds hb addr pData.length
  unfold maxDataLen at hmax
  obtain ⟨h1,h2⟩ := sectorsOf_eq hb (show addr + pData.length + bps < 2 ^ 64 by omega)
  have hq1 : qword (coverStart bps addr) = coverStart bps addr := qword_of_lt (by omega)
  have hq2 : qword (coverLen bps addr pData.length) = coverLen bps addr pData.length :=
    qword_of_lt (by omega)
  rw [hfetch]
  dsimp only
  rw [writeSectors64,h1,h2,hq1,hq2,qsub_of_le hcover.1 hat,decide_eq_true_eq,← hcalls,← hdata]
  exact writeSectors_answers hpos (by omega) hstart d'

end access

section exact
variable (largeDrive : Bool) (o : ℕ → Outcome) (bps offset position len : ℕ) (pData : List UInt8)
  (d : Drive)

/-- Whatever the memory allocated holds and the calls leave behind, what is delivered is
on the drive. -/
def ReadExact : Prop :=
  ∀ junk pos mem out,
    (readData (faulty (answers o junk pos)) bps offset position len mem d).1 = some out →
      out = held d (qword (position + offset)) len

def ContainsExact : Prop :=
  ∀ junk pos allocated mem,
    (containsData (faulty (answers o junk pos)) bps offset position pData allocated mem d).1 = true →
      pData = held d (qword (position + offset)) pData.length

/-- A write that succeeds has changed the range, and nothing else on the drive. -/
def WriteExact : Prop :=
  ∀ junk pos mem,
    (writeData (faulty (answers o junk pos)) largeDrive bps offset position pData mem d).1 = true →
      (writeData (faulty (answers o junk pos)) largeDrive bps offset position pData mem d).2.data =
        overwrite d.data (qword (position + offset)) pData.length fun i => pData.getD i 0

/-- The number of byte i of a range among those of the sectors that cover it. -/
def within (bps addr i : ℕ) : ℕ := addr - coverStart bps addr + i

end exact

section conditions
variable {largeDrive : Bool} {o : ℕ → Outcome} {bps offset position len : ℕ} {pData : List UInt8}
  {d : Drive}

theorem within_lt (hb : 0 < bps) {addr i : ℕ} (hi : i < len) :
    within bps addr i < coverLen bps addr len := by
  have hcover := cover_bounds hb addr len
  unfold within
  omega

theorem coverStart_within (hb : 0 < bps) (addr i : ℕ) :
    coverStart bps addr + within bps addr i = addr + i := by
  have hcover := cover_bounds hb addr 0
  unfold within
  omega

theorem add_one_ne (b : UInt8) : b + 1 ≠ b := by
  intro h
  have hnat := congrArg UInt8.toNat h
  rw [UInt8.toNat_add] at hnat
  have hlt := b.toNat_lt
  have hone : (1 : UInt8).toNat = 1 := rfl
  omega

theorem readExact_iff (hb : 0 < bps) (hb' : bps < 2 ^ 32) :
    ReadExact o bps offset position len d ↔
      (Reads o bps (qword (position + offset)) len d.calls →
        ∀ i < len, Delivered o d.calls (within bps (qword (position + offset)) i)) := by
  constructor
  · intro hexact hreads i hi
    by_contra hnot
    -- the memory holds nothing of what is on the drive
    let mem : ℕ → UInt8 := fun j => d.data (coverStart bps (qword (position + offset)) + j) + 1
    obtain ⟨d',hread⟩ := readData_reads (fun _ => mem) (fun _ => 0) hb hb' hreads mem
    have hout := hexact (fun _ => mem) (fun _ => 0) (some mem) _ (congrArg Prod.fst hread)
    rw [held,List.map_inj_left] at hout
    have hbyte := hout i (List.mem_range.mpr hi)
    have hmem := fetched_undelivered (fun _ => 0) mem (within_lt hb hi) hnot
    refine add_one_ne (d.data (qword (position + offset) + i)) (Eq.trans ?_ (hmem.symm.trans hbyte))
    rw [← coverStart_within hb]
  · intro hcond junk pos mem out hout
    by_cases hreads : Reads o bps (qword (position + offset)) len d.calls
    · cases mem with
      | none => simp [readData] at hout
      | some mem =>
        obtain ⟨d',hread⟩ := readData_reads junk pos hb hb' hreads mem
        rw [hread,Option.some_inj] at hout
        subst hout
        refine List.map_congr_left fun i hi => ?_
        have hi := List.mem_range.mp hi
        refine (fetched_delivered (within_lt hb hi) (hcond hreads i hi)).trans ?_
        rw [coverStart_within hb]
    · rw [readData_none junk pos hb hb' hreads] at hout
      cases hout

theorem containsExact_iff (hb : 0 < bps) (hb' : bps < 2 ^ 32) :
    ContainsExact o bps offset position pData d ↔
      (Reads o bps (qword (position + offset)) pData.length d.calls →
        pData = held d (qword (position + offset)) pData.length ∨
        ∃ i < pData.length, Delivered o d.calls (within bps (qword (position + offset)) i) ∧
          d.data (qword (position + offset) + i) ≠ pData.getD i 0) := by
  constructor
  · intro hexact hreads
    by_contra hnot
    rw [not_or] at hnot
    have hagree : ∀ i < pData.length,
        Delivered o d.calls (within bps (qword (position + offset)) i) →
          d.data (qword (position + offset) + i) = pData.getD i 0 :=
      fun i hi hdelivered => by_contra fun hne => hnot.2 ⟨i,hi,hdelivered,hne⟩
    -- the memory holds the data already
    let mem : ℕ → UInt8 := fun j => pData.getD
      (j - (qword (position + offset) - coverStart bps (qword (position + offset)))) 0
    obtain ⟨d',hread⟩ := readData_reads (fun _ => mem) (fun _ => 0) hb hb' hreads mem
    refine hnot.1 (hexact (fun _ => mem) (fun _ => 0) true (some mem) ?_)
    rw [containsData,hread]
    refine decide_eq_true (List.ext_getElem (by simp) fun i hi hi' => ?_)
    rw [List.getElem_map,List.getElem_range,← List.getD_eq_getElem _ 0]
    by_cases hdelivered : Delivered o d.calls (within bps (qword (position + offset)) i)
    · rw [← hagree i hi hdelivered,← coverStart_within hb]
      exact (fetched_delivered (within_lt hb hi) hdelivered).symm
    · refine Eq.trans ?_ (fetched_undelivered (fun _ => 0) mem (within_lt hb hi) hdelivered).symm
      rw [within]
      exact congrArg (fun j => pData.getD j 0) (by omega)
  · intro hcond junk pos allocated mem htrue
    cases allocated with
    | false => simp [containsData] at htrue
    | true =>
      by_cases hreads : Reads o bps (qword (position + offset)) pData.length d.calls
      · cases mem with
        | none => simp [containsData,readData] at htrue
        | some mem =>
          obtain ⟨d',hread⟩ := readData_reads junk pos hb hb' hreads mem
          rw [containsData,hread] at htrue
          have hdata := of_decide_eq_true htrue
          rcases hcond hreads with hheld | ⟨i,hi,hdelivered,hne⟩
          · exact hheld
          · refine absurd ?_ hne
            have hbyte := congrArg (fun l : List UInt8 => l[i]?) hdata
            simp only [List.getElem?_map,List.getElem?_range hi,Option.map_some,
              List.getElem?_eq_getElem hi,Option.some_inj] at hbyte
            rw [List.getD_eq_getElem _ _ hi,hbyte,← coverStart_within hb]
            exact (fetched_delivered (within_lt hb hi) hdelivered).symm
      · have hnone := readData_none junk pos hb hb' hreads mem
        simp only [containsData,Bool.not_true,Bool.false_eq_true,if_false] at htrue
        generalize readData (faulty (answers o junk pos)) bps offset position pData.length mem d = r
          at hnone htrue
        obtain ⟨r,d'⟩ := r
        subst hnone
        cases htrue

/-- The bytes of the sectors around a range. -/
def Around (bps addr len i : ℕ) : Prop :=
  i < coverLen bps addr len ∧ ∀ j < len, i ≠ within bps addr j

theorem Around.outside {bps addr len i : ℕ} (h : Around bps addr len i) :
    i < addr - coverStart bps addr ∨ addr - coverStart bps addr + len ≤ i := by
  by_contra hin
  refine h.2 (i - (addr - coverStart bps addr)) (by omega) ?_
  unfold within
  omega

theorem writeExact_iff (hb : 0 < bps) (hb' : bps < 2 ^ 32) :
    WriteExact largeDrive o bps offset position pData d ↔
      (Reads o bps (qword (position + offset)) pData.length d.calls →
        Written o largeDrive (coverLen bps (qword (position + offset)) pData.length) (d.calls + 2) →
        ∀ i, Around bps (qword (position + offset)) pData.length i → Delivered o d.calls i) := by
  have hcover := cover_bounds hb (qword (position + offset)) pData.length
  constructor
  · intro hexact hreads hwritten i hi
    by_contra hnot
    let mem : ℕ → UInt8 := fun j => d.data (coverStart bps (qword (position + offset)) + j) + 1
    obtain ⟨hiff,hdata⟩ :=
      writeData_reads largeDrive (fun _ => mem) (fun _ => 0) hb hb' hreads mem
    have htrue := hiff.mpr hwritten
    have hsame := (hdata htrue).symm.trans (hexact (fun _ => mem) (fun _ => 0) (some mem) htrue)
    have hbyte := congrFun hsame (coverStart bps (qword (position + offset)) + i)
    have hout := hi.outside
    have hlt := hi.1
    rw [overwrite_inside _ _ (by omega) (by omega),Nat.add_sub_cancel_left,
      overwrite_outside _ _ (by omega),overwrite_outside _ _ (by omega),
      fetched_undelivered (fun _ => 0) mem hi.1 hnot] at hbyte
    exact add_one_ne _ hbyte
  · intro hcond junk pos mem htrue
    by_cases hreads : Reads o bps (qword (position + offset)) pData.length d.calls
    · cases mem with
      | none => simp [writeData] at htrue
      | some mem =>
        obtain ⟨hiff,hdata⟩ := writeData_reads largeDrive junk pos hb hb' hreads mem
        have haround := hcond hreads (hiff.mp htrue)
        rw [hdata htrue]
        funext x
        by_cases hx : coverStart bps (qword (position + offset)) ≤ x ∧
            x < coverStart bps (qword (position + offset)) +
              coverLen bps (qword (position + offset)) pData.length
        · obtain ⟨i,rfl⟩ := Nat.exists_eq_add_of_le hx.1
          rw [overwrite_inside _ _ hx.1 hx.2,Nat.add_sub_cancel_left]
          by_cases hi : ∃ j < pData.length, i = within bps (qword (position + offset)) j
          · obtain ⟨j,hj,rfl⟩ := hi
            rw [coverStart_within hb,overwrite_inside _ _ (by unfold within; omega)
              (by unfold within; omega),overwrite_inside _ _ (by omega) (by omega)]
            unfold within
            exact congrArg (fun k => pData.getD k 0) (by omega)
          · have hi' : Around bps (qword (position + offset)) pData.length i :=
              ⟨by omega,fun j hj h => hi ⟨j,hj,h⟩⟩
            have hout := hi'.outside
            rw [overwrite_outside _ _ hout,overwrite_outside _ _ (by omega)]
            exact fetched_delivered hi'.1 (haround i hi')
        · rw [overwrite_outside _ _ (by omega),overwrite_outside _ _ (by omega)]
    · rw [writeData_none largeDrive junk pos hb hb' hreads] at htrue
      cases htrue

variable (largeDrive o offset position len pData d) in
/-- What the three functions report is true exactly when what they use of the sectors has
been transferred: to read, the range; to compare, a byte that differs, if the data is not
on the drive; to write, the bytes around the range, if a write succeeds. -/
theorem fileData_exact_iff (hb : 0 < bps) (hb' : bps < 2 ^ 32) :
    (ReadExact o bps offset position len d ↔
      (Reads o bps (qword (position + offset)) len d.calls →
        ∀ i < len, Delivered o d.calls (within bps (qword (position + offset)) i))) ∧
    (ContainsExact o bps offset position pData d ↔
      (Reads o bps (qword (position + offset)) pData.length d.calls →
        pData = held d (qword (position + offset)) pData.length ∨
        ∃ i < pData.length, Delivered o d.calls (within bps (qword (position + offset)) i) ∧
          d.data (qword (position + offset) + i) ≠ pData.getD i 0)) ∧
    (WriteExact largeDrive o bps offset position pData d ↔
      (Reads o bps (qword (position + offset)) pData.length d.calls →
        Written o largeDrive (coverLen bps (qword (position + offset)) pData.length) (d.calls + 2) →
        ∀ i, Around bps (qword (position + offset)) pData.length i → Delivered o d.calls i)) :=
  ⟨readExact_iff hb hb',containsExact_iff hb hb',writeExact_iff hb hb'⟩

end conditions

/-- Every call succeeds, but the second one transfers a single sector of two. -/
def shortRead (k : ℕ) : Outcome := if k = 1 then ⟨true,512⟩ else ⟨true,1024⟩

def zeros : Drive := ⟨fun _ => 0,0,0,[]⟩

/-- Within the sector that was read. -/
theorem fileData_exact_sector :
    ReadExact shortRead 512 0 510 2 zeros ∧ WriteExact false shortRead 512 0 510 [1,2] zeros := by
  have hb : 0 < 512 := by decide
  have hb' : 512 < 2 ^ 32 := by decide
  have hexact := fileData_exact_iff false shortRead 0 510 2 [1,2] zeros hb hb'
  refine ⟨hexact.1.mpr fun _ i hi => ⟨rfl,?_⟩,hexact.2.2.mpr fun _ _ i hi => ⟨rfl,hi.1⟩⟩
  interval_cases i <;> decide

/-- Two bytes across the end of the sector that was read. -/
theorem fileData_short :
    ¬ ReadExact shortRead 512 0 511 2 zeros ∧
      ¬ ContainsExact shortRead 512 0 511 [0,1] zeros ∧
      ¬ WriteExact false shortRead 512 0 511 [1,2] zeros := by
  refine ⟨fun h => ?_,fun h => ?_,fun h => ?_⟩
  · have hout := h (fun _ _ => 1) (fun _ => 0) (some fun _ => 1) [0,1] (by decide +kernel)
    revert hout
    decide +kernel
  · have hdata := h (fun _ _ => 1) (fun _ => 0) true (some fun _ => 1) (by decide +kernel)
    revert hdata
    decide +kernel
  · have hdata := h (fun _ _ => 1) (fun _ => 0) (some fun _ => 1) (by decide +kernel)
    have hbyte := congrFun hdata 600
    revert hbyte
    decide +kernel

end SecureWipeOut.FileData
