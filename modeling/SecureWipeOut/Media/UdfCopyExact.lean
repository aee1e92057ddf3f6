import Mathlib.Algebra.BigOperators.Group.Finset.Basic
import SecureWipeOut.Media.UdfCopy

/-! # When the UDF copies end

What is left of the declared length shrinks by what the reader delivers and by nothing
else. The loops end with everything copied exactly when the amounts delivered reach the
declared length, as long as that length and its sums are what they stand for.
-/
namespace SecureWipeOut.UdfCopy
open ByteStore CInt FileIO Loop

section retried
variable {env : ℕ → Answer} {largeDrive : Bool} {buf : ℕ → UInt8} {n : ℕ} {d : Drive}

theorem writeFileRetried_eq (env : ℕ → Answer) (largeDrive : Bool) (buf : ℕ → UInt8) (n : ℕ)
    (d : Drive) : writeFileWithRetry env largeDrive buf n writeRetries 5 d =
      some (writeFileRetried env largeDrive buf n d) ∧
    WritesExactly buf n writeRetries d (writeFileRetried env largeDrive buf n d) := by
  have hlimit : ¬ Overruns env largeDrive n writeRetries d := fun h => absurd h.1 (by decide)
  obtain ⟨r,hr,hexact⟩ := writeFileWithRetry_of_not_overruns buf hlimit
  have hr5 : writeFileWithRetry env largeDrive buf n writeRetries 5 d = some r := hr
  rw [writeFileRetried,hr5]
  exact ⟨rfl,hexact⟩

theorem writeFileRetried_first
    (h : accepted largeDrive n (env (d.calls + 1)).ok (min (env (d.calls + 1)).count n) = true) :
    writeFileRetried env largeDrive buf n d =
      ⟨true,min (env (d.calls + 1)).count n,
        (writeFile env buf n (readFilePointer env d).drive).drive⟩ :=
  Option.some.inj ((writeFileRetried_eq env largeDrive buf n d).1.symm.trans
    (writeFileWithRetry_first h))

end retried

/-- The bytes that k reads of at most cap bytes deliver. -/
def delivered (cap : ℕ) (sizes : ℕ → ℕ) (k : ℕ) : ℕ := ∑ i ∈ Finset.range k, min (sizes i) cap

theorem delivered_succ (cap : ℕ) (sizes : ℕ → ℕ) (k : ℕ) :
    delivered cap sizes (k + 1) = delivered cap sizes k + min (sizes k) cap :=
  Finset.sum_range_succ _ k

/-- The results of reads that never fail. -/
def results (sizes : ℕ → ℕ) : ℕ → ℤ := fun k => (sizes k : ℤ)

section rounds
variable {cap : ℕ} {sizes : ℕ → ℕ} {declared k : ℕ} {s : Copy} {image buf : ℕ → UInt8}

/-- What is left of the declared length after k rounds. -/
structure Progress (cap : ℕ) (sizes : ℕ → ℕ) (declared k : ℕ) (s : Copy) : Prop where
  fileLength : s.fileLength = ((declared - delivered cap sizes k : ℕ) : ℤ)
  calls : s.reader.calls = k

/-- All that was written so far is a beginning of the file. -/
structure WrittenPart (cap : ℕ) (sizes : ℕ → ℕ) (image : ℕ → UInt8) (declared k : ℕ) (s : Copy) : Prop
    extends Progress cap sizes declared k s where
  position : delivered cap sizes k < declared → s.reader.position = delivered cap sizes k
  written : s.drive.pos = min declared (delivered cap sizes k)
  data : ∀ i < min declared (delivered cap sizes k), s.drive.data i = image i
  inOrder : InOrder s.reader.ranges s.reader.position

/-- As many blocks are asked for as the buffer takes, or enough for what is left. -/
structure Asks (cap remaining count : ℕ) : Prop where
  le : count * udfBlockSize ≤ cap
  enough : min cap remaining ≤ count * udfBlockSize
  lt : cap < 2 ^ 32

/-- The bytes that the next read delivers. -/
def part (sizes : ℕ → ℕ) (k count : ℕ) : ℕ := min (sizes k) (count * udfBlockSize)

/-- The size of the next write. -/
def chunk (sizes : ℕ → ℕ) (remaining k count : ℕ) : ℕ := min remaining (part sizes k count)

theorem Progress.read (h : Progress cap sizes declared k s) (count : ℕ) :
    udfReadBlock (results sizes) image buf count s.reader =
      ⟨part sizes k count,
        overwrite buf 0 (part sizes k count) fun i => image (s.reader.position + i),
        ⟨s.reader.position + part sizes k count,k + 1,
          s.reader.ranges ++ [(s.reader.position,part sizes k count)]⟩⟩ := by
  have hmin : min (results sizes k) ((count * udfBlockSize : ℕ) : ℤ) = (part sizes k count : ℤ) := by
    rw [results,part]
    omega
  simp only [udfReadBlock,h.calls,hmin,Int.toNat_natCast]

theorem Progress.bufSize (h : Progress cap sizes declared k s) {count : ℕ}
    (hask : Asks cap (declared - delivered cap sizes k) count) :
    dword (min s.fileLength (udfReadBlock (results sizes) image buf count s.reader).result).toNat =
      chunk sizes (declared - delivered cap sizes k) k count := by
  obtain ⟨hle,-,hlt⟩ := hask
  have hmin : (min s.fileLength (part sizes k count)).toNat =
      chunk sizes (declared - delivered cap sizes k) k count := by
    rw [h.fileLength,chunk,part]
    omega
  rw [h.read,hmin,dword_of_lt]
  rw [chunk,part]
  omega

theorem Progress.next (image buf : ℕ → UInt8) (h : Progress cap sizes declared k s) {count : ℕ}
    (hask : Asks cap (declared - delivered cap sizes k) count) {s' : Copy}
    (hlen : s'.fileLength =
      s.fileLength - (chunk sizes (declared - delivered cap sizes k) k count : ℕ))
    (hreader : s'.reader = (udfReadBlock (results sizes) image buf count s.reader).reader) :
    Progress cap sizes declared (k + 1) s' := by
  obtain ⟨hle,henough,-⟩ := hask
  refine ⟨?_,?_⟩
  · rw [hlen,h.fileLength,delivered_succ,chunk,part]
    omega
  · rw [hreader,h.read]

/-- A write of the next bytes in full. -/
theorem WrittenPart.next (h : WrittenPart cap sizes image declared k s) {count m : ℕ}
    (hlt : delivered cap sizes k < declared)
    (hask : Asks cap (declared - delivered cap sizes k) count)
    (hm : m = chunk sizes (declared - delivered cap sizes k) k count) {w : RetryResult} {s' : Copy}
    (hw : WritesExactly (udfReadBlock (results sizes) image buf count s.reader).buf m writeRetries
      s.drive w) (hok : w.ok = true) (hn : w.written = m)
    (hlen : s'.fileLength = s.fileLength - (m : ℕ))
    (hreader : s'.reader = (udfReadBlock (results sizes) image buf count s.reader).reader)
    (hdrive : s'.drive = w.drive) : WrittenPart cap sizes image declared (k + 1) s' := by
  have hprogress := h.toProgress.next image buf hask (hm ▸ hlen) hreader
  obtain ⟨hle,henough,-⟩ := hask
  obtain ⟨hdata,hpos⟩ := hw.complete hok hn
  have hpart : part sizes k count = min (sizes k) (count * udfBlockSize) := rfl
  rw [chunk] at hm
  have hwritten : s.drive.pos = delivered cap sizes k := by
    rw [h.written]
    omega
  have hposition := h.position hlt
  have hnext : min declared (delivered cap sizes (k + 1)) = delivered cap sizes k + m := by
    rw [delivered_succ]
    omega
  rw [h.toProgress.read] at hreader hdata
  refine ⟨hprogress,?_,?_,?_,?_⟩
  · intro hlt'
    rw [delivered_succ] at hlt' ⊢
    rw [hreader]
    simp only [hposition]
    omega
  · rw [hdrive,hpos,hnext,hwritten]
  · intro i hi
    rw [hnext] at hi
    rw [hdrive]
    rcases Nat.lt_or_ge i (delivered cap sizes k) with hlow | hhigh
    · rw [hw.outside i (Or.inl (hwritten ▸ hlow))]
      exact h.data i (by omega)
    · rw [hdata i (by omega) (by omega)]
      refine (overwrite_inside _ (fun i => image (s.reader.position + i)) (Nat.zero_le _) ?_).trans
        (congrArg image ?_)
      · omega
      · omega
  · rw [hreader]
    exact h.inOrder.snoc _

theorem delivered_mono (cap : ℕ) (sizes : ℕ → ℕ) : Monotone (delivered cap sizes) :=
  monotone_nat_of_le_succ fun k => by
    rw [delivered_succ]
    exact Nat.le_add_right _ _

theorem WrittenPart.copied (h : WrittenPart cap sizes image declared k s) (hlen : s.fileLength ≤ 0) :
    Copied image declared s := by
  have hle : declared ≤ delivered cap sizes k := by
    have := h.fileLength
    omega
  have hmin := Nat.min_eq_left hle
  exact ⟨hmin ▸ h.written,hmin ▸ h.data,h.inOrder⟩

theorem progress_start {declared : UInt64} (h : declared.toNat < 2 ^ 63) (d : Drive) :
    Progress cap sizes declared.toNat 0 (start declared buf d) :=
  ⟨by simp only [start,int64,if_pos h,delivered,Finset.sum_range_zero,Nat.sub_zero],rfl⟩

theorem writtenPart_start {declared : UInt64} (h : declared.toNat < 2 ^ 63) {d : Drive}
    (hd : d.pos = 0) : WrittenPart cap sizes image declared.toNat 0 (start declared buf d) where
  toProgress := progress_start h d
  position _ := by simp [start,delivered]
  written := by simp [start,delivered,hd]
  data i hi := by simp [delivered] at hi
  inOrder := .nil

end rounds

section runs
variable {cap : ℕ} {sizes : ℕ → ℕ} {declared : UInt64}
variable {step : (ℕ → Answer) → (ℕ → UInt8) → Copy → Copy ⊕ Left}

/-- The loop ends where the amounts delivered reach the declared length, if not before. -/
theorem copiesAll_of_delivered (hsign : declared.toNat < 2 ^ 63)
    (hdone : ∀ env image s, s.fileLength ≤ 0 → step env image s = .inr ⟨.copied,s⟩)
    (hstep : ∀ env image k s, WrittenPart cap sizes image declared.toNat k s →
      delivered cap sizes k < declared.toNat →
        (∃ l, step env image s = .inr l ∧ l.ending = .failed) ∨
        ∃ s', step env image s = .inl s' ∧ WrittenPart cap sizes image declared.toNat (k + 1) s')
    {last : ℕ} (hlast : declared.toNat ≤ delivered cap sizes last) : CopiesAll step declared := by
  intro env image buf d hd
  let I : Copy → Prop := fun s => ∃ k, WrittenPart cap sizes image declared.toNat k s
  have hstart : I (start declared buf d) := ⟨0,writtenPart_start hsign hd⟩
  have hgoes : ∀ s k, WrittenPart cap sizes image declared.toNat k s →
      (s.fileLength ≤ 0 ∧ step env image s = .inr ⟨.copied,s⟩) ∨
      (∃ l, step env image s = .inr l ∧ l.ending = .failed) ∨
      ∃ s', step env image s = .inl s' ∧ WrittenPart cap sizes image declared.toNat (k + 1) s' ∧
        k < last := by
    intro s k hs
    rcases Nat.lt_or_ge (delivered cap sizes k) declared.toNat with hlt | hge
    · refine Or.inr ((hstep env image k s hs hlt).imp_right ?_)
      rintro ⟨s',hst,hs'⟩
      refine ⟨s',hst,hs',?_⟩
      by_contra hle
      exact absurd (hlast.trans (delivered_mono cap sizes (Nat.le_of_not_lt hle))) (by omega)
    · have hlen : s.fileLength ≤ 0 := by
        have := hs.fileLength
        omega
      exact Or.inl ⟨hlen,hdone env image s hlen⟩
  have hnext : ∀ s s', I s → step env image s = .inl s' →
      I s' ∧ last - s'.reader.calls < last - s.reader.calls := by
    rintro s s' ⟨k,hs⟩ hst
    rcases hgoes s k hs with ⟨-,h⟩ | ⟨l,h,-⟩ | ⟨t,h,ht,hk⟩
    · exact absurd (hst.symm.trans h) Sum.inl_ne_inr
    · exact absurd (hst.symm.trans h) Sum.inl_ne_inr
    · obtain rfl := Sum.inl.inj (hst.symm.trans h)
      refine ⟨⟨k + 1,ht⟩,?_⟩
      rw [hs.calls,ht.calls]
      omega
  have hexit : ∀ s l, I s → step env image s = .inr l →
      l.ending ≠ .overflow ∧ (l.ending = .copied → Copied image declared.toNat l.state) := by
    rintro s l ⟨k,hs⟩ hst
    rcases hgoes s k hs with ⟨hlen,h⟩ | ⟨l',h,hfailed⟩ | ⟨t,h,-⟩
    · obtain rfl := Sum.inr.inj (hst.symm.trans h)
      exact ⟨Ending.noConfusion,fun _ => hs.copied hlen⟩
    · obtain rfl := Sum.inr.inj (hst.symm.trans h)
      rw [hfailed]
      exact ⟨by decide,fun h => absurd h (by decide)⟩
    · exact absurd (h.symm.trans hst) Sum.inl_ne_inr
  obtain ⟨l,hl⟩ := run_terminates (fun s => last - s.reader.calls) hnext hstart (Nat.lt_succ_self _)
  exact ⟨_,l,hl,run_rule (fun s s' hs h => (hnext s s' hs h).1) hexit hstart hl⟩

/-- It never ends when they do not. -/
theorem exists_delivered_of_copiesAll (hsign : declared.toNat < 2 ^ 63) (env : ℕ → Answer)
    (image : ℕ → UInt8)
    (hstep : ∀ k s, Progress cap sizes declared.toNat k s → delivered cap sizes k < declared.toNat →
      ∃ s', step env image s = .inl s' ∧ Progress cap sizes declared.toNat (k + 1) s')
    (h : CopiesAll step declared) : ∃ k, declared.toNat ≤ delivered cap sizes k := by
  by_contra hnot
  obtain ⟨fuel,l,hl,-⟩ := h env image (fun _ => 0) ⟨fun _ => 0,0,0,[]⟩ rfl
  have hgoes : ∀ s, (∃ k, Progress cap sizes declared.toNat k s) →
      ∃ s', step env image s = .inl s' ∧ ∃ k, Progress cap sizes declared.toNat k s' := by
    rintro s ⟨k,hs⟩
    obtain ⟨s',hst,hs'⟩ := hstep k s hs (Nat.lt_of_not_le fun hle => hnot ⟨k,hle⟩)
    exact ⟨s',hst,k + 1,hs'⟩
  rw [run_eq_none hgoes fuel ⟨0,progress_start hsign _⟩] at hl
  cases hl

end runs

section loops
variable {env : ℕ → Answer} {largeDrive : Bool} {sizes : ℕ → ℕ} {image : ℕ → UInt8}
variable {declared k : ℕ} {s : Copy}

/-- The number of blocks that udf_extract_files asks for. -/
theorem asks_udfExtractFiles (hlt : delivered isoBufferSize sizes k < declared)
    (h : Progress isoBufferSize sizes declared k s) :
    Asks isoBufferSize (declared - delivered isoBufferSize sizes k)
      (min ((isoBufferSize / udfBlockSize : ℕ) : ℤ)
        ((s.fileLength + udfBlockSize - 1) / udfBlockSize)).toNat := by
  have hmost : ((isoBufferSize / udfBlockSize : ℕ) : ℤ) = 32 := rfl
  have hblock : ((udfBlockSize : ℕ) : ℤ) = 2048 := rfl
  rw [h.fileLength,hmost,hblock]
  generalize hrem : declared - delivered isoBufferSize sizes k = rem
  have hpos : 0 < rem := by omega
  have hbuf : isoBufferSize = 65536 := rfl
  have hblock' : udfBlockSize = 2048 := rfl
  refine ⟨?_,?_,by decide⟩
  · rw [hbuf,hblock']
    omega
  · rw [hbuf,hblock']
    omega

theorem asks_extractISOFile (remaining : ℕ) : Asks udfBlockSize remaining 1 :=
  ⟨Nat.le_of_eq (Nat.one_mul _),(min_le_left _ _).trans (Nat.le_of_eq (Nat.one_mul _).symm),by decide⟩

theorem Progress.result_nonneg {cap : ℕ} (h : Progress cap sizes declared k s) (buf : ℕ → UInt8)
    (count : ℕ) : ¬ (udfReadBlock (results sizes) image buf count s.reader).result < 0 := by
  rw [h.read]
  exact not_lt.mpr (Int.natCast_nonneg _)

/-- A round of udf_extract_files, with what it makes of the read. -/
theorem udfExtractFilesStep_eq (env : ℕ → Answer) (largeDrive : Bool) (image : ℕ → UInt8)
    (h : Progress isoBufferSize sizes declared k s)
    (hlt : delivered isoBufferSize sizes k < declared) (hsum : declared + udfBlockSize < 2 ^ 63) :
    ∃ count, Asks isoBufferSize (declared - delivered isoBufferSize sizes k) count ∧
      udfExtractFilesStep env largeDrive (results sizes) image s =
        if userCancel env s.drive then .inr ⟨.failed,s⟩
        else
          let q := udfReadBlock (results sizes) image s.buf count s.reader
          let m := chunk sizes (declared - delivered isoBufferSize sizes k) k count
          let w := writeFileRetried env largeDrive q.buf m s.drive
          if !w.ok || w.written != m then
            .inr ⟨.failed,{ s with buf := q.buf, reader := q.reader, drive := w.drive }⟩
          else .inl ⟨s.fileLength - w.written,q.buf,q.reader,w.drive,s.r⟩ := by
  have hask := asks_udfExtractFiles hlt h
  refine ⟨_,hask,?_⟩
  have hpos : ¬ s.fileLength ≤ 0 := by
    rw [h.fileLength]
    omega
  have hfits : ¬ 2 ^ 63 ≤ s.fileLength + udfBlockSize := by
    rw [h.fileLength]
    omega
  rw [udfExtractFilesStep,if_neg hpos,if_neg hfits]
  simp only [if_neg (h.result_nonneg _ _),h.bufSize hask]

/-- A round of the loop of ExtractISOFile. -/
theorem extractISOFileStep_eq (h : Progress udfBlockSize sizes declared k s)
    (hlt : delivered udfBlockSize sizes k < declared) :
    extractISOFileStep env largeDrive (results sizes) image s =
      let q := udfReadBlock (results sizes) image (overwrite s.buf 0 udfBlockSize fun _ => 0) 1 s.reader
      let m := chunk sizes (declared - delivered udfBlockSize sizes k) k 1
      let w := writeFileRetried env largeDrive q.buf m s.drive
      if !w.ok then .inr ⟨.failed,{ s with buf := q.buf, reader := q.reader, drive := w.drive }⟩
      else .inl ⟨s.fileLength - m,q.buf,q.reader,w.drive,s.r + m⟩ := by
  have hpos : ¬ s.fileLength ≤ 0 := by
    rw [h.fileLength]
    omega
  rw [extractISOFileStep,if_neg hpos]
  simp only [if_neg (h.result_nonneg _ _),h.bufSize (asks_extractISOFile _)]

theorem udfExtractFilesStep_written (h : WrittenPart isoBufferSize sizes image declared k s)
    (hlt : delivered isoBufferSize sizes k < declared) (hsum : declared + udfBlockSize < 2 ^ 63) :
    (∃ l, udfExtractFilesStep env largeDrive (results sizes) image s = .inr l ∧ l.ending = .failed) ∨
    ∃ s', udfExtractFilesStep env largeDrive (results sizes) image s = .inl s' ∧
      WrittenPart isoBufferSize sizes image declared (k + 1) s' := by
  obtain ⟨count,hask,hst⟩ := udfExtractFilesStep_eq env largeDrive image h.toProgress hlt hsum
  have hexact := (writeFileRetried_eq env largeDrive
    (udfReadBlock (results sizes) image s.buf count s.reader).buf
    (chunk sizes (declared - delivered isoBufferSize sizes k) k count) s.drive).2
  rw [hst]
  split
  · exact Or.inl ⟨_,rfl,rfl⟩
  · dsimp only
    split
    · exact Or.inl ⟨_,rfl,rfl⟩
    · next hw =>
      simp only [Bool.or_eq_true,Bool.not_eq_true',bne_iff_ne,ne_eq,not_or,Bool.not_eq_false,
        not_not] at hw
      exact Or.inr ⟨_,rfl,h.next hlt hask rfl hexact hw.1 hw.2 (by rw [hw.2]) rfl rfl⟩

theorem extractISOFileStep_written (h : WrittenPart udfBlockSize sizes image declared k s)
    (hlt : delivered udfBlockSize sizes k < declared) (hdrive : largeDrive = false) :
    (∃ l, extractISOFileStep env largeDrive (results sizes) image s = .inr l ∧ l.ending = .failed) ∨
    ∃ s', extractISOFileStep env largeDrive (results sizes) image s = .inl s' ∧
      WrittenPart udfBlockSize sizes image declared (k + 1) s' := by
  have hexact := (writeFileRetried_eq env largeDrive
    (udfReadBlock (results sizes) image (overwrite s.buf 0 udfBlockSize fun _ => 0) 1 s.reader).buf
    (chunk sizes (declared - delivered udfBlockSize sizes k) k 1) s.drive).2
  rw [extractISOFileStep_eq h.toProgress hlt]
  dsimp only
  split
  · exact Or.inl ⟨_,rfl,rfl⟩
  · next hw =>
    have hok : (writeFileRetried env largeDrive
        (udfReadBlock (results sizes) image (overwrite s.buf 0 udfBlockSize fun _ => 0) 1 s.reader).buf
        (chunk sizes (declared - delivered udfBlockSize sizes k) k 1) s.drive).ok = true := by
      simpa using hw
    have hn := (written_of_ok (writeFileRetried_eq env largeDrive _ _ _).1 hok).resolve_right
      (by rw [hdrive]; decide)
    exact Or.inr ⟨_,rfl,h.next hlt (asks_extractISOFile _) rfl hexact hok hn rfl rfl rfl⟩

end loops

section answers
variable {largeDrive : Bool} {sizes : ℕ → ℕ} {image : ℕ → UInt8} {declared k : ℕ} {s : Copy}

/-- Every call succeeds, and a write reports all its bytes. -/
def allWritten : ℕ → Answer := fun _ => ⟨true,isoBufferSize,fun _ => 0,0,false⟩

/-- Every call succeeds, a write reports no bytes and leaves the file pointer at the start. -/
def nothingWritten : ℕ → Answer := fun _ => ⟨true,0,fun _ => 0,0,false⟩

theorem writeFileRetried_allWritten (largeDrive : Bool) (buf : ℕ → UInt8) {n : ℕ}
    (hn : n ≤ isoBufferSize) (d : Drive) :
    (writeFileRetried allWritten largeDrive buf n d).ok = true ∧
      (writeFileRetried allWritten largeDrive buf n d).written = n := by
  have hmin : min isoBufferSize n = n := Nat.min_eq_right hn
  rw [writeFileRetried_first (by simp [accepted,allWritten,hmin])]
  exact ⟨rfl,hmin⟩

theorem chunk_le (sizes : ℕ → ℕ) (k : ℕ) {cap remaining count : ℕ} (h : Asks cap remaining count) :
    chunk sizes remaining k count ≤ cap :=
  (min_le_right _ _).trans ((min_le_right _ _).trans h.le)

theorem udfExtractFilesStep_goes (h : Progress isoBufferSize sizes declared k s)
    (hlt : delivered isoBufferSize sizes k < declared) (hsum : declared + udfBlockSize < 2 ^ 63) :
    ∃ s', udfExtractFilesStep allWritten largeDrive (results sizes) image s = .inl s' ∧
      Progress isoBufferSize sizes declared (k + 1) s' := by
  obtain ⟨count,hask,hst⟩ := udfExtractFilesStep_eq allWritten largeDrive image h hlt hsum
  obtain ⟨hok,hn⟩ := writeFileRetried_allWritten largeDrive
    (udfReadBlock (results sizes) image s.buf count s.reader).buf
    (chunk_le sizes k hask) s.drive
  rw [hst,if_neg (show ¬ userCancel allWritten s.drive = true from Bool.false_ne_true)]
  dsimp only
  rw [if_neg (by simp [hok,hn])]
  exact ⟨_,rfl,h.next image s.buf hask (by rw [hn]) rfl⟩

theorem extractISOFileStep_goes {env : ℕ → Answer} (h : Progress udfBlockSize sizes declared k s)
    (hlt : delivered udfBlockSize sizes k < declared)
    (hok : ∀ buf n d, n ≤ isoBufferSize → (writeFileRetried env largeDrive buf n d).ok = true) :
    ∃ s', extractISOFileStep env largeDrive (results sizes) image s = .inl s' ∧
      Progress udfBlockSize sizes declared (k + 1) s' ∧
      ∃ buf n, s'.drive = (writeFileRetried env largeDrive buf n s.drive).drive := by
  have hask := asks_extractISOFile (declared - delivered udfBlockSize sizes k)
  have hle := (chunk_le sizes k hask).trans (show udfBlockSize ≤ isoBufferSize by decide)
  rw [extractISOFileStep_eq h hlt]
  dsimp only
  rw [if_neg (by simp [hok _ _ _ hle])]
  exact ⟨_,rfl,h.next image (overwrite s.buf 0 udfBlockSize fun _ => 0) hask rfl rfl,_,_,rfl⟩

theorem writeFileRetried_nothingWritten (buf : ℕ → UInt8) (n : ℕ) (d : Drive) :
    writeFileRetried nothingWritten true buf n d =
      ⟨true,0,(writeFile nothingWritten buf n (readFilePointer nothingWritten d).drive).drive⟩ := by
  rw [writeFileRetried_first (by simp [accepted,nothingWritten])]
  simp [nothingWritten]

theorem writeFileRetried_nothingWritten_pos (buf : ℕ → UInt8) (n : ℕ) {d : Drive} (hd : d.pos = 0) :
    (writeFileRetried nothingWritten true buf n d).drive.pos = 0 := by
  rw [writeFileRetried_nothingWritten]
  simp only [writeFile,readFilePointer,nothingWritten]
  split
  · next h =>
    simp only [Bool.true_and,beq_iff_eq] at h
    omega
  · rfl

end answers

section copies
variable (largeDrive : Bool) (sizes : ℕ → ℕ) (declared : UInt64)

/-- The loop of udf_extract_files on reads that never fail. -/
def udfExtractFiles (env : ℕ → Answer) (image : ℕ → UInt8) : Copy → Copy ⊕ Left :=
  udfExtractFilesStep env largeDrive (results sizes) image

/-- The loop of ExtractISOFile on reads that never fail. -/
def extractISOFile (env : ℕ → Answer) (image : ℕ → UInt8) : Copy → Copy ⊕ Left :=
  extractISOFileStep env largeDrive (results sizes) image

variable {largeDrive sizes declared}

/-- A length of 2^63 or more is a negative one: the loop ends with nothing written. -/
theorem lt_of_copiesAll {step : (ℕ → Answer) → (ℕ → UInt8) → Copy → Copy ⊕ Left}
    (hdone : ∀ env image s, s.fileLength ≤ 0 → step env image s = .inr ⟨.copied,s⟩)
    (h : CopiesAll step declared) : declared.toNat < 2 ^ 63 := by
  by_contra hge
  have hlt := declared.toNat_lt
  obtain ⟨fuel,l,hl,-,hcopied⟩ := h allWritten (fun _ => 0) (fun _ => 0) ⟨fun _ => 0,0,0,[]⟩ rfl
  have hneg : (start declared (fun _ => 0) ⟨fun _ => 0,0,0,[]⟩).fileLength ≤ 0 := by
    simp only [start,int64,if_neg hge]
    omega
  cases fuel with
  | zero => cases hl
  | succ fuel =>
    rw [run,hdone _ _ _ hneg] at hl
    obtain rfl := Option.some.inj hl
    have hwritten : 0 = declared.toNat := (hcopied rfl).written
    omega

theorem udfExtractFiles_copiesAll_iff : CopiesAll (udfExtractFiles largeDrive sizes) declared ↔
    declared.toNat + udfBlockSize < 2 ^ 63 ∧
      ∃ k, declared.toNat ≤ delivered isoBufferSize sizes k := by
  constructor
  · intro h
    have hsign := lt_of_copiesAll (fun _ _ _ hs => if_pos hs) h
    have hsum : declared.toNat + udfBlockSize < 2 ^ 63 := by
      by_contra hge
      obtain ⟨fuel,l,hl,hover,-⟩ := h allWritten (fun _ => 0) (fun _ => 0) ⟨fun _ => 0,0,0,[]⟩ rfl
      have hlen : (start declared (fun _ => 0) ⟨fun _ => 0,0,0,[]⟩).fileLength = declared.toNat :=
        if_pos hsign
      have hblock : udfBlockSize = 2048 := rfl
      cases fuel with
      | zero => cases hl
      | succ fuel =>
        rw [run,udfExtractFiles,udfExtractFilesStep,if_neg (by rw [hlen]; omega),
          if_neg (by exact Bool.false_ne_true),if_pos (by rw [hlen]; omega)] at hl
        obtain rfl := Option.some.inj hl
        exact hover rfl
    exact ⟨hsum,exists_delivered_of_copiesAll hsign allWritten (fun _ => 0)
      (fun k s hs hlt => udfExtractFilesStep_goes hs hlt hsum) h⟩
  · rintro ⟨hsum,k,hk⟩
    exact copiesAll_of_delivered (by omega) (fun _ _ _ hs => if_pos hs)
      (fun _ _ _ _ hs hlt => udfExtractFilesStep_written hs hlt hsum) hk

/-- On a large drive a write that reports nothing is taken for a whole one. -/
theorem not_copiesAll_of_largeDrive (hsign : declared.toNat < 2 ^ 63) (hpos : declared.toNat ≠ 0) :
    ¬ CopiesAll (extractISOFile true sizes) declared := by
  intro h
  obtain ⟨fuel,l,hl,-,hcopied⟩ :=
    h nothingWritten (fun _ => 0) (fun _ => 0) ⟨fun _ => 0,0,0,[]⟩ rfl
  let I : Copy → Prop := fun s => (∃ k, Progress udfBlockSize sizes declared.toNat k s) ∧ s.drive.pos = 0
  have hgoes : ∀ s, I s → (∃ s', extractISOFile true sizes nothingWritten (fun _ => 0) s = .inl s' ∧ I s') ∨
      extractISOFile true sizes nothingWritten (fun _ => 0) s = .inr ⟨.copied,s⟩ := by
    rintro s ⟨⟨k,hs⟩,h0⟩
    rcases Nat.lt_or_ge (delivered udfBlockSize sizes k) declared.toNat with hlt | hge
    · obtain ⟨s',hst,hs',buf,n,hdrive⟩ := extractISOFileStep_goes hs hlt
        fun buf n d _ => by rw [writeFileRetried_nothingWritten]
      exact Or.inl ⟨s',hst,⟨k + 1,hs'⟩,hdrive ▸ writeFileRetried_nothingWritten_pos buf n h0⟩
    · have hlen : s.fileLength ≤ 0 := by
        have := hs.fileLength
        omega
      exact Or.inr (if_pos hlen)
  have hl' : l.ending = .copied ∧ l.state.drive.pos = 0 := by
    refine run_rule (I := I) (Q := fun l : Left => l.ending = .copied ∧ l.state.drive.pos = 0)
      (fun s s' hs hst => ?_) (fun s l hs hst => ?_) ⟨⟨0,progress_start hsign _⟩,rfl⟩ hl
    · rcases hgoes s hs with ⟨t,ht,hI⟩ | ht
      · obtain rfl := Sum.inl.inj (hst.symm.trans ht)
        exact hI
      · exact absurd (hst.symm.trans ht) Sum.inl_ne_inr
    · rcases hgoes s hs with ⟨t,ht,-⟩ | ht
      · exact absurd (ht.symm.trans hst) Sum.inl_ne_inr
      · obtain rfl := Sum.inr.inj (hst.symm.trans ht)
        exact ⟨rfl,hs.2⟩
  exact hpos ((hcopied hl'.1).written.symm.trans hl'.2)

theorem extractISOFile_copiesAll_iff : CopiesAll (extractISOFile largeDrive sizes) declared ↔
    declared.toNat < 2 ^ 63 ∧ (declared = 0 ∨ largeDrive = false) ∧
      ∃ k, declared.toNat ≤ delivered udfBlockSize sizes k := by
  constructor
  · intro h
    have hsign := lt_of_copiesAll (fun _ _ _ hs => if_pos hs) h
    refine ⟨hsign,?_,?_⟩
    · by_contra hnot
      rw [not_or,Bool.not_eq_false] at hnot
      obtain ⟨hpos,rfl⟩ := hnot
      exact not_copiesAll_of_largeDrive hsign (fun h0 => hpos (UInt64.toNat_inj.mp h0)) h
    · refine exists_delivered_of_copiesAll hsign allWritten (fun _ => 0) (fun k s hs hlt => ?_) h
      obtain ⟨s',hst,hs',-⟩ := extractISOFileStep_goes hs hlt
        fun buf n d hn => (writeFileRetried_allWritten largeDrive buf hn d).1
      exact ⟨s',hst,hs'⟩
  · rintro ⟨hsign,hdrive,k,hk⟩
    refine copiesAll_of_delivered hsign (fun _ _ _ hs => if_pos hs) (fun _ _ _ _ hs hlt => ?_) hk
    refine extractISOFileStep_written hs hlt (hdrive.resolve_left ?_)
    rintro rfl
    exact Nat.not_lt_zero _ hlt

end copies

/-- Both loops end with everything copied exactly when the amounts delivered add up to the
declared length, that length is one that the signed variable holds (for udf_extract_files
with one block more), and, for ExtractISOFile, the drive is not a large one. -/
theorem udfCopies_iff (largeDrive : Bool) (sizes : ℕ → ℕ) (declared : UInt64) :
    (CopiesAll (udfExtractFiles largeDrive sizes) declared ↔
      declared.toNat + udfBlockSize < 2 ^ 63 ∧
        ∃ k, declared.toNat ≤ delivered isoBufferSize sizes k) ∧
    (CopiesAll (extractISOFile largeDrive sizes) declared ↔
      declared.toNat < 2 ^ 63 ∧ (declared = 0 ∨ largeDrive = false) ∧
        ∃ k, declared.toNat ≤ delivered udfBlockSize sizes k) :=
  ⟨udfExtractFiles_copiesAll_iff,extractISOFile_copiesAll_iff⟩

/-- One byte is declared and the reader delivers none. -/
theorem udfCopies_stalls : ¬ CopiesAll (udfExtractFiles false fun _ => 0) 1 ∧
    ¬ CopiesAll (extractISOFile false fun _ => 0) 1 := by
  have hnone : ∀ cap, ¬ ∃ k, (1 : UInt64).toNat ≤ delivered cap (fun _ => 0) k := by
    rintro cap ⟨k,hk⟩
    simp [delivered] at hk
  exact ⟨fun h => hnone _ (udfExtractFiles_copiesAll_iff.mp h).2,
    fun h => hnone _ (extractISOFile_copiesAll_iff.mp h).2.2⟩

end SecureWipeOut.UdfCopy
