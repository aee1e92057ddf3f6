import SecureWipeOut.Drive.WriteImageSteps

/-! # Exactness of the raw image branch

A target that ends inside a sector has its last chunk rounded up to whole sectors, and
the size left is computed by an unsigned subtraction behind it: a full buffer is then
requested past the target. On all other targets the branch is exact.
-/
namespace SecureWipeOut.WriteImage
open ByteStore CInt FileIO Loop ZeroDrive

section Underflow
variable (env : ℕ → Answer) (src : Source) (p : Params) {d₀ : Drive} {s : State}

/-- Every call to the drive succeeds. -/
def ready : ℕ → Answer := fun _ => ⟨true,2 ^ 32,fun _ => 0,0,false⟩

/-- Every read of the source succeeds. -/
def readable : Source := ⟨fun _ => true,fun _ _ => 0⟩

theorem writeTries_ready (buf : ℕ → UInt8) (wb : ℕ) {n : ℕ} (hn : n < 2 ^ 32) (d : Drive) :
    (writeTries ready buf wb n writeRetries d).2 = true := by
  have hle : n ≤ 4294967296 := by omega
  simp [writeTries,writeRetries,userCancel,ready,writeFile,hle]

/-- No launch is forgotten. -/
theorem imageStep_launches (s : State) :
    ∀ l ∈ s.launches, l ∈ (Sum.elim id Prod.fst (imageStep env src p s)).launches := by
  intro l hl
  have hnext : ∀ size, l ∈ (nextRead src p size (getSizeAsync p s)).launches :=
    fun _ => List.mem_append_left _ hl
  rw [imageStep]
  split
  · exact hl
  · split
    · exact hl
    · split
      · exact hl
      · dsimp only
        split
        · exact hl
        · split
          · split
            · exact hnext _
            · exact hnext _
          · split
            · exact hnext _
            · exact hnext _

theorem run_launches {fuel : ℕ} {r : State × Bool} (h : run (imageStep env src p) fuel s = some r)
    {l : ℕ × ℕ} (hl : l ∈ s.launches) : l ∈ r.1.launches := by
  have hstep : ∀ s s', l ∈ s.launches → imageStep env src p s = .inl s' → l ∈ s'.launches := by
    intro s s' hl h
    simpa [h] using imageStep_launches env src p s l hl
  have hexit : ∀ s r, l ∈ s.launches → imageStep env src p s = .inr r → l ∈ r.1.launches := by
    intro s r hl h
    simpa [h] using imageStep_launches env src p s l hl
  exact run_rule (Q := fun r : State × Bool => l ∈ r.1.launches) hstep hexit hl h

theorem sectorSize_le {available : Bool} (h : mmMalloc available p.sectorSize = true) :
    p.sectorSize ≤ 2 ^ 31 := by
  simp only [mmMalloc,Bool.and_eq_true,beq_iff_eq] at h
  have hlt := p.sectorSize_lt
  rw [← h.2] at hlt ⊢
  have hlog := (Nat.pow_lt_pow_iff_right (by decide : 1 < 2)).mp hlt
  exact Nat.pow_le_pow_right (by decide) (by omega)

/-- Rounding a chunk up does not wrap and stays in the buffer. -/
theorem ceilingAlign_eq {n : ℕ} (hsize : 512 ≤ p.sectorSize) (hsize' : p.sectorSize ≤ 2 ^ 31)
    (hn : n ≤ bufSize p.sectorSize) : ceilingAlign n p.sectorSize = ceilAlign n p.sectorSize ∧
      ceilAlign n p.sectorSize ≤ bufSize p.sectorSize := by
  obtain ⟨⟨k,hk⟩,hB0,hB⟩ := bufSize_facts p hsize
  have hle : ceilAlign n p.sectorSize ≤ bufSize p.sectorSize := by
    have hdiv : (n + p.sectorSize - 1) / p.sectorSize ≤ k := by
      rw [hk] at hn
      apply Nat.le_of_lt_succ
      rw [Nat.div_lt_iff_lt_mul (by omega),Nat.succ_mul,mul_comm k]
      omega
    rw [hk,mul_comm p.sectorSize k]
    exact Nat.mul_le_mul_right _ hdiv
  have hsum : bufSize p.sectorSize + p.sectorSize - 1 < 2 ^ 32 := by
    have hmod : bufSize p.sectorSize ≤ ceilAlign ddBufferSize p.sectorSize := Nat.mod_le _ _
    by_cases hbig : p.sectorSize ≤ ddBufferSize
    · have hlt := ceilAlign_lt ddBufferSize (show 0 < p.sectorSize by omega)
      unfold ddBufferSize at hlt hbig hmod
      omega
    · have hone : (ddBufferSize + p.sectorSize - 1) / p.sectorSize = 1 := by
        apply Nat.div_eq_of_lt_le <;> unfold ddBufferSize at * <;> omega
      rw [ceilAlign,hone] at hmod
      omega
  refine ⟨?_,hle⟩
  rw [ceilingAlign,dword_of_lt (show n + p.sectorSize - 1 < 2 ^ 32 by omega)]
  exact dword_of_lt (by change ceilAlign n p.sectorSize < 2 ^ 32; omega)

/-- Behind a chunk that is rounded up past the target, a whole buffer is read. -/
theorem nextRead_launch (hsize : 512 ≤ p.sectorSize) {s : State} (hs : Inv p d₀ s) {n : ℕ}
    (hcount : min s.request (p.image.length - s.offset) = n) (hn : n = targetSize p - s.wb)
    (hgt : n < ceilAlign n p.sectorSize) (hfit : ceilAlign n p.sectorSize ≤ bufSize p.sectorSize) :
    (targetSize p,bufSize p.sectorSize) ∈
      (nextRead readable p (ceilAlign n p.sectorSize) (getSizeAsync p s)).launches := by
  obtain ⟨_,_,hB32⟩ := bufSize_facts p hsize
  have hT := (targetSize_le p).2
  have hle := hs.wb_le
  have hoffset : s.offset + min s.request (p.image.length - s.offset) = targetSize p := by
    rw [hcount,hs.offset,hn,Nat.add_sub_cancel' hle]
  have hwrap : min (bufSize p.sectorSize)
      (qsub (targetSize p) (qword (s.wb + ceilAlign n p.sectorSize))) = bufSize p.sectorSize := by
    unfold qsub
    rw [qword_of_lt (by omega)]
    omega
  simp only [nextRead,readFileAsync,getSizeAsync,hwrap,hoffset]
  exact List.mem_append_right _ List.mem_cons_self

/-- On a target that ends inside a sector, a read goes past it. -/
theorem run_overrun (hsize : 512 ≤ p.sectorSize) (hsize' : p.sectorSize ≤ 2 ^ 31)
    (hd : ¬ p.sectorSize ∣ targetSize p) (fuel : ℕ) : ∀ {s : State}, Inv p d₀ s → s.wb < targetSize p →
      ∀ {r : State × Bool}, run (imageStep ready readable p) fuel s = some r → ∃ l ∈ r.1.launches, targetSize p < l.1 + l.2 := by
  obtain ⟨hB,hB0,hB32⟩ := bufSize_facts p hsize
  have hT := (targetSize_le p).2
  induction fuel with
  | zero => intro s _ _ r hr; cases hr
  | succ fuel ih =>
    intro s hs hlt r hr
    obtain ⟨n,hn⟩ : ∃ n, n = min (bufSize p.sectorSize) (targetSize p - s.wb) := ⟨_,rfl⟩
    have hcount := hs.count.trans hn.symm
    by_cases hmore : bufSize p.sectorSize ≤ targetSize p - s.wb
    · -- a whole buffer, behind which the target goes on
      have hnB : n = bufSize p.sectorSize := by omega
      have hne : s.wb + n ≠ targetSize p := by
        intro heq
        rw [hnB] at heq
        exact hd (heq ▸ Nat.dvd_add hs.wb_dvd hB)
      have hmod : ¬ n % p.sectorSize ≠ 0 := not_not.mpr (Nat.mod_eq_zero_of_dvd (hnB ▸ hB))
      have hstep := imageStep_read ready readable p hs.busy hlt rfl hcount (if_neg hmod) (by omega)
      dsimp only at hstep
      have hok := writeTries_ready ((nextRead readable p n (getSizeAsync p s)).buffer
        (nextRead readable p n (getSizeAsync p s)).procBufnum) s.wb (n := n) (by omega) s.drive
      rw [if_pos hok] at hstep
      have hinv := hs.chunk ready readable p hn (hnB ▸ hB) (by omega) rfl hok
      rw [run,hstep] at hr
      refine ih hinv ?_ hr
      dsimp only
      rw [qword_of_lt (by omega)]
      omega
    · -- the last chunk, behind which the size left wraps
      have hnT : n = targetSize p - s.wb := by omega
      have hmod : n % p.sectorSize ≠ 0 := by
        intro hzero
        have hdvd := Nat.dvd_add hs.wb_dvd (Nat.dvd_of_mod_eq_zero hzero)
        rw [hnT,Nat.add_sub_cancel' hs.wb_le] at hdvd
        exact hd hdvd
      obtain ⟨hceil,hfit⟩ := ceilingAlign_eq p hsize hsize' (show n ≤ bufSize p.sectorSize by omega)
      have hgt : n < ceilAlign n p.sectorSize := lt_ceilAlign (by omega) hmod
      have hstep := imageStep_read ready readable p hs.busy hlt rfl hcount (if_pos hmod) (by omega)
      rw [hceil] at hstep
      dsimp only at hstep
      have hlaunch := nextRead_launch p hsize hs hcount hnT hgt hfit
      refine ⟨(targetSize p,bufSize p.sectorSize),?_,by dsimp only; omega⟩
      rw [run,hstep] at hr
      split at hr
      next s' h =>
        split at h
        · obtain rfl := Sum.inl.inj h
          exact run_launches ready readable p hr hlaunch
        · cases h
      next r' h =>
        obtain rfl := Option.some.inj hr
        split at h
        · cases h
        · obtain rfl := Sum.inr.inj h
          exact hlaunch

end Underflow

section Exactness
variable (env : ℕ → Answer) (src : Source) (p : Params)

local instance bufferIndex : NeZero 2 := ⟨by decide⟩

/-- The state at the head of the loop. -/
def started (mem : Fin 2 → ℕ → UInt8) (d : Drive) : State :=
  let s := readFileAsync src (min (bufSize p.sectorSize) (targetSize p))
    ⟨0,fun _ => 0,0,1,mem,0,0,[],(setFilePointerEx env 0 d).2⟩
  {s with readSize := Function.update s.readSize 1 1}

theorem writeImage_started (h : Starts p) (hvhd : ¬ (p.vhd = true ∧ targetSize p = 0))
    (mem : Fin 2 → ℕ → UInt8) (d : Drive) : writeImage env src p mem d =
      run (imageStep env src p) (targetSize p + 1) (started env src p mem d) := by
  obtain ⟨hsize,hsource,hmem⟩ := h
  have hopen : ¬ (!p.sourceOk || (p.vhd && targetSize p == 0)) = true := by simpa [hsource] using hvhd
  rw [writeImage]
  dsimp only
  rw [if_neg (not_lt.mpr hsize),if_neg hopen,if_neg (by simp [hmem])]
  rfl

theorem started_inv {d : Drive} (hrewind : (setFilePointerEx env 0 d).1 = true)
    (mem : Fin 2 → ℕ → UInt8) : Inv p d (started env src p mem d) where
  busy := by simp [started,readFileAsync]
  offset := rfl
  wb_le := Nat.zero_le _
  wb_dvd := dvd_zero _
  request := rfl
  pos := setFilePointerEx_pos env hrewind
  written := fun i hi => absurd hi (Nat.not_lt_zero i)
  rest := fun _ _ => rfl
  launches := by
    intro r hr
    obtain rfl : r = (0,min (bufSize p.sectorSize) (targetSize p)) := by
      simpa [started,readFileAsync] using hr
    dsimp only
    omega

/-- A branch that gives up before its first read has done nothing. -/
theorem writeImage_gives_up (h : ¬ (Starts p ∧ ¬ (p.vhd = true ∧ targetSize p = 0)))
    (mem : Fin 2 → ℕ → UInt8) (d : Drive) : ∃ s, writeImage env src p mem d = some (s,false) ∧
      s.launches = [] := by
  rw [writeImage]
  dsimp only
  split
  next => exact ⟨_,rfl,rfl⟩
  next hsize =>
    split
    next => exact ⟨_,rfl,rfl⟩
    next hopen =>
      split
      next => exact ⟨_,rfl,rfl⟩
      next hmem =>
        simp only [Bool.or_eq_true,Bool.not_eq_true',Bool.and_eq_true,beq_iff_eq,not_or,
          Bool.not_eq_false] at hopen hmem
        exact absurd ⟨⟨not_lt.mp hsize,hopen.1,hmem⟩,hopen.2⟩ h

/-- The branch is exact if and only if the target is one of whole sectors, or the branch
gives up before its first read. -/
theorem writeImage_exact_iff : Exact p ↔ (Starts p → p.sectorSize ∣ targetSize p) := by
  constructor
  · intro h hstarts
    by_contra hd
    have hpos : 0 < targetSize p := by
      apply Nat.pos_of_ne_zero
      intro hzero
      exact hd (hzero ▸ dvd_zero _)
    have hrewind : (setFilePointerEx ready 0 ⟨fun _ => 0,0,0,[]⟩).1 = true := rfl
    obtain ⟨s,ok,hs,hlaunches,-⟩ := h ready readable (fun _ _ => 0) ⟨fun _ => 0,0,0,[]⟩ hrewind
    rw [writeImage_started ready readable p hstarts (by omega)] at hs
    obtain ⟨l,hl,hover⟩ := run_overrun p hstarts.1 (sectorSize_le p hstarts.2.2) hd _
      (started_inv ready readable p hrewind _) hpos hs
    exact absurd (hlaunches l hl) (not_le.mpr hover)
  · intro hd env src mem d hrewind
    by_cases hstarts : Starts p ∧ ¬ (p.vhd = true ∧ targetSize p = 0)
    · have hd := hd hstarts.1
      obtain ⟨⟨s,ok⟩,hs,hlaunches,hok⟩ := run_exact env src p (started_inv env src p hrewind mem)
        hstarts.1.1 hd (show targetSize p - 0 < targetSize p + 1 by omega)
      refine ⟨s,ok,?_,hlaunches,fun h => ?_⟩
      · rw [writeImage_started env src p hstarts.1 hstarts.2,hs]
      · obtain ⟨hinv,hend⟩ := hok h
        dsimp only at hinv hend
        have hceil : ceilAlign (targetSize p) p.sectorSize = targetSize p := by
          have hlow := le_ceilAlign (targetSize p) (show 0 < p.sectorSize by have := hstarts.1.1; omega)
          have hlt := ceilAlign_lt (targetSize p) (show 0 < p.sectorSize by have := hstarts.1.1; omega)
          have hdvd := Nat.dvd_sub (dvd_ceilAlign (targetSize p) p.sectorSize) hd
          have hzero := Nat.eq_zero_of_dvd_of_lt hdvd (by omega)
          omega
        have hwb := hinv.wb_le
        refine ⟨fun i hi => hinv.written i (by omega),?_,?_⟩
        · intro i hi hi'
          omega
        · intro i hi
          exact hinv.rest i (by omega)
    · obtain ⟨s,hs,hnil⟩ := writeImage_gives_up env src p hstarts mem d
      exact ⟨s,false,hs,by simp [hnil],by simp⟩

/-- An image of one byte on a drive with the usual sectors: a full buffer is requested
behind its end, and what the buffer held is written as padding. -/
theorem writeImage_one_byte :
    let p : Params := ⟨[1],false,true,2 ^ 20,512,true,by decide,by decide,by decide⟩
    ¬ Exact p ∧ (writeImage ready readable p (fun _ _ => 0xAA) ⟨fun _ => 0,0,0,[]⟩).map
      (fun r => (r.2,r.1.launches,r.1.drive.data 1)) = some (true,[(0,1),(1,33554432)],0xAA) := by
  intro p
  have hrun : (writeImage ready readable p (fun _ _ => 0xAA) ⟨fun _ => 0,0,0,[]⟩).map
      (fun r => (r.2,r.1.launches,r.1.drive.data 1)) = some (true,[(0,1),(1,33554432)],0xAA) := by
    decide +kernel
  refine ⟨fun h => ?_,hrun⟩
  obtain ⟨s,ok,hs,hlaunches,-⟩ := h ready readable (fun _ _ => 0xAA) ⟨fun _ => 0,0,0,[]⟩ rfl
  rw [hs] at hrun
  simp only [Option.map_some,Option.some.injEq,Prod.mk.injEq] at hrun
  have hover := hlaunches (1,33554432) (by rw [hrun.2.1]; simp)
  exact absurd hover (by decide)

end Exactness

end SecureWipeOut.WriteImage
