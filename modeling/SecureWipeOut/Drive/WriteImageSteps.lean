import SecureWipeOut.Drive.WriteImage

/-! # The turns of the raw image branch

What a turn reads, launches and writes. On a target of whole sectors every chunk is one
of whole sectors, and the loop ends with the image on the drive or with a failure.
-/
namespace SecureWipeOut.WriteImage
open ByteStore CInt FileIO Loop ZeroDrive
variable (env : ℕ → Answer) (src : Source) (p : Params)

section Steps

/-- The attempts stay inside the block; one that succeeds leaves the buffer there. -/
theorem writeTries_spec (buf : ℕ → UInt8) {wb n : ℕ} (tries : ℕ) {d : Drive} (hpos : d.pos = wb) :
    SameOutside d.data (writeTries env buf wb n tries d).1.data wb n ∧
      ((writeTries env buf wb n tries d).2 = true →
        (∀ i < n, (writeTries env buf wb n tries d).1.data (wb + i) = buf i) ∧
          (writeTries env buf wb n tries d).1.pos = wb + n) := by
  induction tries generalizing d with
  | zero => exact ⟨SameOutside.refl _ _ _,by simp [writeTries]⟩
  | succ tries ih =>
    rw [writeTries]
    split
    · exact ⟨SameOutside.refl _ _ _,by simp⟩
    · have hout := writeFile_sameOutside env buf n d
      rw [hpos] at hout
      dsimp only
      split
      case isTrue hfull =>
        simp only [Bool.and_eq_true,beq_iff_eq] at hfull
        obtain ⟨hdata,hp⟩ := writeFile_complete env hfull.1 hfull.2
        rw [hpos] at hdata hp
        refine ⟨hout,fun _ => ⟨fun i hi => ?_,hp⟩⟩
        rw [hdata (wb + i) (by omega) (by omega),Nat.add_sub_cancel_left]
      case isFalse =>
        split
        · exact ⟨hout,by simp⟩
        · split
          case isTrue hok =>
            obtain ⟨ih1,ih2⟩ := ih (setFilePointerEx_pos env hok)
            exact ⟨hout.trans ih1,ih2⟩
          case isFalse => exact ⟨hout,by simp⟩

theorem fin_two_succ_ne (b : Fin 2) : b + 1 ≠ b := by
  revert b
  decide

/-- What is written in a turn is the buffer that the read has filled. -/
theorem nextRead_buffer (size : ℕ) (s : State) :
    (nextRead src p size (getSizeAsync p s)).buffer (nextRead src p size (getSizeAsync p s)).procBufnum =
      overwrite (s.buffer s.readBufnum) 0 (min s.request (p.image.length - s.offset))
        fun i => p.image.getD (s.offset + i) 0 := by
  have hne : s.readBufnum ≠ s.readBufnum + 1 := (fin_two_succ_ne s.readBufnum).symm
  simp only [nextRead,readFileAsync,getSizeAsync]
  rw [Function.update_of_ne hne,Function.update_self]

/-- A turn in which a read has completed. -/
theorem imageStep_read {s : State} {n size : ℕ} (hgo : s.readSize s.procBufnum ≠ 0)
    (hlt : s.wb < targetSize p) (hok : src.ok s.launches.length = true)
    (hn : min s.request (p.image.length - s.offset) = n)
    (hsize : (if n % p.sectorSize ≠ 0 then ceilingAlign n p.sectorSize else n) = size)
    (hfit : size ≤ bufSize p.sectorSize) : imageStep env src p s =
      let s' := nextRead src p size (getSizeAsync p s)
      let w := writeTries env (s'.buffer s'.procBufnum) s.wb size writeRetries s.drive
      if w.2 then .inl {s' with wb := qword (s.wb + size), drive := w.1}
      else .inr ({s' with drive := w.1},false) := by
  have hread : (getSizeAsync p s).readSize (getSizeAsync p s).readBufnum = n := by
    rw [← hn]
    exact Function.update_self ..
  have hguard : ¬ (n % p.sectorSize ≠ 0 ∧ bufSize p.sectorSize < ceilingAlign n p.sectorSize) := by
    rintro ⟨hmod,hlt⟩
    rw [if_pos hmod] at hsize
    omega
  rw [imageStep,if_neg hgo,if_neg (not_le.mpr hlt),if_neg (by simp [hok])]
  dsimp only
  rw [hread,if_neg hguard,hsize]
  rfl

end Steps

section Invariant

theorem targetSize_le : targetSize p ≤ p.image.length ∧ targetSize p < 2 ^ 63 := by
  have h := p.image_lt
  unfold targetSize
  split <;> omega

/-- The invariant of the loop up to the last sector: the bytes counted are those of the
image, the source and the drive are positioned behind them, and the read under way is
limited by the target. -/
structure Inv (d₀ : Drive) (s : State) : Prop where
  busy : s.readSize s.procBufnum ≠ 0
  offset : s.offset = s.wb
  wb_le : s.wb ≤ targetSize p
  wb_dvd : p.sectorSize ∣ s.wb
  request : s.request = min (bufSize p.sectorSize) (targetSize p - s.wb)
  pos : s.drive.pos = s.wb
  written : ∀ i < s.wb, s.drive.data i = p.image.getD i 0
  rest : ∀ i, s.wb ≤ i → s.drive.data i = d₀.data i
  launches : ∀ r ∈ s.launches, r.1 + r.2 ≤ targetSize p

variable {d₀ : Drive} {s : State}

theorem Inv.count (hs : Inv p d₀ s) : min s.request (p.image.length - s.offset) =
    min (bufSize p.sectorSize) (targetSize p - s.wb) := by
  have hle := (targetSize_le p).1
  rw [hs.request,hs.offset]
  omega

/-- Behind whole sectors the next read is limited by the target again. -/
theorem Inv.launch (hs : Inv p d₀ s) {n : ℕ}
    (hn : n = min (bufSize p.sectorSize) (targetSize p - s.wb)) :
    (nextRead src p n (getSizeAsync p s)).launches = s.launches ++
        [(s.wb + n,min (bufSize p.sectorSize) (targetSize p - (s.wb + n)))] ∧
      (nextRead src p n (getSizeAsync p s)).request =
        min (bufSize p.sectorSize) (targetSize p - (s.wb + n)) ∧
      (nextRead src p n (getSizeAsync p s)).offset = s.wb + n := by
  have hwb := hs.wb_le
  have hT := (targetSize_le p).2
  have hq : qsub (targetSize p) (qword (s.wb + n)) = targetSize p - (s.wb + n) := by
    rw [qword_of_lt (by omega),qsub_of_le (by omega) (by omega)]
  have hoffset : s.offset + min s.request (p.image.length - s.offset) = s.wb + n := by
    rw [hs.count,hs.offset,hn]
  simp only [nextRead,readFileAsync,getSizeAsync,hq,hoffset]
  exact ⟨trivial,trivial,trivial⟩

theorem Inv.launches_next (hs : Inv p d₀ s) {n : ℕ}
    (hn : n = min (bufSize p.sectorSize) (targetSize p - s.wb)) :
    ∀ r ∈ (nextRead src p n (getSizeAsync p s)).launches, r.1 + r.2 ≤ targetSize p := by
  have hwb := hs.wb_le
  obtain ⟨hlaunch,-,-⟩ := hs.launch src p hn
  intro r hr
  rw [hlaunch] at hr
  rcases List.mem_append.mp hr with hr | hr
  · exact hs.launches r hr
  · rw [List.mem_singleton.mp hr]
    dsimp only
    omega

theorem bufSize_facts (hsize : 512 ≤ p.sectorSize) :
    p.sectorSize ∣ bufSize p.sectorSize ∧ 0 < bufSize p.sectorSize ∧ bufSize p.sectorSize < 2 ^ 32 :=
  bufSize_spec ⟨0,p.sectorSize,false,true,true,by decide,p.sectorSize_lt⟩ hsize

theorem imageStep_done (h : targetSize p ≤ s.wb) : imageStep env src p s = .inr (s,true) := by
  rw [imageStep,if_pos h,ite_self]

theorem imageStep_readFails (hgo : s.readSize s.procBufnum ≠ 0) (hlt : s.wb < targetSize p)
    (hno : src.ok s.launches.length = false) : imageStep env src p s = .inr (s,false) := by
  rw [imageStep,if_neg hgo,if_neg (not_le.mpr hlt),if_pos (by simp [hno])]

/-- A chunk of whole sectors: when its write succeeds the invariant holds behind it. -/
theorem Inv.chunk (hs : Inv p d₀ s) {n : ℕ} (hn : n = min (bufSize p.sectorSize) (targetSize p - s.wb))
    (hdvd : p.sectorSize ∣ n) (hpos : 0 < n) {w : Drive × Bool}
    (hw : w = writeTries env ((nextRead src p n (getSizeAsync p s)).buffer
      (nextRead src p n (getSizeAsync p s)).procBufnum) s.wb n writeRetries s.drive) (hok : w.2 = true) :
    Inv p d₀ {nextRead src p n (getSizeAsync p s) with wb := qword (s.wb + n), drive := w.1} := by
  have hT := (targetSize_le p).2
  have hwb := hs.wb_le
  have hq : qword (s.wb + n) = s.wb + n := qword_of_lt (by omega)
  obtain ⟨-,hrequest,hoffset⟩ := hs.launch src p hn
  obtain ⟨hout,hfull⟩ := writeTries_spec env ((nextRead src p n (getSizeAsync p s)).buffer
    (nextRead src p n (getSizeAsync p s)).procBufnum) (n := n) writeRetries hs.pos
  rw [← hw] at hout hfull
  obtain ⟨hdata,hend⟩ := hfull hok
  rw [hq]
  exact
    { busy := by
        simp only [nextRead,readFileAsync,Function.update_self]
        omega
      offset := hoffset
      wb_le := by
        dsimp only
        omega
      wb_dvd := Nat.dvd_add hs.wb_dvd hdvd
      request := hrequest
      pos := hend
      written := by
        intro i hi
        by_cases hlt : i < s.wb
        · rw [hout i (Or.inl hlt)]
          exact hs.written i hlt
        · dsimp only at hi
          have hi' := hdata (i - s.wb) (by omega)
          rw [nextRead_buffer,hs.count,overwrite_inside _ _ (Nat.zero_le _) (by omega),hs.offset,
            Nat.sub_zero,show s.wb + (i - s.wb) = i by omega] at hi'
          exact hi'
      rest := by
        intro i hi
        dsimp only at hi
        rw [hout i (Or.inr hi)]
        exact hs.rest i (by omega)
      launches := hs.launches_next src p hn }

/-- A turn on a target of whole sectors keeps the invariant, launches no read beyond the
target and reports success only at its end. -/
theorem imageStep_inv (hs : Inv p d₀ s) (hsize : 512 ≤ p.sectorSize) (hd : p.sectorSize ∣ targetSize p) :
    (∀ s', imageStep env src p s = .inl s' → Inv p d₀ s' ∧ s.wb < s'.wb) ∧
      ∀ r, imageStep env src p s = .inr r → (∀ l ∈ r.1.launches, l.1 + l.2 ≤ targetSize p) ∧
        (r.2 = true → r.1 = s ∧ targetSize p ≤ s.wb) := by
  by_cases hlt : s.wb < targetSize p
  · cases hok : src.ok s.launches.length with
    | false =>
      rw [imageStep_readFails env src p hs.busy hlt hok]
      refine ⟨by simp,?_⟩
      rintro r hr
      obtain rfl := Sum.inr.inj hr
      exact ⟨hs.launches,by simp⟩
    | true =>
      obtain ⟨hB,hB0,-⟩ := bufSize_facts p hsize
      obtain ⟨n,hn⟩ : ∃ n, n = min (bufSize p.sectorSize) (targetSize p - s.wb) := ⟨_,rfl⟩
      have hdvd : p.sectorSize ∣ n := by
        rcases Nat.le_total (bufSize p.sectorSize) (targetSize p - s.wb) with h | h
        · rwa [hn,Nat.min_eq_left h]
        · rw [hn,Nat.min_eq_right h]
          exact Nat.dvd_sub hd hs.wb_dvd
      have hmod : ¬ n % p.sectorSize ≠ 0 := not_not.mpr (Nat.mod_eq_zero_of_dvd hdvd)
      have hstep := imageStep_read env src p hs.busy hlt hok (hs.count.trans hn.symm) (if_neg hmod)
        (by omega)
      have hT := (targetSize_le p).2
      rw [hstep]
      dsimp only
      split
      next hwok =>
        have hinv := hs.chunk env src p hn hdvd (by omega) rfl hwok
        refine ⟨?_,by simp⟩
        intro s' hs'
        obtain rfl := Sum.inl.inj hs'
        refine ⟨hinv,?_⟩
        dsimp only
        rw [qword_of_lt (by omega)]
        omega
      next =>
        refine ⟨by simp,?_⟩
        intro r hr
        obtain rfl := Sum.inr.inj hr
        exact ⟨hs.launches_next src p hn,by simp⟩
  · rw [imageStep_done env src p (not_lt.mp hlt)]
    refine ⟨by simp,?_⟩
    intro r hr
    obtain rfl := Sum.inr.inj hr
    exact ⟨hs.launches,fun _ => ⟨rfl,not_lt.mp hlt⟩⟩

/-- On a target of whole sectors the loop ends, with the image on the drive if it
reports success. -/
theorem run_exact (hs : Inv p d₀ s) (hsize : 512 ≤ p.sectorSize) (hd : p.sectorSize ∣ targetSize p)
    {fuel : ℕ} (hfuel : targetSize p - s.wb < fuel) : ∃ r, run (imageStep env src p) fuel s = some r ∧
      (∀ l ∈ r.1.launches, l.1 + l.2 ≤ targetSize p) ∧
      (r.2 = true → Inv p d₀ r.1 ∧ targetSize p ≤ r.1.wb) := by
  have hstep : ∀ s s', Inv p d₀ s → imageStep env src p s = .inl s' →
      Inv p d₀ s' ∧ targetSize p - s'.wb < targetSize p - s.wb := by
    intro s s' hs h
    obtain ⟨hs',hlt⟩ := (imageStep_inv env src p hs hsize hd).1 s' h
    have hle := hs'.wb_le
    exact ⟨hs',by omega⟩
  have hexit : ∀ s r, Inv p d₀ s → imageStep env src p s = .inr r →
      (∀ l ∈ r.1.launches, l.1 + l.2 ≤ targetSize p) ∧
        (r.2 = true → Inv p d₀ r.1 ∧ targetSize p ≤ r.1.wb) := by
    intro s r hs h
    obtain ⟨hlaunches,hdone⟩ := (imageStep_inv env src p hs hsize hd).2 r h
    refine ⟨hlaunches,fun hok => ?_⟩
    obtain ⟨rfl,hle⟩ := hdone hok
    exact ⟨hs,hle⟩
  obtain ⟨r,hr⟩ := run_terminates (fun s : State => targetSize p - s.wb) hstep hs hfuel
  exact ⟨r,hr,run_rule (fun s s' hs h => (hstep s s' hs h).1) hexit hs hr⟩

end Invariant

end SecureWipeOut.WriteImage
