import SecureWipeOut.Hash.HashThreadInvariant

/-! # The steps of the reader keep the invariant

Each position of the reader tells what the read under way fetches and where the hash
threads are, which is all that its next step needs.
-/
namespace SecureWipeOut.HashThread
variable {n : ℕ} {file : List UInt8} {s s' : State n}

/-- The threads' view of the chunk depends on the size and the number of the buffer
they process. -/
theorem Served.of_memory {m m' : Memory} {base len : ℕ} {primed : Bool} {w : Worker}
    (h : Served file m base len primed w)
    (hp : primed = true → m'.procBufnum = m.procBufnum)
    (hs : primed = true → m'.readSize m'.procBufnum = m.readSize m.procBufnum)
    (hf : primed = false → m'.readSize m'.procBufnum ≠ 0) : Served file m' base len primed w := by
  cases h with
  | starting hpr => exact .starting hpr
  | told hpr => exact .told hpr
  | testing hpr => exact .testing hpr
  | calling hpr hsz => exact .calling hpr (by rwa [hs hpr])
  | hashing hpr k hk hsz =>
    rw [← hp hpr]
    exact .hashing hpr k hk (by rwa [hs hpr])
  | signalling hpr hsz => exact .signalling hpr (by rwa [hs hpr])
  | ready => exact .ready
  | finished hpr hsz => exact .finished hpr (by rwa [hs hpr])
  | failedReady d => exact .failedReady d
  | failed fed d hfed =>
    refine .failed fed d ?_
    cases hprime : primed with
    | false => exact Or.inr (hf hprime)
    | true =>
      rw [hs hprime]
      exact hfed

theorem Served.idle {m : Memory} {base len : ℕ} {primed : Bool} {w : Worker}
    (h : Served file m base len primed w) (hr : w.threadReady = true) :
    Idle (file.take (base + len)) { w with threadReady := false } := by
  cases h with
  | ready => exact .waiting
  | failedReady d => exact .failed d
  | _ => cases hr

theorem Idle.told {m : Memory} {base len : ℕ} {w : Worker} (h : Idle (file.take base) w) :
    Served file m base len true { w with dataReady := true } := by
  cases h with
  | waiting => exact .told rfl
  | failed d => exact .failed _ _ (Or.inl rfl)

section Positions
variable {base len : ℕ} {primed : Bool}

theorem Course.at_launch (h : Course file s base len primed) (hpc : s.pc = .launch) :
    primed = false ∧ s.offset = 0 ∧ ∀ i, Served file s.toMemory base len primed (s.worker i) := by
  cases h <;> simp_all

theorem Course.at_head (h : Course file s base len primed) (hpc : s.pc = .head) :
    Fetching file s base len primed ∧ (primed = false → s.readSize s.procBufnum ≠ 0) ∧
      ∀ i, Served file s.toMemory base len primed (s.worker i) := by
  cases h <;> simp_all

theorem Course.at_waitRead (h : Course file s base len primed) (hpc : s.pc = .waitRead) :
    Fetching file s base len primed ∧ s.readSize s.procBufnum ≠ 0 ∧
      ∀ i, Served file s.toMemory base len primed (s.worker i) := by
  cases h <;> simp_all

theorem Course.at_launchNext (h : Course file s base len primed) (hpc : s.pc = .launchNext) :
    Collected file s base len s.readBufnum ∧ (primed = true → s.readBufnum = s.procBufnum + 1) ∧
      ∀ i, Served file s.toMemory base len primed (s.worker i) := by
  cases h <;> simp_all

theorem Course.at_waitThreads (h : Course file s base len primed) (hpc : s.pc = .waitThreads) :
    Collected file s base len (s.readBufnum + 2) ∧
      (primed = true → s.readBufnum = s.procBufnum + 2) ∧ FlightOk file s ∧
      ∀ i, Served file s.toMemory base len primed (s.worker i) := by
  cases h <;> simp_all

theorem Course.at_setProc (h : Course file s base len primed) (hpc : s.pc = .setProc) :
    Collected file s base len (s.readBufnum + 2) ∧ FlightOk file s ∧
      ∀ i, Idle (file.take (base + len)) (s.worker i) := by
  cases h <;> simp_all

theorem Course.at_signal {j : ℕ} (h : Course file s base len primed) (hpc : s.pc = .signal j) :
    primed = true ∧ Fetching file s base len primed ∧
      (∀ i : Fin n, i < j → Served file s.toMemory base len primed (s.worker i)) ∧
      ∀ i : Fin n, j ≤ i → Idle (file.take base) (s.worker i) := by
  cases h with
  | telling k hk hp hf hw hw' =>
    obtain rfl : j = k := by
      rw [hpc] at hk
      cases hk
      rfl
    exact ⟨hp,hf,hw,hw'⟩
  | _ => simp_all

theorem Course.at_end (h : Course file s base len primed) (hpc : s.pc = .joining ∨ s.pc = .done) :
    primed = true ∧ Fetching file s base len primed ∧ s.readSize s.procBufnum = 0 ∧
      ∀ i, Served file s.toMemory base len primed (s.worker i) := by
  rcases hpc with hpc | hpc <;> cases h <;> simp_all

end Positions

section ReaderSteps
variable {base len : ℕ} {primed : Bool}

theorem launch_inv (h : Inv file s) (hpc : s.pc = .launch) : Inv file { s with
    readBufnum := 0
    procBufnum := 1
    readSize := Function.update s.readSize 1 1
    flight := .pending
    pc := .head } := by
  obtain ⟨base,len,primed,hc,hcourse⟩ := h
  obtain ⟨rfl,ho,hw⟩ := hcourse.at_launch hpc
  obtain ⟨rfl,rfl⟩ := hc.none rfl
  refine ⟨0,0,false,⟨nofun,nofun,fun _ => ⟨rfl,rfl⟩⟩,?_⟩
  refine .fetching (Or.inl rfl) ⟨ho,zero_ne_one,nofun,nofun⟩ (fun _ => by simp) nofun fun i => ?_
  exact (hw i).of_memory nofun nofun fun _ => by simp

theorem readDone_inv {count : ℕ} (h : Inv file s) (hpc : s.pc = .waitRead)
    (hf : s.flight = .complete count) : Inv file { s with
      readSize := Function.update s.readSize s.readBufnum count
      offset := s.offset + count
      flight := .idle
      pc := .launchNext } := by
  obtain ⟨base,len,primed,hc,hcourse⟩ := h
  obtain ⟨hfe,hsz,hw⟩ := hcourse.at_waitRead hpc
  have hfill := hfe.flight count hf
  rw [hfe.offset] at hfill
  have hkeep : Function.update s.readSize s.readBufnum count s.procBufnum = s.readSize s.procBufnum :=
    Function.update_of_ne hfe.apart.symm _ _
  refine ⟨base,len,primed,⟨fun hp => (hc.size hp).trans hkeep.symm,hc.filled,hc.none⟩,?_⟩
  refine .collected rfl ⟨?_,?_,fun hz => hsz (hkeep.symm.trans hz)⟩ hfe.next rfl fun i => ?_
  · dsimp only
    rw [Function.update_self,hfe.offset]
  · dsimp only
    rw [Function.update_self]
    exact hfill
  · exact (hw i).of_memory (fun _ => rfl) (fun _ => hkeep) fun _ hz => hsz (hkeep.symm.trans hz)

theorem launchNext_inv (h : Inv file s) (hpc : s.pc = .launchNext) :
    Inv file { s with readBufnum := s.readBufnum + 1, flight := .pending, pc := .waitThreads } := by
  obtain ⟨base,len,primed,hc,hcourse⟩ := h
  obtain ⟨hcol,hn,hw⟩ := hcourse.at_launchNext hpc
  have hback : s.readBufnum + 1 + 2 = s.readBufnum := by
    rw [add_assoc]
    exact add_zero _
  refine ⟨base,len,primed,hc,.gathering rfl ?_ ?_ nofun hw⟩
  · refine ⟨?_,?_,hcol.more⟩
    · dsimp only
      rw [hback]
      exact hcol.offset
    · dsimp only
      rw [hback]
      exact hcol.filled
  · intro hp
    dsimp only
    rw [hn hp,add_assoc]
    rfl

theorem threadsReady_inv (h : Inv file s) (hpc : s.pc = .waitThreads)
    (hr : ∀ i, (s.worker i).threadReady = true) : Inv file { s with
      worker := fun i => { s.worker i with threadReady := false }
      pc := .setProc } := by
  obtain ⟨base,len,primed,hc,hcourse⟩ := h
  obtain ⟨hcol,hn,hf,hw⟩ := hcourse.at_waitThreads hpc
  refine ⟨base,len,primed,hc,?_⟩
  exact .switching rfl ⟨hcol.offset,hcol.filled,hcol.more⟩ hn hf fun i => (hw i).idle (hr i)

/-- The chunk behind the current one is published to threads that are all idle. -/
theorem setProc_inv (h : Inv file s) (hpc : s.pc = .setProc) :
    Inv file { s with procBufnum := s.readBufnum + 2, pc := .signal 0 } := by
  obtain ⟨base,len,primed,hc,hcourse⟩ := h
  obtain ⟨hcol,hf,hw⟩ := hcourse.at_setProc hpc
  refine ⟨base + len,s.readSize (s.readBufnum + 2),true,⟨fun _ => rfl,fun _ => hcol.filled,nofun⟩,?_⟩
  refine .telling 0 rfl rfl ⟨hcol.offset,(add_two_ne _).symm,fun _ => ?_,hf⟩ nofun fun i _ => hw i
  dsimp only
  rw [add_assoc]
  exact (add_zero _).symm

theorem signal_inv {i : Fin n} (h : Inv file s) (hpc : s.pc = .signal i) : Inv file { s with
    worker := Function.update s.worker i { s.worker i with dataReady := true }
    pc := .signal (i + 1) } := by
  obtain ⟨base,len,primed,hc,hcourse⟩ := h
  obtain ⟨rfl,hf,hw,hw'⟩ := hcourse.at_signal hpc
  refine ⟨base,len,true,hc,.telling (i + 1) rfl rfl ⟨hf.offset,hf.apart,hf.next,hf.flight⟩ ?_ ?_⟩
  · intro l hl
    dsimp only
    by_cases heq : l = i
    · subst heq
      rw [Function.update_self]
      exact (hw' l (le_refl _)).told
    · rw [Function.update_of_ne heq]
      have hne : (l : ℕ) ≠ i := fun h => heq (Fin.ext h)
      exact hw l (by omega)
  · intro l hl
    dsimp only
    have hne : l ≠ i := by
      rintro rfl
      omega
    rw [Function.update_of_ne hne]
    exact hw' l (by omega)

/-- Giving up leaves everything where it is. -/
theorem abort_inv (h : Inv file s) : Inv file { s with aborted := true } := by
  obtain ⟨base,len,primed,hc,hcourse⟩ := h
  refine ⟨base,len,primed,hc,?_⟩
  cases hcourse with
  | launch hpc hp ho hf hw => exact .launch hpc hp ho hf hw
  | fetching hpc hf hsz hr hw =>
    exact .fetching hpc ⟨hf.offset,hf.apart,hf.next,hf.flight⟩ hsz hr hw
  | ending hpc hp hf hsz hw => exact .ending hpc hp ⟨hf.offset,hf.apart,hf.next,hf.flight⟩ hsz hw
  | collected hpc hcol hn hf hw =>
    exact .collected hpc ⟨hcol.offset,hcol.filled,hcol.more⟩ hn hf hw
  | gathering hpc hcol hn hf hw =>
    exact .gathering hpc ⟨hcol.offset,hcol.filled,hcol.more⟩ hn hf hw
  | switching hpc hcol hn hf hw =>
    exact .switching hpc ⟨hcol.offset,hcol.filled,hcol.more⟩ hn hf hw
  | telling j hpc hp hf hw hw' =>
    exact .telling j hpc hp ⟨hf.offset,hf.apart,hf.next,hf.flight⟩ hw hw'

end ReaderSteps

theorem step_inv (h : Inv file s) (hs : Step file s s') : Inv file s' := by
  cases hs with
  | worker i hw => exact worker_inv h hw
  | transfer hf data => exact fill_inv h hf data s.flight (by simp [hf])
  | complete hf data count hc hd =>
    refine fill_inv h hf data (.complete count) ?_
    rintro c ⟨⟩
    exact ⟨hc,hd⟩
  | abort _ => exact abort_inv h
  | launch _ hpc => exact launch_inv h hpc
  | enter _ hpc hsize =>
    obtain ⟨base,len,primed,hc,hcourse⟩ := h
    obtain ⟨hf,hsz,hw⟩ := hcourse.at_head hpc
    exact ⟨base,len,primed,hc,.fetching (Or.inr rfl) ⟨hf.offset,hf.apart,hf.next,hf.flight⟩ hsz
      (fun _ => hsize) hw⟩
  | leave _ hpc hsize =>
    obtain ⟨base,len,primed,hc,hcourse⟩ := h
    obtain ⟨hf,hsz,hw⟩ := hcourse.at_head hpc
    have hp : primed = true := by
      by_contra hne
      exact hsz (by simpa using hne) hsize
    exact ⟨base,len,primed,hc,.ending (Or.inl rfl) hp ⟨hf.offset,hf.apart,hf.next,hf.flight⟩ hsize hw⟩
  | readDone _ hpc hf => exact readDone_inv h hpc hf
  | launchNext _ hpc => exact launchNext_inv h hpc
  | threadsReady _ hpc hr => exact threadsReady_inv h hpc hr
  | setProc _ hpc => exact setProc_inv h hpc
  | signal i _ hpc => exact signal_inv h hpc
  | signalled _ hpc =>
    obtain ⟨base,len,primed,hc,hcourse⟩ := h
    obtain ⟨rfl,hf,hw,_⟩ := hcourse.at_signal hpc
    exact ⟨base,len,true,hc,.fetching (Or.inl rfl) ⟨hf.offset,hf.apart,hf.next,hf.flight⟩ nofun nofun
      fun i => hw i i.isLt⟩
  | joined _ hpc _ =>
    obtain ⟨base,len,primed,hc,hcourse⟩ := h
    obtain ⟨hp,hf,hsz,hw⟩ := hcourse.at_end (Or.inl hpc)
    exact ⟨base,len,primed,hc,.ending (Or.inr rfl) hp ⟨hf.offset,hf.apart,hf.next,hf.flight⟩ hsz hw⟩

theorem reachable_inv (h : Reachable file s) : Inv file s := by
  obtain ⟨s₀,h₀,hrun⟩ := h
  induction hrun with
  | refl => exact initial_inv h₀
  | tail _ hstep ih => exact step_inv ih hstep

end SecureWipeOut.HashThread
