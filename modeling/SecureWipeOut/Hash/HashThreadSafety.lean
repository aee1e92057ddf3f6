import SecureWipeOut.Hash.HashThreadSteps

/-! # No thread hashes a buffer that is being filled

What the invariant says in every reachable state about the buffers in use and the
bytes that the digests have been fed.
-/
namespace SecureWipeOut.HashThread
variable {n : ℕ} {file : List UInt8}

section Safety
variable {s : State n}

/-- The buffer that a hash thread reads, or is about to read. -/
def Uses (s : State n) (i : Fin n) (b : Fin 3) : Prop :=
  (∃ size count, (s.worker i).pc = .hashing b size count) ∨
    ((s.worker i).pc = .testing ∨ (s.worker i).pc = .calling) ∧ b = s.procBufnum

theorem Served.uses {base len : ℕ} {primed : Bool} {i : Fin n} {b : Fin 3}
    (h : Served file s.toMemory base len primed (s.worker i)) (hu : Uses s i b) :
    primed = true ∧ b = s.procBufnum := by
  unfold Uses at hu
  cases hw : s.worker i with
  | mk pc fed t d =>
    rw [hw] at h hu
    cases h <;> simp_all

theorem Idle.not_uses {fed : List UInt8} {i : Fin n} {b : Fin 3} (h : Idle fed (s.worker i)) :
    ¬Uses s i b := by
  unfold Uses
  cases hw : s.worker i with
  | mk pc fed' t d =>
    rw [hw] at h
    cases h <;> simp

theorem Inv.apart (h : Inv file s) (hf : s.flight = .pending) {i : Fin n} {b : Fin 3}
    (hu : Uses s i b) : s.readBufnum ≠ b := by
  obtain ⟨base,len,primed,hc,hcourse⟩ := h
  cases hcourse with
  | launch hpc hp ho hfl hw =>
    rw [hfl] at hf
    cases hf
  | fetching hpc hfe hsz hr hw =>
    rw [((hw i).uses hu).2]
    exact hfe.apart
  | ending hpc hp hfe hsz hw =>
    rw [((hw i).uses hu).2]
    exact hfe.apart
  | collected hpc hcol hn hfl hw =>
    rw [hfl] at hf
    cases hf
  | gathering hpc hcol hn hfl hw =>
    obtain ⟨hp,rfl⟩ := (hw i).uses hu
    rw [hn hp]
    exact add_two_ne _
  | switching hpc hcol hn hfl hw => exact absurd hu (hw i).not_uses
  | telling j hpc hp hfe hw hw' =>
    rcases Nat.lt_or_ge i j with hlt | hge
    · rw [((hw i hlt).uses hu).2]
      exact hfe.apart
    · exact absurd hu (hw' i hge).not_uses

theorem Served.finished_fed {m : Memory} {base len : ℕ} {primed : Bool} {w : Worker}
    (hc : Current file m base len primed) (h : Served file m base len primed w)
    (hpc : w.pc = .finished) : w.fed = file := by
  cases h with
  | finished hp hs =>
    have hlen := hc.size hp
    exact List.take_of_length_le ((hc.filled hp).last (by omega))
  | _ => cases hpc

theorem Inv.finished_fed (h : Inv file s) {i : Fin n} (hpc : (s.worker i).pc = .finished) :
    (s.worker i).fed = file := by
  obtain ⟨base,len,primed,hc,hcourse⟩ := h
  have hidle : ∀ fed, ¬Idle fed (s.worker i) := by
    intro fed hi
    cases hw : s.worker i with
    | mk pc fed' t d =>
      rw [hw] at hi hpc
      cases hi <;> cases hpc
  cases hcourse with
  | switching _ _ _ _ hw => exact absurd (hw i) (hidle _)
  | telling j _ _ _ hw hw' =>
    rcases Nat.lt_or_ge i j with hlt | hge
    · exact (hw i hlt).finished_fed hc hpc
    · exact absurd (hw' i hge) (hidle _)
  | launch _ _ _ _ hw => exact (hw i).finished_fed hc hpc
  | fetching _ _ _ _ hw => exact (hw i).finished_fed hc hpc
  | ending _ _ _ _ hw => exact (hw i).finished_fed hc hpc
  | collected _ _ _ _ hw => exact (hw i).finished_fed hc hpc
  | gathering _ _ _ _ hw => exact (hw i).finished_fed hc hpc

/-- When the reader has got to its end, threads that gave up have been fed everything
as well: only the last round can have lost them. -/
theorem Inv.done_fed (h : Inv file s) (hpc : s.pc = .done) {i : Fin n}
    (hw : (s.worker i).pc = .finished ∨ (s.worker i).pc = .failed) : (s.worker i).fed = file := by
  rcases hw with hfin | hfail
  · exact h.finished_fed hfin
  · obtain ⟨base,len,primed,hc,hcourse⟩ := h
    obtain ⟨hp,_,hsz,hserved⟩ := hcourse.at_end (Or.inr hpc)
    have hlen := hc.size hp
    have hbase : file.take base = file :=
      List.take_of_length_le ((hc.filled hp).last (by omega))
    have hs := hserved i
    cases hwi : s.worker i with
    | mk pc fed t d =>
      rw [hwi] at hs hfail
      cases hs with
      | failedReady d =>
        rw [show len = 0 by omega]
        exact hbase
      | failed fed d hf =>
        rcases hf with hf | hne
        · exact hf.trans hbase
        · exact absurd hsz hne
      | _ => cases hfail

/-- The reader only stops once every hash thread has. -/
theorem done_joined (h : Reachable file s) (hpc : s.pc = .done) (i : Fin n) :
    (s.worker i).pc = .finished ∨ (s.worker i).pc = .failed := by
  obtain ⟨s₀,h₀,hrun⟩ := h
  induction hrun with
  | refl =>
    rw [h₀.pc] at hpc
    cases hpc
  | tail hrun hstep ih =>
    cases hstep with
    | worker j hw =>
      have hold := ih hpc
      by_cases heq : i = j
      · subst heq
        rcases hold with hold | hold <;> cases hw <;> simp_all
      · simpa [Function.update_of_ne heq] using hold
    | transfer _ _ => exact ih hpc
    | complete _ _ _ _ _ => exact ih hpc
    | abort _ => exact ih hpc
    | joined _ _ hw => exact hw i
    | _ => cases hpc

end Safety

/-- In every reachable state of any number of hash threads, whatever the file, the sizes
of the reads and the schedule: the buffer being filled is not one that a thread hashes;
a thread that has finalised had been fed the file, in order and once; and when the
reader completes, each thread has been fed the file, and has finalised unless it failed. -/
theorem hashThread_safe {n : ℕ} (file : List UInt8) (s : State n) (h : Reachable file s) :
    (∀ i b, s.flight = .pending → Uses s i b → s.readBufnum ≠ b) ∧
      (∀ i, (s.worker i).pc = .finished → (s.worker i).fed = file) ∧
      (s.pc = .done → ∀ i, (s.worker i).fed = file ∧
        ((s.worker i).pc = .failed ∨ (s.worker i).pc = .finished)) := by
  have hinv := reachable_inv h
  refine ⟨fun i b hf hu => hinv.apart hf hu,fun i hpc => hinv.finished_fed hpc,fun hpc i => ?_⟩
  have hw := done_joined h hpc i
  exact ⟨hinv.done_fed hpc hw,hw.symm⟩

def startState : State 1 where
  buffer _ _ := 0
  readSize _ := 0
  procBufnum := 0
  readBufnum := 0
  offset := 0
  flight := .idle
  pc := .launch
  aborted := false
  worker _ := ⟨.starting,[],false,false⟩

/-- A complete run with one hash thread over a file of one byte. -/
theorem hashThread_safe_one_byte :
    ∃ s : State 1, Reachable [0x61] s ∧ s.pc = .done ∧ (s.worker 0).fed = [0x61] := by
  have h := Relation.ReflTransGen.refl (r := Step [0x61]) (a := startState)
  replace h := h.tail (.worker 0 (.ready rfl))
  replace h := h.tail (.launch rfl rfl)
  replace h := h.tail (.enter rfl rfl (by decide))
  replace h := h.tail (.complete rfl (fun _ => 0x61) 1 (by decide) (by decide))
  replace h := h.tail (.readDone rfl rfl rfl)
  replace h := h.tail (.launchNext rfl rfl)
  replace h := h.tail (.threadsReady rfl rfl (by decide))
  replace h := h.tail (.setProc rfl rfl)
  replace h := h.tail (.signal 0 rfl rfl)
  replace h := h.tail (.signalled rfl rfl)
  replace h := h.tail (.worker 0 (.wake rfl rfl))
  replace h := h.tail (.worker 0 (.more rfl (by decide)))
  replace h := h.tail (.worker 0 (.call rfl))
  replace h := h.tail (.worker 0 (.feed rfl (by decide)))
  replace h := h.tail (.worker 0 (.written rfl))
  replace h := h.tail (.worker 0 (.signal rfl))
  replace h := h.tail (.enter rfl rfl (by decide))
  replace h := h.tail (.complete rfl (fun _ => 0) 0 (by decide) (by decide))
  replace h := h.tail (.readDone rfl rfl rfl)
  replace h := h.tail (.launchNext rfl rfl)
  replace h := h.tail (.threadsReady rfl rfl (by decide))
  replace h := h.tail (.setProc rfl rfl)
  replace h := h.tail (.signal 0 rfl rfl)
  replace h := h.tail (.signalled rfl rfl)
  replace h := h.tail (.leave rfl rfl (by decide))
  replace h := h.tail (.worker 0 (.wake rfl rfl))
  replace h := h.tail (.worker 0 (.finish rfl (by decide)))
  replace h := h.tail (.joined rfl rfl (by decide))
  have hr : Reachable [0x61] _ := ⟨startState,⟨rfl,rfl,rfl,fun _ => rfl⟩,h⟩
  exact ⟨_,hr,rfl,((hashThread_safe [0x61] _ hr).2.2 rfl 0).1⟩

end SecureWipeOut.HashThread
