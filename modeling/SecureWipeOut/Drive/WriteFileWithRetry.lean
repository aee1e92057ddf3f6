import SecureWipeOut.Lib.Loop
import SecureWipeOut.Drive.FileIO

/-! # Writing with retries

A write that does not report all its bytes is repeated from the file pointer held on
entry, as long as that pointer could be read and set again. The counter of the attempts
is a 32-bit number, and so is their limit: with the largest limit the counter starts over,
and the attempts behind it are neither counted nor rewound.
-/
namespace SecureWipeOut.FileIO
open ByteStore Loop

structure FilePointer where
  ok : Bool
  li : ℕ
  drive : Drive

/-- A move by zero bytes, which only reports where the file pointer is. -/
def readFilePointer (env : ℕ → Answer) (d : Drive) : FilePointer :=
  let a := env d.calls
  ⟨a.ok,if a.ok then d.pos else a.pos,{ d with calls := d.calls + 1 }⟩

/-- The loop variable, the bytes reported by the last write and the drive. -/
structure Tries where
  nTry : UInt32
  written : ℕ
  drive : Drive

structure RetryResult where
  ok : Bool
  written : ℕ
  drive : Drive

variable (env : ℕ → Answer) (largeDrive : Bool) (buf : ℕ → UInt8) (n : ℕ) (nNumRetries : UInt32)

/-- Some large drives report no bytes although all were written. -/
def accepted (ok : Bool) (count : ℕ) : Bool := ok && (count == n || (largeDrive && count == 0))

/-- Only a repeated attempt sets the file pointer back. -/
def rewind (li : ℕ) (s : Tries) : Bool × Drive :=
  if 1 < s.nTry then setFilePointerEx env li s.drive else (true,s.drive)

def retryStep (p : FilePointer) (s : Tries) : Tries ⊕ RetryResult :=
  let limit := if nNumRetries = 0 then 1 else nNumRetries
  if limit < s.nTry then .inr ⟨false,s.written,s.drive⟩
  else
    let q := rewind env p.li s
    if !q.1 then .inr ⟨false,s.written,q.2⟩
    else
      let w := writeFile env buf n q.2
      if accepted largeDrive n w.ok w.count then .inr ⟨true,w.count,w.drive⟩
      else if !p.ok then .inr ⟨false,w.count,w.drive⟩
      else .inl ⟨s.nTry + 1,w.count,w.drive⟩

def writeFileWithRetry (fuel : ℕ) (d : Drive) : Option RetryResult :=
  let p := readFilePointer env d
  run (retryStep env largeDrive buf n nNumRetries p) fuel ⟨1,0,p.drive⟩

/-- What a caller relies on. -/
structure WritesExactly (d : Drive) (r : RetryResult) : Prop where
  complete : r.ok = true → r.written = n →
    (∀ i, d.pos ≤ i → i < d.pos + n → r.drive.data i = buf (i - d.pos)) ∧
      r.drive.pos = d.pos + n
  outside : SameOutside d.data r.drive.data d.pos n
  issued : ∃ k, 1 ≤ k ∧ k ≤ max 1 nNumRetries.toNat ∧
    r.drive.writes = d.writes ++ List.replicate k (d.pos,n)

/-- The call with number 2t behind the first one sets the file pointer (the first one
reads it), the next one is a write. -/
def FailedAt (d : Drive) (t : ℕ) : Prop :=
  (env (d.calls + 2 * t)).ok = true ∧
    accepted largeDrive n (env (d.calls + 2 * t + 1)).ok
      (min (env (d.calls + 2 * t + 1)).count n) = false

/-- The state after k attempts that failed. -/
structure After (d : Drive) (k : ℕ) (s : Tries) : Prop where
  nTry : s.nTry = UInt32.ofNat (k + 1)
  calls : s.drive.calls = d.calls + max 1 (2 * k)
  pos : k = 0 → s.drive.pos = d.pos
  read : 0 < k → (env d.calls).ok = true
  outside : SameOutside d.data s.drive.data d.pos n
  writes : s.drive.writes = d.writes ++ List.replicate k (d.pos,n)

section attempt
variable {env largeDrive buf n nNumRetries}
variable {d : Drive} {k : ℕ} {s : Tries}

theorem limit_toNat (nNumRetries : UInt32) :
    (if nNumRetries = 0 then 1 else nNumRetries).toNat = max 1 nNumRetries.toNat := by
  split
  · next h => simp [h]
  · next h =>
    have : nNumRetries.toNat ≠ 0 := fun h' => h (UInt32.toNat_inj.mp h')
    omega

theorem After.start (d : Drive) : After env n d 0 ⟨1,0,(readFilePointer env d).drive⟩ where
  nTry := rfl
  calls := rfl
  pos _ := rfl
  read h := absurd h (lt_irrefl 0)
  outside := SameOutside.refl d.data d.pos n
  writes := by simp [readFilePointer]

theorem After.toNat_nTry (h : After env n d k s) (hk : k + 1 < 2 ^ 32) : s.nTry.toNat = k + 1 := by
  rw [h.nTry,UInt32.toNat_ofNat_of_lt' hk]

/-- The drive in front of the next write. -/
theorem rewind_after (h : After env n d k s) (hk : k + 1 < 2 ^ 32) :
    let q := rewind env (readFilePointer env d).li s
    (q.1 = (decide (k = 0) || (env (d.calls + 2 * k)).ok)) ∧
      (q.1 = true → q.2.pos = d.pos ∧ q.2.calls = d.calls + 2 * k + 1) ∧
      q.2.data = s.drive.data ∧ q.2.writes = s.drive.writes := by
  have hn := h.toNat_nTry hk
  rcases Nat.eq_zero_or_pos k with rfl | hpos
  · have hfirst : ¬ 1 < s.nTry := by
      rw [UInt32.lt_iff_toNat_lt,hn]
      decide
    rw [rewind,if_neg hfirst]
    exact ⟨by simp,fun _ => ⟨h.pos rfl,h.calls⟩,rfl,rfl⟩
  · have hnext : 1 < s.nTry := by
      rw [UInt32.lt_iff_toNat_lt,hn]
      simpa using hpos
    have hcalls : s.drive.calls = d.calls + 2 * k := by
      rw [h.calls]
      omega
    have hli : (readFilePointer env d).li = d.pos := by
      simp only [readFilePointer,h.read hpos,if_true]
    rw [rewind,if_pos hnext,hli]
    refine ⟨?_,fun hq => ⟨setFilePointerEx_pos env hq,?_⟩,rfl,rfl⟩
    · simp [setFilePointerEx,hcalls,hpos.ne']
    · simp only [setFilePointerEx,hcalls]

/-- A write at the place of the entry, after k others. -/
theorem writeFile_after (buf : ℕ → UInt8) (h : After env n d k s) {e : Drive} (hpos : e.pos = d.pos)
    (hdata : e.data = s.drive.data) (hwrites : e.writes = s.drive.writes) :
    SameOutside d.data (writeFile env buf n e).drive.data d.pos n ∧
      (writeFile env buf n e).drive.writes = d.writes ++ List.replicate (k + 1) (d.pos,n) := by
  constructor
  · have houtside := writeFile_sameOutside env buf n e
    rw [hdata,hpos] at houtside
    exact h.outside.trans houtside
  · rw [writeFile_writes,hwrites,h.writes,hpos,List.replicate_succ',List.append_assoc]

theorem WritesExactly.of_failed {r : RetryResult} (hok : r.ok = false)
    (houtside : SameOutside d.data r.drive.data d.pos n) (hk : 1 ≤ k)
    (hL : k ≤ max 1 nNumRetries.toNat)
    (hissued : r.drive.writes = d.writes ++ List.replicate k (d.pos,n)) :
    WritesExactly buf n nNumRetries d r where
  complete h := absurd (hok.symm.trans h) (by decide)
  outside := houtside
  issued := ⟨k,hk,hL,hissued⟩

/-- One more attempt: the function is left with what a caller relies on, or the attempt
failed, was not the last one, and the next one starts. -/
theorem retryStep_after (largeDrive : Bool) (buf : ℕ → UInt8) (h : After env n d k s)
    (hk : k + 1 < 2 ^ 32) (hL : k ≤ max 1 nNumRetries.toNat) :
    (∃ r, retryStep env largeDrive buf n nNumRetries (readFilePointer env d) s = .inr r ∧
      WritesExactly buf n nNumRetries d r ∧
      (k < max 1 nNumRetries.toNat → ¬ FailedAt env largeDrive n d k)) ∨
    (k < max 1 nNumRetries.toNat ∧ FailedAt env largeDrive n d k ∧
      ∃ s', retryStep env largeDrive buf n nNumRetries (readFilePointer env d) s = .inl s' ∧
        After env n d (k + 1) s') := by
  obtain ⟨hmoved,hpos,hdata,hwrites⟩ := rewind_after h hk
  have hlimit : (if nNumRetries = 0 then 1 else nNumRetries) < s.nTry ↔
      max 1 nNumRetries.toNat < k + 1 := by
    rw [UInt32.lt_iff_toNat_lt,limit_toNat,h.toNat_nTry hk]
  simp only [retryStep,hlimit]
  by_cases hlast : max 1 nNumRetries.toNat < k + 1
  · rw [if_pos hlast]
    refine Or.inl ⟨_,rfl,.of_failed rfl h.outside ?_ hL h.writes,fun hlt => ?_⟩
    · omega
    · omega
  rw [if_neg hlast]
  generalize rewind env (readFilePointer env d).li s = q at *
  cases hq : q.1 with
  | false =>
    have hk0 : 1 ≤ k := by
      by_contra h0
      obtain rfl : k = 0 := by omega
      simp [hq] at hmoved
    refine Or.inl ⟨_,if_pos rfl,.of_failed rfl (hdata ▸ h.outside) hk0 hL (hwrites.trans h.writes),?_⟩
    intro _ hf
    simp [hq,hf.1] at hmoved
  | true =>
    obtain ⟨hpos,hcalls⟩ := hpos hq
    obtain ⟨houtside,hissued⟩ := writeFile_after buf h hpos hdata hwrites
    have haccepted : accepted largeDrive n (writeFile env buf n q.2).ok
          (writeFile env buf n q.2).count =
        accepted largeDrive n (env (d.calls + 2 * k + 1)).ok
          (min (env (d.calls + 2 * k + 1)).count n) := by
      simp only [writeFile,hcalls]
    simp only [Bool.not_true,Bool.false_eq_true,if_false]
    cases hacc : accepted largeDrive n (writeFile env buf n q.2).ok
        (writeFile env buf n q.2).count with
    | true =>
      refine Or.inl ⟨_,if_pos rfl,⟨fun _ hn => ?_,houtside,k + 1,by omega,by omega,hissued⟩,?_⟩
      · have hok : (writeFile env buf n q.2).ok = true := (Bool.and_eq_true_iff.mp hacc).1
        exact hpos ▸ writeFile_complete env hok hn
      · intro _ hf
        exact Bool.noConfusion (hacc.symm.trans (haccepted.trans hf.2))
    | false =>
      simp only [Bool.false_eq_true,if_false]
      cases hread : (readFilePointer env d).ok with
      | false =>
        refine Or.inl ⟨_,if_pos rfl,.of_failed rfl houtside (by omega) (by omega) hissued,?_⟩
        intro _ hf
        have hk0 : k = 0 := by
          by_contra hk0
          exact Bool.noConfusion (hread.symm.trans (h.read (Nat.pos_of_ne_zero hk0)))
        subst hk0
        exact Bool.noConfusion (hread.symm.trans hf.1)
      | true =>
        refine Or.inr ⟨by omega,⟨?_,haccepted ▸ hacc⟩,_,rfl,?_⟩
        · rcases Nat.eq_zero_or_pos k with rfl | hk0
          · exact hread
          · simpa [hq,hk0.ne'] using hmoved.symm
        · refine ⟨?_,?_,fun h => absurd h k.succ_ne_zero,fun _ => hread,houtside,hissued⟩
          · rw [h.nTry]
            exact (UInt32.ofNat_add (k + 1) 1).symm
          · simp only [writeFile,hcalls]
            omega

/-- The counter goes past the limit, or starts over. -/
def Overruns (env : ℕ → Answer) (largeDrive : Bool) (n : ℕ) (nNumRetries : UInt32) (d : Drive) :
    Prop :=
  nNumRetries = 0xffffffff ∧ ∀ t < 2 ^ 32 - 1, FailedAt env largeDrive n d t

theorem writeFileWithRetry_of_not_overruns (buf : ℕ → UInt8)
    (h : ¬ Overruns env largeDrive n nNumRetries d) :
    ∃ r, writeFileWithRetry env largeDrive buf n nNumRetries (max 1 nNumRetries.toNat + 1) d =
      some r ∧ WritesExactly buf n nNumRetries d r := by
  let I : Tries → Prop := fun s => ∃ k, After env n d k s ∧ k ≤ max 1 nNumRetries.toNat ∧
    k + 1 < 2 ^ 32 ∧ ∀ t < k, FailedAt env largeDrive n d t
  have hstart : I ⟨1,0,(readFilePointer env d).drive⟩ :=
    ⟨0,.start d,by omega,by omega,fun t ht => absurd ht t.not_lt_zero⟩
  have hstep : ∀ s s', I s → retryStep env largeDrive buf n nNumRetries (readFilePointer env d) s =
      .inl s' → I s' ∧ max 1 nNumRetries.toNat + 1 - s'.nTry.toNat <
        max 1 nNumRetries.toNat + 1 - s.nTry.toNat := by
    rintro s s' ⟨k,hs,hL,hk,hfailed⟩ hst
    rcases retryStep_after largeDrive buf hs hk hL with
      ⟨r,hr,-⟩ | ⟨hlt,hf,t,ht,ha⟩
    · exact absurd (hst.symm.trans hr) Sum.inl_ne_inr
    · obtain rfl := Sum.inl.inj (hst.symm.trans ht)
      have hfailed' : ∀ t < k + 1, FailedAt env largeDrive n d t := by
        intro t ht
        rcases Nat.lt_succ_iff_lt_or_eq.mp ht with hlt | rfl
        · exact hfailed t hlt
        · exact hf
      have hk' : k + 1 + 1 < 2 ^ 32 := by
        have hmax := nNumRetries.toNat_lt
        by_contra hge
        have hk1 : k + 1 = 2 ^ 32 - 1 := by omega
        refine h ⟨?_,hk1 ▸ hfailed'⟩
        rw [← UInt32.toNat_inj]
        change nNumRetries.toNat = 2 ^ 32 - 1
        omega
      refine ⟨⟨k + 1,ha,by omega,hk',hfailed'⟩,?_⟩
      rw [hs.toNat_nTry hk,ha.toNat_nTry hk']
      omega
  obtain ⟨r,hr⟩ := run_terminates (fun s => max 1 nNumRetries.toNat + 1 - s.nTry.toNat) hstep
    hstart (Nat.sub_lt (Nat.succ_pos _) Nat.one_pos)
  refine ⟨r,hr,run_rule (fun s s' hs h => (hstep s s' hs h).1) ?_ hstart hr⟩
  rintro s q ⟨k,hs,hL,hk,-⟩ hq
  rcases retryStep_after largeDrive buf hs hk hL with
    ⟨r',hr',hexact,-⟩ | ⟨-,-,t,ht,-⟩
  · obtain rfl := Sum.inr.inj (hq.symm.trans hr')
    exact hexact
  · exact absurd (ht.symm.trans hq) Sum.inl_ne_inr

theorem run_failed (buf : ℕ → UInt8) (hN : nNumRetries = 0xffffffff) (hk : k ≤ 2 ^ 32 - 1)
    (hf : ∀ t < k, FailedAt env largeDrive n d t) :
    ∃ s, After env n d k s ∧ ∀ fuel, writeFileWithRetry env largeDrive buf n nNumRetries (fuel + k) d =
      run (retryStep env largeDrive buf n nNumRetries (readFilePointer env d)) fuel s := by
  have hlimit : max 1 nNumRetries.toNat = 2 ^ 32 - 1 := by rw [hN]; rfl
  induction k with
  | zero => exact ⟨_,.start d,fun _ => rfl⟩
  | succ k ih =>
    obtain ⟨s,hs,hrun⟩ := ih (by omega) fun t ht => hf t (by omega)
    have hlt : k < max 1 nNumRetries.toNat := by omega
    rcases retryStep_after largeDrive buf hs (by omega) hlt.le with
      ⟨_,-,-,hnot⟩ | ⟨-,-,s',hst,hs'⟩
    · exact absurd (hf k (by omega)) (hnot hlt)
    · refine ⟨s',hs',fun fuel => ?_⟩
      rw [← Nat.add_assoc,Nat.add_right_comm,hrun (fuel + 1),run,hst]

theorem rewind_writes (env : ℕ → Answer) (li : ℕ) (s : Tries) : (rewind env li s).2.writes = s.drive.writes := by
  rw [rewind]
  split <;> rfl

/-- A step that does not leave at once has issued one more write. -/
theorem retryStep_writes (p : FilePointer) (s : Tries) :
    (∀ s', retryStep env largeDrive buf n nNumRetries p s = .inl s' →
      s'.drive.writes.length = s.drive.writes.length + 1) ∧
    (∀ r, retryStep env largeDrive buf n nNumRetries p s = .inr r →
      r.drive.writes.length = s.drive.writes.length ∨
        r.drive.writes.length = s.drive.writes.length + 1) := by
  have hwrites := rewind_writes env p.li s
  have hwrite : (writeFile env buf n (rewind env p.li s).2).drive.writes.length =
      s.drive.writes.length + 1 := by
    rw [writeFile_writes,hwrites,List.length_append,List.length_singleton]
  simp only [retryStep]
  generalize (if nNumRetries = 0 then 1 else nNumRetries) = limit
  constructor
  · intro s' h
    split_ifs at h
    obtain rfl := Sum.inl.inj h
    exact hwrite
  · intro r h
    split_ifs at h
    · obtain rfl := Sum.inr.inj h
      exact Or.inl rfl
    · obtain rfl := Sum.inr.inj h
      exact Or.inl (congrArg List.length hwrites)
    all_goals
      obtain rfl := Sum.inr.inj h
      exact Or.inr hwrite

theorem writes_le_run {p : FilePointer} {fuel : ℕ} {r : RetryResult}
    (h : run (retryStep env largeDrive buf n nNumRetries p) fuel s = some r) :
    s.drive.writes.length ≤ r.drive.writes.length := by
  refine run_rule (I := fun s' : Tries => s.drive.writes.length ≤ s'.drive.writes.length)
    (Q := fun r : RetryResult => s.drive.writes.length ≤ r.drive.writes.length)
    (fun a b ha hab => ?_) (fun a b ha hab => ?_) le_rfl h
  · rw [(retryStep_writes p a).1 b hab]
    omega
  · rcases (retryStep_writes p a).2 b hab with h | h <;> omega

/-- The attempt behind the last one has counter 0, and is made. -/
theorem retryStep_wrapped (env : ℕ → Answer) (largeDrive : Bool) (buf : ℕ → UInt8) (n : ℕ)
    (nNumRetries : UInt32) (p : FilePointer) (hs : s.nTry = 0) :
    (∃ s', retryStep env largeDrive buf n nNumRetries p s = .inl s') ∨
      ∃ r, retryStep env largeDrive buf n nNumRetries p s = .inr r ∧
        r.drive.writes.length = s.drive.writes.length + 1 := by
  have hlimit : ¬ (if nNumRetries = 0 then 1 else nNumRetries) < s.nTry := by
    rw [hs]
    exact UInt32.not_lt_zero
  have hrewind : rewind env p.li s = (true,s.drive) := by
    rw [rewind,hs,if_neg (by decide)]
  have hissued := congrArg List.length (writeFile_writes env buf n s.drive)
  rw [List.length_append,List.length_singleton] at hissued
  rw [retryStep,if_neg hlimit,hrewind]
  simp only [Bool.not_true,Bool.false_eq_true,if_false]
  split_ifs
  · exact Or.inr ⟨_,rfl,hissued⟩
  · exact Or.inr ⟨_,rfl,hissued⟩
  · exact Or.inl ⟨_,rfl⟩

theorem not_writesExactly_of_overruns (h : Overruns env largeDrive n nNumRetries d) {fuel : ℕ}
    {r : RetryResult} (hr : writeFileWithRetry env largeDrive buf n nNumRetries fuel d = some r) :
    ¬ WritesExactly buf n nNumRetries d r := by
  obtain ⟨hN,hf⟩ := h
  obtain ⟨s,hs,hrun⟩ := run_failed buf hN le_rfl hf
  have hlen : s.drive.writes.length = d.writes.length + (2 ^ 32 - 1) := by
    rw [hs.writes,List.length_append,List.length_replicate]
  have hmany : d.writes.length + 2 ^ 32 ≤ r.drive.writes.length := by
    have hrest := (hrun (fuel + 1)).symm.trans (run_mono hr (by omega))
    rw [run] at hrest
    rcases retryStep_wrapped env largeDrive buf n nNumRetries (readFilePointer env d) hs.nTry with ⟨s',hst⟩ | ⟨q,hst,hq⟩
    · have hs' := (retryStep_writes _ s).1 s' hst
      rw [hst] at hrest
      have hle := writes_le_run hrest
      omega
    · rw [hst] at hrest
      obtain rfl := Option.some.inj hrest
      omega
  rintro ⟨-,-,k,-,hk,hwrites⟩
  have hlimit : max 1 nNumRetries.toNat = 2 ^ 32 - 1 := by rw [hN]; rfl
  rw [hwrites,List.length_append,List.length_replicate] at hmany
  omega

/-- A write that is accepted at once ends the attempts. -/
theorem writeFileWithRetry_first {fuel : ℕ}
    (h : accepted largeDrive n (env (d.calls + 1)).ok (min (env (d.calls + 1)).count n) = true) :
    writeFileWithRetry env largeDrive buf n nNumRetries (fuel + 1) d =
      some ⟨true,min (env (d.calls + 1)).count n,
        (writeFile env buf n (readFilePointer env d).drive).drive⟩ := by
  have hlimit : ¬ (if nNumRetries = 0 then 1 else nNumRetries) < (1 : UInt32) := by
    rw [UInt32.lt_iff_toNat_lt,limit_toNat]
    change ¬ _ < 1
    omega
  have hrewind : rewind env (readFilePointer env d).li ⟨1,0,(readFilePointer env d).drive⟩ =
      (true,(readFilePointer env d).drive) := if_neg (UInt32.lt_irrefl 1)
  have hstep : retryStep env largeDrive buf n nNumRetries (readFilePointer env d)
      ⟨1,0,(readFilePointer env d).drive⟩ = .inr ⟨true,min (env (d.calls + 1)).count n,
        (writeFile env buf n (readFilePointer env d).drive).drive⟩ := by
    rw [retryStep,if_neg hlimit,hrewind]
    simp only [Bool.not_true,Bool.false_eq_true,if_false]
    exact if_pos h
  rw [writeFileWithRetry,run,hstep]

/-- Success is reported of a whole write only, but for large drives. -/
theorem written_of_ok {fuel : ℕ} {r : RetryResult}
    (h : writeFileWithRetry env largeDrive buf n nNumRetries fuel d = some r) (hok : r.ok = true) :
    r.written = n ∨ largeDrive = true := by
  refine run_rule (I := fun _ => True) (Q := fun r : RetryResult => r.ok = true →
    r.written = n ∨ largeDrive = true) (fun _ _ _ _ => trivial) (fun s q _ hq hok => ?_) trivial h hok
  simp only [retryStep] at hq
  generalize (if nNumRetries = 0 then 1 else nNumRetries) = limit at hq
  split_ifs at hq with _ _ hacc
  all_goals obtain rfl := Sum.inr.inj hq
  · cases hok
  · cases hok
  · simp only [accepted,Bool.and_eq_true,Bool.or_eq_true,beq_iff_eq] at hacc
    exact hacc.2.imp_right And.left
  · cases hok

end attempt

/-- The function returns, with the range exact and no attempt too many, exactly when it is
not called with the largest number of retries and all of them fail. -/
theorem writeFileWithRetry_exact_iff (d : Drive) :
    (∃ fuel r, writeFileWithRetry env largeDrive buf n nNumRetries fuel d = some r ∧
      WritesExactly buf n nNumRetries d r) ↔ ¬ Overruns env largeDrive n nNumRetries d := by
  constructor
  · rintro ⟨fuel,r,hr,hexact⟩ h
    exact not_writesExactly_of_overruns h hr hexact
  · intro h
    obtain ⟨r,hr,hexact⟩ := writeFileWithRetry_of_not_overruns buf h
    exact ⟨_,r,hr,hexact⟩

/-- The file pointer can be read and set, every write fails. -/
def failing : ℕ → Answer := fun i => ⟨i % 2 == 0,0,fun _ => 0,0,false⟩

theorem writeFileWithRetry_not_exact :
    ¬ ∃ fuel r, writeFileWithRetry failing false (fun _ => 0) 512 0xffffffff fuel
        ⟨fun _ => 0,0,0,[]⟩ = some r ∧
      WritesExactly (fun _ => 0) 512 0xffffffff ⟨fun _ => 0,0,0,[]⟩ r := by
  rintro ⟨fuel,r,hr,hexact⟩
  refine not_writesExactly_of_overruns ⟨rfl,fun t _ => ?_⟩ hr hexact
  simp [FailedAt,failing,accepted]

end SecureWipeOut.FileIO
