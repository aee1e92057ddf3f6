import SecureWipeOut.Drive.ClearMbrGpt

/-! # When the partition tables are cleared from the buffer

A write with retries leaves the sectors of a mask overwritten, all of them when it succeeds. The
second write stays inside the buffer exactly when the first data sector is not one of the sectors
4 to 127.
-/
namespace SecureWipeOut.ClearMbrGpt
open ByteStore CInt Sectors

section Store

theorem store_all (sectorSize : ℕ) (data : ℕ → UInt8) (pos n : ℕ) (buf : ℕ → UInt8) {mask : ℕ → Bool}
    (h : ∀ k, mask k = true) : store sectorSize data pos n buf mask = overwrite data pos n buf := by
  funext i
  unfold store overwrite
  simp [h]

theorem store_outside (sectorSize : ℕ) (data : ℕ → UInt8) {pos n i : ℕ} (buf : ℕ → UInt8) (mask : ℕ → Bool)
    (h : i < pos ∨ pos + n ≤ i) : store sectorSize data pos n buf mask i = data i :=
  if_neg (by omega)

theorem store_store (sectorSize : ℕ) (data : ℕ → UInt8) (pos n : ℕ) (buf : ℕ → UInt8) (mask mask' : ℕ → Bool) :
    store sectorSize (store sectorSize data pos n buf mask) pos n buf mask' =
      store sectorSize data pos n buf fun k => mask k || mask' k := by
  funext i
  unfold store
  by_cases hin : pos ≤ i ∧ i < pos + n
  · cases h : mask ((i - pos) / sectorSize) <;> cases h' : mask' ((i - pos) / sectorSize) <;> simp [hin,h,h']
  · rw [if_neg (by tauto),if_neg (by tauto),if_neg (by tauto)]

end Store

section Writes
variable {sectorSize : ℕ} {largeDrive : Bool} {env : ℕ → Answer} {buf : ℕ → UInt8} {n pos : ℕ}

/-- What a series of attempts at one write leaves behind. -/
structure Attempted (sectorSize : ℕ) (buf : ℕ → UInt8) (n pos : ℕ) (d d' : Disk) (ok : Bool) (mask : ℕ → Bool)
    (reqs : List Request) : Prop where
  data : d'.data = store sectorSize d.data pos n buf mask
  requests : d'.requests = d.requests ++ reqs
  sizes : ∀ q ∈ reqs, q.size = n
  last : (reqs.getLast?.map Request.accepted).getD false = ok
  full : ok = true → ∀ k, mask k = true

theorem Attempted.cons {d d₁ d' : Disk} {ok : Bool} {mask mask₁ : ℕ → Bool} {reqs : List Request}
    (h : Attempted sectorSize buf n pos d₁ d' ok mask reqs)
    (hdata : d₁.data = store sectorSize d.data pos n buf mask₁) (hreq : d₁.requests = d.requests ++ [⟨n,false⟩]) :
    Attempted sectorSize buf n pos d d' ok (fun k => mask₁ k || mask k) (⟨n,false⟩ :: reqs) := by
  refine ⟨?_,?_,?_,?_,fun hok k => ?_⟩
  · rw [h.data,hdata,store_store]
  · rw [h.requests,hreq,List.append_assoc]
    rfl
  · rw [List.forall_mem_cons]
    exact ⟨rfl,h.sizes⟩
  · rw [← h.last,List.getLast?_cons]
    cases reqs.getLast? <;> rfl
  · rw [h.full hok k,Bool.or_true]

theorem writeTries_disk (hpos : pos < 2 ^ 63) {start : Option ℕ} (left : ℕ) {first : Bool} {written : ℕ} {d : Disk}
    (hfirst : first = true → d.pos = pos) (hstart : start = some pos ∨ start = none ∧ first = true) :
    ∃ mask reqs, (left ≠ 0 → reqs ≠ []) ∧ Attempted sectorSize buf n pos d
      (writeTries (disk sectorSize largeDrive env) largeDrive buf n start left first written d).2
      (writeTries (disk sectorSize largeDrive env) largeDrive buf n start left first written d).1.ok mask reqs := by
  induction left generalizing first written d with
  | zero =>
    refine ⟨fun _ => false,[],fun h => absurd rfl h,?_,(List.append_nil _).symm,by simp,rfl,fun h => by cases h⟩
    funext i
    simp [writeTries,store]
  | succ left ih =>
    have hseek : (if first = true then (true,d) else (disk sectorSize largeDrive env).setFilePointerEx (start.getD 0) d) =
        (true,{d with pos := pos}) := by
      cases first with
      | true => rw [if_pos rfl,← hfirst rfl]
      | false =>
        rcases hstart with rfl | ⟨-,h⟩
        · exact if_pos hpos
        · cases h
    rw [writeTries,hseek]
    dsimp only
    rw [if_neg (show ¬(!true) = true from Bool.false_ne_true)]
    obtain ⟨a,d₁,hwrite,hdata,hreq⟩ : ∃ (a : Answer) (d₁ : Disk),
        (disk sectorSize largeDrive env).writeFile buf n {d with pos := pos} = (⟨a.ok,min a.count n⟩,d₁) ∧
        d₁.data = store sectorSize d.data pos n buf (fun k => a.accepts largeDrive n || a.stored k) ∧
        d₁.requests = d.requests ++ [⟨n,a.accepts largeDrive n⟩] := ⟨env d.requests.length,_,rfl,rfl,rfl⟩
    have hcond : (a.ok && (min a.count n == n || largeDrive && min a.count n == 0)) = a.accepts largeDrive n := rfl
    rw [hwrite]
    dsimp only
    rw [hcond]
    cases haccepts : a.accepts largeDrive n with
    | true =>
      have hok : a.ok = true := (Bool.and_eq_true_iff.mp haccepts).1
      rw [haccepts] at hdata hreq
      rw [if_pos rfl]
      exact ⟨_,_,fun _ => List.cons_ne_nil _ _,hdata,hreq,by simp,hok.symm,fun _ _ => rfl⟩
    | false =>
      rw [haccepts] at hdata hreq
      rw [if_neg Bool.false_ne_true]
      split
      next hnone => exact ⟨_,_,fun _ => List.cons_ne_nil _ _,hdata,hreq,by simp,rfl,fun h => by cases h⟩
      next hsome =>
        have hstart' : start = some pos := hstart.resolve_right fun h => hsome (by rw [h.1]; rfl)
        obtain ⟨mask,reqs,-,h⟩ := @ih false (min a.count n) d₁ (fun h => by cases h) (Or.inl hstart')
        exact ⟨_,_,fun _ => List.cons_ne_nil _ _,h.cons hdata hreq⟩

/-- A write with retries is one of its kind at the position of the drive. -/
theorem writeFileWithRetry_disk (sectorSize : ℕ) (largeDrive : Bool) (env : ℕ → Answer) (buf : ℕ → UInt8) (n : ℕ)
    (d : Disk) (hpos : d.pos < 2 ^ 63) :
    ∃ mask reqs, reqs ≠ [] ∧ Attempted sectorSize buf n d.pos d
      (writeFileWithRetry (disk sectorSize largeDrive env) largeDrive buf n writeRetries d).2
      (writeFileWithRetry (disk sectorSize largeDrive env) largeDrive buf n writeRetries d).1.ok mask reqs := by
  have hpointer : ((disk sectorSize largeDrive env).getFilePointer d).1 = some d.pos ∨
      ((disk sectorSize largeDrive env).getFilePointer d).1 = none := by
    unfold disk
    dsimp only
    split
    · exact Or.inl rfl
    · exact Or.inr rfl
  obtain ⟨mask,reqs,hne,h⟩ := @writeTries_disk sectorSize largeDrive env buf n d.pos hpos _ 4 true n d (fun _ => rfl)
    (hpointer.imp id fun h => ⟨h,rfl⟩)
  exact ⟨mask,reqs,hne (by decide),h⟩

end Writes

section Runs
variable {g : Geometry} {largeDrive : Bool} {env : ℕ → Answer} {calloc : ℕ → Option (ℕ → UInt8)} {data : ℕ → UInt8}
  {pos : ℕ}

theorem le_num_iff (g : Geometry) :
    maxSectorsToClear ≤ g.num ↔ g.firstDataSector < 4 ∨ maxSectorsToClear ≤ g.firstDataSector := by
  unfold Geometry.num numSectorsToClear maxSectorsToClear
  dsimp only
  split <;> split <;> omega

/-- The place of the second write. -/
def Geometry.tail (g : Geometry) : ℕ := (g.sectors - maxSectorsToClear) * g.sectorSize

theorem tail_add (g : Geometry) : g.tail + g.sectorSize * maxSectorsToClear = g.sectors * g.sectorSize := by
  have h := g.le_sectors
  rw [Geometry.tail,mul_comm g.sectorSize,← Nat.add_mul,Nat.sub_add_cancel h]

theorem seek_disk {li : ℕ} (h : li < 2 ^ 63) (d : Disk) :
    (disk g.sectorSize largeDrive env).setFilePointerEx li d = (true,{d with pos := li}) := if_pos h

theorem cancelled_disk (d : Disk) :
    (disk g.sectorSize largeDrive env).cancelled d = ((env d.requests.length).cancelled,d) := rfl

/-- The two writes of a run. -/
theorem run_eq {buf : ℕ → UInt8} (hcalloc : calloc (g.sectorSize * g.num) = some buf) :
    g.run largeDrive env calloc data pos =
      let h := disk g.sectorSize largeDrive env
      let w := writeFileWithRetry h largeDrive buf (dword (g.sectorSize * g.num)) writeRetries ⟨data,0,[]⟩
      if w.1.ok = false ∨ (env w.2.requests.length).cancelled = true then (false,w.2)
      else (true,(writeFileWithRetry h largeDrive buf (dword (g.sectorSize * maxSectorsToClear)) writeRetries
        {w.2 with pos := g.tail}).2) := by
  have hadd := tail_add g
  have hlt := g.diskSize_lt
  have hsub : qsub (g.sectors * g.sectorSize) (g.sectorSize * maxSectorsToClear) = g.tail := by
    rw [qsub_of_le (by omega) (by omega)]
    omega
  unfold Geometry.run clearMbrGpt
  dsimp only
  rw [show numSectorsToClear g.firstDataSector g.add1MB = g.num from rfl,hcalloc,hsub,seek_disk (by decide)]
  dsimp only
  generalize writeFileWithRetry (disk g.sectorSize largeDrive env) largeDrive buf (dword (g.sectorSize * g.num))
    writeRetries ⟨data,0,[]⟩ = w
  rw [cancelled_disk,seek_disk (by omega)]
  cases hok : w.1.ok with
  | false => rfl
  | true =>
    cases hc : (env w.2.requests.length).cancelled with
    | false => rfl
    | true => rfl

theorem run_none (hcalloc : calloc (g.sectorSize * g.num) = none) :
    g.run largeDrive env calloc data pos = (false,⟨data,pos,[]⟩) := by
  unfold Geometry.run clearMbrGpt
  dsimp only
  rw [show numSectorsToClear g.firstDataSector g.add1MB = g.num from rfl,hcalloc]

/-- A sector of the second write lies in its range at a multiple of the sector size. -/
theorem sector_index {k i : ℕ} (g : Geometry) (hk : g.sectors ≤ k + maxSectorsToClear)
    (hlo : k * g.sectorSize ≤ i) (hhi : i < (k + 1) * g.sectorSize) :
    g.tail ≤ i ∧ (i - g.tail) / g.sectorSize = k - (g.sectors - maxSectorsToClear) := by
  have hle : (g.sectors - maxSectorsToClear) * g.sectorSize ≤ k * g.sectorSize := Nat.mul_le_mul_right _ (by omega)
  have hk' : g.sectors - maxSectorsToClear ≤ k := by omega
  unfold Geometry.tail
  generalize g.sectors - maxSectorsToClear = first at hle hk' ⊢
  refine ⟨hle.trans hlo,Nat.div_eq_of_lt_le ?_ ?_⟩
  · rw [Nat.sub_mul]
    omega
  · rw [Nat.add_mul,one_mul] at hhi
    rw [Nat.add_mul,Nat.sub_mul,one_mul]
    omega

section Zeros
variable {buf : ℕ → UInt8} {d d' : Disk} {ok : Bool} {mask : ℕ → Bool} {reqs : List Request}

/-- A write of zeros that succeeds leaves zeros. -/
theorem Attempted.zeros {n p : ℕ} (h : Attempted g.sectorSize buf n p d d' true mask reqs) (hzero : ∀ i < n, buf i = 0) :
    ∀ i, p ≤ i → i < p + n → d'.data i = 0 := by
  intro i hlo hhi
  rw [h.data,store_all _ _ _ _ _ (h.full rfl),overwrite_inside _ _ hlo hhi]
  exact hzero _ (by omega)

/-- A write of zeros leaves zeros or what was there. -/
theorem Attempted.zero_or {n p : ℕ} (h : Attempted g.sectorSize buf n p d d' ok mask reqs) (hzero : ∀ i < n, buf i = 0) (i : ℕ) :
    d'.data i = 0 ∨ d'.data i = d.data i := by
  rw [h.data,store]
  split
  next hin => exact Or.inl (hzero _ (by omega))
  next => exact Or.inr rfl

/-- The second write leaves each of its sectors whole. -/
theorem Attempted.sector (h : Attempted g.sectorSize buf (g.sectorSize * maxSectorsToClear) g.tail d d' ok mask reqs)
    (hzero : ∀ i < g.sectorSize * maxSectorsToClear, buf i = 0) {k : ℕ} (hk : k < g.sectors)
    (hk' : g.sectors ≤ k + maxSectorsToClear) {i : ℕ} (hlo : k * g.sectorSize ≤ i) (hhi : i < (k + 1) * g.sectorSize) :
    d'.data i = if mask (k - (g.sectors - maxSectorsToClear)) = true then 0 else d.data i := by
  have hend : (k + 1) * g.sectorSize ≤ g.sectors * g.sectorSize := Nat.mul_le_mul_right _ hk
  have hadd := tail_add g
  obtain ⟨hle,hdiv⟩ := sector_index g hk' hlo hhi
  rw [h.data,store,hdiv]
  by_cases hmask : mask (k - (g.sectors - maxSectorsToClear)) = true
  · rw [if_pos ⟨hle,by omega,hmask⟩,if_pos hmask]
    exact hzero _ (by omega)
  · rw [if_neg (fun h => hmask h.2.2),if_neg hmask]

/-- A sector at the end has zeros, or the last request is refused and the sector is as it was. -/
theorem Attempted.trailing (h : Attempted g.sectorSize buf (g.sectorSize * maxSectorsToClear) g.tail d d' ok mask reqs)
    (hne : reqs ≠ []) (hzero : ∀ i < g.sectorSize * maxSectorsToClear, buf i = 0) {k : ℕ} (hk : k < g.sectors)
    (hk' : g.sectors ≤ k + maxSectorsToClear) :
    (∀ i, k * g.sectorSize ≤ i → i < (k + 1) * g.sectorSize → d'.data i = 0) ∨
      d'.requests.getLast?.map Request.accepted = some false ∧
        ∀ i, k * g.sectorSize ≤ i → i < (k + 1) * g.sectorSize → d'.data i = d.data i := by
  by_cases hmask : mask (k - (g.sectors - maxSectorsToClear)) = true
  · left
    intro i hlo hhi
    rw [h.sector hzero hk hk' hlo hhi,if_pos hmask]
  · right
    have hrefused : ok = false := by
      by_contra hok
      exact hmask (h.full (by simpa using hok) _)
    constructor
    · have hlast := h.last
      rw [hrefused,List.getLast?_eq_some_getLast hne] at hlast
      rw [h.requests,List.getLast?_append_of_ne_nil _ hne,List.getLast?_eq_some_getLast hne]
      exact congrArg some hlast
    · intro i hlo hhi
      rw [h.sector hzero hk hk' hlo hhi,if_neg hmask]

end Zeros

theorem cleared_of_fits (hfits : Fits g) (hcalloc : Callocs calloc) :
    Cleared g data (g.run largeDrive env calloc data pos) := by
  have hnum := (le_num_iff g).mpr hfits.1
  have hsize : dword (g.sectorSize * g.num) = g.sectorSize * g.num := dword_of_lt hfits.2
  have hle : g.sectorSize * maxSectorsToClear ≤ g.sectorSize * g.num := Nat.mul_le_mul_left _ hnum
  have htail : dword (g.sectorSize * maxSectorsToClear) = g.sectorSize * maxSectorsToClear :=
    dword_of_lt (hle.trans_lt hfits.2)
  have hadd := tail_add g
  have hlt := g.diskSize_lt
  cases hbuf : calloc (g.sectorSize * g.num) with
  | none =>
    rw [run_none hbuf]
    exact ⟨by simp,fun h => absurd h Bool.false_ne_true,fun h => absurd h Bool.false_ne_true,fun _ _ _ => rfl⟩
  | some buf =>
    have hzero := hcalloc _ _ hbuf
    have hzero' : ∀ i < g.sectorSize * maxSectorsToClear, buf i = 0 := fun i hi => hzero i (hi.trans_le hle)
    rw [run_eq hbuf,hsize,htail]
    dsimp only
    obtain ⟨mask,reqs,-,hfirst⟩ := writeFileWithRetry_disk g.sectorSize largeDrive env buf (g.sectorSize * g.num)
      ⟨data,0,[]⟩ (show 0 < 2 ^ 63 by decide)
    generalize writeFileWithRetry (disk g.sectorSize largeDrive env) largeDrive buf (g.sectorSize * g.num)
      writeRetries ⟨data,0,[]⟩ = w at hfirst ⊢
    dsimp only at hfirst
    have hsizes : ∀ q ∈ w.2.requests, q.size ≤ g.sectorSize * g.num := by
      intro q hq
      rw [hfirst.requests,List.nil_append] at hq
      exact (hfirst.sizes q hq).le
    have hothers : ∀ i, g.num * g.sectorSize ≤ i → w.2.data i = data i := by
      intro i hi
      rw [hfirst.data]
      exact store_outside _ _ _ _ (Or.inr (by rw [mul_comm] at hi; omega))
    split
    next hstop =>
      exact ⟨hsizes,fun h => absurd h Bool.false_ne_true,fun h => absurd h Bool.false_ne_true,fun i hi _ => hothers i hi⟩
    next hstop =>
      have hok : w.1.ok = true := by
        by_contra h
        exact hstop (Or.inl (by simpa using h))
      rw [hok] at hfirst
      have hlead : ∀ i < g.num * g.sectorSize, w.2.data i = 0 := by
        intro i hi
        rw [mul_comm] at hi
        exact hfirst.zeros hzero i (Nat.zero_le i) (by omega)
      obtain ⟨mask',reqs',hne,hsecond⟩ := writeFileWithRetry_disk g.sectorSize largeDrive env buf
        (g.sectorSize * maxSectorsToClear) {w.2 with pos := g.tail} (show g.tail < 2 ^ 63 by omega)
      generalize writeFileWithRetry (disk g.sectorSize largeDrive env) largeDrive buf
        (g.sectorSize * maxSectorsToClear) writeRetries {w.2 with pos := g.tail} = w' at hsecond ⊢
      dsimp only at hsecond
      refine ⟨?_,fun _ i hi => ?_,fun _ k hk hk' => ?_,fun i hi hout => ?_⟩
      · intro q hq
        rw [hsecond.requests] at hq
        exact (List.mem_append.mp hq).elim (hsizes q) fun hq => (hsecond.sizes q hq).trans_le hle
      · exact (hsecond.zero_or hzero' i).elim id fun h => h.trans (hlead i hi)
      · rcases hsecond.trailing hne hzero' hk hk' with hcleared | ⟨hrefused,hsame⟩
        · exact Or.inl hcleared
        · rcases Nat.lt_or_ge k g.num with hnum' | hnum'
          · left
            intro i hlo hhi
            exact (hsame i hlo hhi).trans (hlead i (hhi.trans_le (Nat.mul_le_mul_right _ hnum')))
          · right
            refine ⟨hrefused,fun i hlo hhi => ?_⟩
            exact (hsame i hlo hhi).trans (hothers i ((Nat.mul_le_mul_right _ hnum').trans hlo))
      · rw [hsecond.data,store_outside _ _ _ _ (by rw [hadd]; exact hout)]
        exact hothers i hi

end Runs

section Exact

/-- A drive that accepts every write. -/
def accepting (_ : ℕ) : Answer := ⟨true,2 ^ 32,fun _ => false,true,false⟩

theorem writeFileWithRetry_accepting {sectorSize n : ℕ} (hn : n < 2 ^ 32) (buf : ℕ → UInt8) (d : Disk) :
    writeFileWithRetry (disk sectorSize false accepting) false buf n writeRetries d =
      (⟨true,n⟩,⟨overwrite d.data d.pos n buf,d.pos + n,d.requests ++ [⟨n,true⟩]⟩) := by
  have hle : n ≤ 4294967296 := by omega
  have haccepts : (accepting d.requests.length).accepts false n = true := by
    simp [Answer.accepts,accepting,hle]
  have hwrite : (disk sectorSize false accepting).writeFile buf n d =
      (⟨true,n⟩,⟨overwrite d.data d.pos n buf,d.pos + n,d.requests ++ [⟨n,true⟩]⟩) := by
    unfold disk
    dsimp only
    rw [haccepts,store_all _ _ _ _ _ (fun _ => Bool.true_or _)]
    simp [accepting,hle]
  show writeTries _ false buf n (some d.pos) 4 true n d = _
  rw [writeTries]
  dsimp only
  rw [if_pos rfl,hwrite]
  simp

/-- The memory that `calloc` gives, with other data behind it. -/
def callocs (size : ℕ) : Option (ℕ → UInt8) := some fun i => if i < size then 0 else 1

theorem callocs_zero : Callocs callocs := by
  intro size buf h i hi
  rw [← Option.some.inj h]
  exact if_pos hi

theorem run_accepting (g : Geometry) : g.run false accepting callocs (fun _ => 1) 0 =
    (true,⟨overwrite (overwrite (fun _ => 1) 0 (dword (g.sectorSize * g.num)) fun i => if i < g.sectorSize * g.num then 0 else 1)
      g.tail (dword (g.sectorSize * maxSectorsToClear)) (fun i => if i < g.sectorSize * g.num then 0 else 1),
      g.tail + dword (g.sectorSize * maxSectorsToClear),
      [⟨dword (g.sectorSize * g.num),true⟩,⟨dword (g.sectorSize * maxSectorsToClear),true⟩]⟩) := by
  have hlt : ∀ n, dword n < 2 ^ 32 := fun n => Nat.mod_lt n (by decide)
  rw [run_eq (show callocs (g.sectorSize * g.num) = some _ from rfl)]
  dsimp only
  rw [writeFileWithRetry_accepting (hlt _),if_neg (by simp [accepting]),writeFileWithRetry_accepting (hlt _)]
  rfl

theorem fits_of_clears {g : Geometry} (h : Clears g) : Fits g := by
  have hrun := h false accepting callocs (fun _ => 1) 0 callocs_zero
  rw [run_accepting] at hrun
  have hadd := tail_add g
  have hpos := g.sectorSize_pos
  have hsectors := g.le_sectors
  have htail : dword (g.sectorSize * maxSectorsToClear) < 2 ^ 32 := Nat.mod_lt _ (by decide)
  have hhead : dword (g.sectorSize * g.num) ≤ g.sectorSize * g.num := Nat.mod_le _ _
  have hsource : dword (g.sectorSize * maxSectorsToClear) ≤ g.sectorSize * g.num :=
    hrun.sources _ (List.mem_cons_of_mem _ List.mem_cons_self)
  -- a byte that is zero has been written
  have hzero : ∀ i, overwrite (overwrite (fun _ => 1) 0 (dword (g.sectorSize * g.num))
      fun i => if i < g.sectorSize * g.num then (0 : UInt8) else 1) g.tail (dword (g.sectorSize * maxSectorsToClear))
      (fun i => if i < g.sectorSize * g.num then 0 else 1) i = 0 →
      i < dword (g.sectorSize * g.num) ∨ g.tail ≤ i ∧ i < g.tail + dword (g.sectorSize * maxSectorsToClear) := by
    intro i hi
    by_contra hout
    rw [overwrite_outside _ _ (by omega),overwrite_outside _ _ (by omega)] at hi
    exact absurd hi (by decide)
  have hleading : ∀ i < g.sectorSize * g.num, i < dword (g.sectorSize * g.num) ∨
      g.tail ≤ i ∧ i < g.tail + dword (g.sectorSize * maxSectorsToClear) :=
    fun i hi => hzero i (hrun.leading rfl i (by rwa [mul_comm]))
  constructor
  · rw [← le_num_iff]
    by_contra hnum
    have hlast : g.sectorSize * g.num + g.sectorSize ≤ g.sectorSize * maxSectorsToClear := by
      rw [← Nat.mul_succ]
      exact Nat.mul_le_mul_left _ (by omega)
    have hend : (g.sectors - 1 + 1) * g.sectorSize = g.sectors * g.sectorSize := by
      rw [Nat.sub_add_cancel (by unfold maxSectorsToClear at hsectors; omega)]
    have hstart : (g.sectors - 1) * g.sectorSize + g.sectorSize = g.sectors * g.sectorSize := by
      rw [← hend,Nat.add_mul,one_mul]
    rcases hrun.trailing rfl (g.sectors - 1) (by unfold maxSectorsToClear at hsectors; omega) (by omega) with h | h
    · rcases hzero _ (h (g.sectors * g.sectorSize - 1) (by omega) (by omega)) with h | h <;> omega
    · exact absurd h.1 (by simp)
  · by_contra hlarge
    have hwrap : dword (g.sectorSize * g.num) + 2 ^ 32 ≤ g.sectorSize * g.num := by
      unfold dword
      omega
    have hfirst := hleading (dword (g.sectorSize * g.num)) (by omega)
    have hlast := hleading (g.sectorSize * g.num - 1) (by omega)
    omega

/-- Both ends are cleared from the buffer exactly when the second write fits it. -/
theorem clearMbrGpt_iff (g : Geometry) : Clears g ↔ Fits g :=
  ⟨fits_of_clears,fun h _ _ _ _ _ hcalloc => cleared_of_fits h hcalloc⟩

/-- A drive whose first partition begins at sector 63. -/
def track63 : Geometry where
  sectorSize := 512
  sectors := 2 ^ 21
  firstDataSector := 63
  add1MB := false
  sectorSize_pos := by decide
  sectorSize_lt := by decide
  le_sectors := by decide
  diskSize_lt := by decide

/-- The second write takes 65 sectors from behind the buffer. -/
theorem clearMbrGpt_track63 : ¬Clears track63 :=
  fun h => absurd (fits_of_clears h).1 (by decide)

end Exact

end SecureWipeOut.ClearMbrGpt
