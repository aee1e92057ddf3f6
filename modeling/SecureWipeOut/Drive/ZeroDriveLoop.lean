import SecureWipeOut.Drive.ZeroDriveBlocks

/-! # The zeroing branch wipes its target

The loop invariant ties the file pointer to the byte count and says of every block
left behind why it is blank. A success is the invariant at the end of the target.
-/
namespace SecureWipeOut.ZeroDrive
open ByteStore CInt Ranges FileIO
variable (env : ℕ → Answer) (p : Params)

/-- What is known of a block the loop has left behind. -/
def Settled (data : ℕ → UInt8) (b : Block) : Prop :=
  match b.action with
  | .skipped seen => p.fastZeroing = true ∧ Blank seen 0 b.len ∧
      ∀ i < b.len, data (b.off + i) = seen i
  | .written => Uniform data b.off b.len (fillByte p)

/-- Nothing at or past the target has changed or been requested. -/
def Confined (d₀ d : Drive) : Prop :=
  (∀ i, p.diskSize ≤ i → d.data i = d₀.data i) ∧
    ∃ new, d.writes = d₀.writes ++ new ∧ ∀ w ∈ new, w.1 + w.2 ≤ p.diskSize

/-- The loop invariant. The file pointer agrees with the byte count at every
iteration, and the blocks so far tile exactly the bytes counted. -/
structure Inv (d₀ : Drive) (s : Loop) : Prop where
  pos : s.drive.pos = s.wb
  wb_le : s.wb ≤ p.diskSize
  wb_dvd : p.sectorSize ∣ s.wb
  size_dvd : p.sectorSize ∣ s.readSize
  size_pos : 0 < s.readSize
  size_lt : s.readSize < 2 ^ 32
  tiles : Tiles 0 (s.blocks.map fun b => (b.off,b.len)) s.wb
  settled : ∀ b ∈ s.blocks, Settled p s.drive.data b
  confined : Confined p d₀ s.drive

theorem Settled.of_touches {d d' : Drive} {b : Block} {off len : ℕ}
    (h : Settled p d.data b) (ht : Touches d d' off len) (hb : b.off + b.len ≤ off) :
    Settled p d'.data b := by
  unfold Settled at h ⊢
  cases ha : b.action with
  | skipped seen =>
    simp only [ha] at h ⊢
    refine ⟨h.1,h.2.1,?_⟩
    intro i hi
    rw [ht.1 _ (by omega)]
    exact h.2.2 i hi
  | written =>
    simp only [ha] at h ⊢
    exact h.of_sameOutside ht.1 (by omega)

theorem Confined.of_touches {d₀ d d' : Drive} {off len : ℕ} (h : Confined p d₀ d)
    (ht : Touches d d' off len) (hb : off + len ≤ p.diskSize) : Confined p d₀ d' := by
  obtain ⟨hs,new,hn,hm⟩ := h
  obtain ⟨hs',new',hn',hm'⟩ := ht
  refine ⟨fun i hi => ?_,new ++ new',by rw [hn',hn,List.append_assoc],?_⟩
  · rw [hs' i (by omega)]
    exact hs i hi
  · intro w hw
    rcases List.mem_append.mp hw with hw | hw
    · exact hm w hw
    · rw [hm' w hw]
      exact hb

/-- Leaving a block behind keeps the invariant, given what became of that block. -/
theorem Inv.advance {d₀ : Drive} {s : Loop} (hs : Inv p d₀ s) {d : Drive} {a : Action}
    (hfit : s.wb + s.readSize ≤ p.diskSize) (ht : Touches s.drive d s.wb s.readSize)
    (hpos : d.pos = s.wb + s.readSize) (hb : Settled p d.data ⟨s.wb,s.readSize,a⟩) :
    Inv p d₀ (advance s d a) where
  pos := hpos
  wb_le := hfit
  wb_dvd := Nat.dvd_add hs.wb_dvd hs.size_dvd
  size_dvd := hs.size_dvd
  size_pos := hs.size_pos
  size_lt := hs.size_lt
  tiles := by
    simp only [ZeroDrive.advance, List.map_append, List.map_cons, List.map_nil]
    exact hs.tiles.snoc hs.size_pos
  settled := by
    intro b hmem
    rcases List.mem_append.mp hmem with hmem | hmem
    · have hbound := (hs.tiles.mem_bounds (List.mem_map_of_mem hmem)).2
      exact (hs.settled b hmem).of_touches p ht hbound
    · rw [List.mem_singleton.mp hmem]
      exact hb
  confined := hs.confined.of_touches p ht hfit

theorem writeStep_spec {d₀ : Drive} {s : Loop} (hs : Inv p d₀ s)
    (hfit : s.wb + s.readSize ≤ p.diskSize) :
    Confined p d₀ (writeStep env p s).1.drive ∧
      ((writeStep env p s).2 = true →
        Inv p d₀ (writeStep env p s).1 ∧ (writeStep env p s).1.wb = s.wb + s.readSize) := by
  obtain ⟨ht,hok⟩ := writeTries_spec env p (n := s.readSize) writeRetries hs.pos
  unfold writeStep
  dsimp only
  split
  case isTrue h =>
    obtain ⟨hfill,hpos⟩ := hok h
    have hinv := hs.advance p (a := .written) hfit ht hpos hfill
    exact ⟨hinv.confined,fun _ => ⟨hinv,rfl⟩⟩
  case isFalse => exact ⟨hs.confined.of_touches p ht hfit,by simp⟩

theorem Inv.resize {d₀ : Drive} {s : Loop} (hs : Inv p d₀ s) (hd : p.sectorSize ∣ p.diskSize)
    (hlt : s.wb < p.diskSize) (throttle : ℕ) :
    Inv p d₀ { s with readSize := nextSize p s.wb s.readSize, throttle := throttle } ∧
      s.wb + nextSize p s.wb s.readSize ≤ p.diskSize := by
  have hn := nextSize_eq p hd hs.wb_dvd hs.size_dvd hlt hs.size_lt
  have hsz := hs.size_pos
  have hsl := hs.size_lt
  have hdvd : p.sectorSize ∣ nextSize p s.wb s.readSize := by
    rw [hn]
    rcases Nat.le_total s.readSize (p.diskSize - s.wb) with h | h
    · rw [Nat.min_eq_left h]
      exact hs.size_dvd
    · rw [Nat.min_eq_right h]
      exact Nat.dvd_sub hd hs.wb_dvd
  exact ⟨{ hs with
    size_dvd := hdvd
    size_pos := by dsimp only; omega
    size_lt := by dsimp only; omega },by omega⟩

theorem Inv.reposition {d₀ : Drive} {s : Loop} (hs : Inv p d₀ s) {d : Drive}
    (hpos : d.pos = s.wb) (hdata : d.data = s.drive.data) (hw : d.writes = s.drive.writes) :
    Inv p d₀ { s with drive := d } :=
  { hs with
    pos := hpos
    settled := by rw [hdata]; exact hs.settled
    confined := by unfold Confined; rw [hdata,hw]; exact hs.confined }

/-- One iteration: confined to the target whatever happens, and when the loop
goes on, the invariant holds again further along. -/
theorem zeroStep_spec {d₀ : Drive} {s : Loop} (hs : Inv p d₀ s) (hd : p.sectorSize ∣ p.diskSize)
    (h4 : 4 ∣ p.sectorSize) (hlt : s.wb < p.diskSize) :
    Confined p d₀ (zeroStep env p s).1.drive ∧
      ((zeroStep env p s).2 = true →
        Inv p d₀ (zeroStep env p s).1 ∧ s.wb < (zeroStep env p s).1.wb) := by
  obtain ⟨hr,hfit⟩ := hs.resize p hd hlt s.throttle
  have hsz : 0 < nextSize p s.wb s.readSize := hr.size_pos
  rw [zeroStep]
  dsimp only
  split
  · obtain ⟨hc,hok⟩ := writeStep_spec env p (hs.resize p hd hlt (s.throttle - 1)).1 hfit
    exact ⟨hc,fun h => ⟨(hok h).1,by rw [(hok h).2]; dsimp only; omega⟩⟩
  · split
    · split
      · exact ⟨hr.confined,by simp⟩
      · split
        · exact ⟨hr.confined,by simp⟩
        · rename_i hfast _ hread
          simp only [Bool.or_eq_true, Bool.not_eq_true', bne_iff_ne, ne_eq, not_or,
            Bool.not_eq_false, Decidable.not_not] at hread
          obtain ⟨hbuf,hpos⟩ := readFile_complete env hread.1 hread.2
          rw [hs.pos] at hbuf hpos
          have ht : Touches s.drive (readFile env (nextSize p s.wb s.readSize) s.drive).drive
              s.wb (nextSize p s.wb s.readSize) := Touches.of_eq _ _ rfl rfl
          split
          case isTrue hempty =>
            have hblank := emptyBlock_blank (h4.trans hr.size_dvd) hempty
            have hinv := hr.advance p hfit ht hpos
              (a := .skipped (readFile env (nextSize p s.wb s.readSize) s.drive).buf)
              ⟨hfast,hblank,fun i hi => (hbuf i hi).symm⟩
            exact ⟨hinv.confined,fun _ => ⟨hinv,by simp only [advance]; omega⟩⟩
          case isFalse =>
            split
            case isTrue hok =>
              have hback := (hs.resize p hd hlt 15).1
              obtain ⟨hc,hgo⟩ := writeStep_spec env p
                (hback.reposition p (setFilePointerEx_pos env hok) rfl rfl) hfit
              exact ⟨hc,fun h => ⟨(hgo h).1,by rw [(hgo h).2]; dsimp only; omega⟩⟩
            case isFalse => exact ⟨hr.confined,by simp⟩
    · obtain ⟨hc,hok⟩ := writeStep_spec env p hr hfit
      exact ⟨hc,fun h => ⟨(hok h).1,by rw [(hok h).2]; dsimp only; omega⟩⟩

/-- The whole loop: it ends within one iteration per byte of the target. -/
theorem zeroLoop_spec {d₀ : Drive} (hd : p.sectorSize ∣ p.diskSize) (h4 : 4 ∣ p.sectorSize)
    (fuel : ℕ) {s : Loop} (hs : Inv p d₀ s) (hfuel : p.diskSize ≤ s.wb + fuel) :
    ∃ t ok, zeroLoop env p fuel s = some (t,ok) ∧ Confined p d₀ t.drive ∧
      (ok = true → Inv p d₀ t ∧ t.wb = p.diskSize) := by
  induction fuel generalizing s with
  | zero =>
    have hwb := hs.wb_le
    refine ⟨s,true,?_,hs.confined,fun _ => ⟨hs,by omega⟩⟩
    rw [zeroLoop,if_neg (by omega)]
  | succ fuel ih =>
    rw [zeroLoop]
    split
    case isTrue hlt =>
      obtain ⟨hc,hgo⟩ := zeroStep_spec env p hs hd h4 hlt
      dsimp only
      split
      case isTrue h =>
        obtain ⟨hinv,hmore⟩ := hgo h
        exact ih hinv (by omega)
      case isFalse h => exact ⟨_,_,rfl,hc,fun h' => absurd h' h⟩
    case isFalse hge =>
      have hwb := hs.wb_le
      exact ⟨s,true,rfl,hs.confined,fun _ => ⟨hs,by omega⟩⟩

theorem sectorSize_words {available : Bool} (hs : 512 ≤ p.sectorSize)
    (h : mmMalloc available p.sectorSize = true) : 4 ∣ p.sectorSize := by
  simp only [mmMalloc, Bool.and_eq_true, beq_iff_eq] at h
  have hlog : 2 ≤ p.sectorSize.log2 := (Nat.le_log2 (by omega)).mpr (by omega)
  rw [← h.2]
  exact pow_dvd_pow 2 hlog

theorem initial_inv {d : Drive} (hs : 512 ≤ p.sectorSize)
    (hrewind : (setFilePointerEx env 0 d).1 = true) :
    Inv p d ⟨0,bufSize p.sectorSize,0,(setFilePointerEx env 0 d).2,[]⟩ := by
  obtain ⟨hdvd,hpos,hlt⟩ := bufSize_spec p hs
  exact
    { pos := setFilePointerEx_pos env hrewind
      wb_le := Nat.zero_le _
      wb_dvd := dvd_zero _
      size_dvd := hdvd
      size_pos := hpos
      size_lt := hlt
      tiles := rfl
      settled := by simp
      confined := ⟨fun _ _ => rfl,[],by simp [setFilePointerEx_writes],by simp⟩ }

theorem Settled.blank {data : ℕ → UInt8} {b : Block} (h : Settled p data b) :
    Blank data b.off b.len := by
  unfold Settled at h
  cases ha : b.action with
  | skipped seen =>
    simp only [ha] at h
    have hsame : ∀ v, Uniform seen 0 b.len v → Uniform data b.off b.len v := by
      intro v hv i hi hi'
      have hi2 := h.2.2 (i - b.off) (by omega)
      rw [Nat.add_sub_cancel' hi] at hi2
      rw [hi2]
      exact hv _ (Nat.zero_le _) (by omega)
    exact h.2.1.imp (hsame _) (hsame _)
  | written =>
    simp only [ha,fillByte] at h
    split at h
    · exact Or.inr h
    · exact Or.inl h

theorem Settled.zero {data : ℕ → UInt8} {b : Block} (h : Settled p data b)
    (hplain : p.fastZeroing = false) : Uniform data b.off b.len 0x00 := by
  unfold Settled at h
  cases ha : b.action with
  | skipped seen => simp [ha,hplain] at h
  | written => simpa [ha,fillByte,hplain] using h

theorem Inv.uniform_zero {d₀ : Drive} {s : Loop} (hs : Inv p d₀ s)
    (hplain : p.fastZeroing = false) : Uniform s.drive.data 0 s.wb 0x00 := by
  intro i hi hi'
  obtain ⟨r,hr,hlo,hhi⟩ := hs.tiles.exists_mem hi (by omega)
  obtain ⟨b,hb,rfl⟩ := List.mem_map.mp hr
  exact (hs.settled b hb).zero p hplain i hlo hhi

/-- The branch ends for every sequence of answers; when it reports success,
the blocks gone through tile the target, each is uniform (all zeros in plain
mode), the skipped ones read blank and are as they were read, and neither the
bytes nor the requests reach past the target. -/
theorem writeDrive_zeroing (d : Drive) (hd : p.sectorSize ∣ p.diskSize)
    (hrewind : (setFilePointerEx env 0 d).1 = true) :
    ∃ t ok, writeDrive env p d = some (t,ok) ∧ (ok = true →
      Confined p d t.drive ∧
      (p.fastZeroing = false → Uniform t.drive.data 0 p.diskSize 0x00) ∧
      Tiles 0 (t.blocks.map fun b => (b.off,b.len)) p.diskSize ∧
      (∀ b ∈ t.blocks, Blank t.drive.data b.off b.len) ∧
      ∀ b ∈ t.blocks, ∀ seen, b.action = .skipped seen →
        Blank seen 0 b.len ∧ ∀ i < b.len, t.drive.data (b.off + i) = seen i) := by
  unfold writeDrive
  dsimp only
  split
  · exact ⟨_,_,rfl,by simp⟩
  · split
    · exact ⟨_,_,rfl,by simp⟩
    · split
      · exact ⟨_,_,rfl,by simp⟩
      · rename_i hs hm _
        have hsz : 512 ≤ p.sectorSize := by omega
        have h4 := sectorSize_words p hsz (by simpa using hm)
        obtain ⟨t,ok,ht,hc,hok⟩ := zeroLoop_spec env p hd h4 p.diskSize
          (initial_inv env p hsz hrewind) (by simp)
        refine ⟨t,ok,ht,fun h => ?_⟩
        obtain ⟨hinv,hwb⟩ := hok h
        refine ⟨hc,fun hplain => hwb ▸ hinv.uniform_zero p hplain,hwb ▸ hinv.tiles,?_,?_⟩
        · exact fun b hb => (hinv.settled b hb).blank p
        · intro b hb seen ha
          have hb' := hinv.settled b hb
          simp only [Settled,ha] at hb'
          exact hb'.2

/-- A two-sector drive of user data in fast mode, every call succeeding. -/
theorem writeDrive_zeroing_two_sectors :
    let env : ℕ → Answer := fun _ => ⟨true,2 ^ 32,fun _ => 0,0,false⟩
    let p : Params := ⟨1024,512,true,true,true,by decide,by decide⟩
    let d : Drive := ⟨fun _ => 0x41,7,0,[]⟩
    ∃ t, writeDrive env p d = some (t,true) ∧ t.blocks.length = 1 ∧
      ∀ b ∈ t.blocks, Blank t.drive.data b.off b.len := by
  intro env p d
  obtain ⟨t,ok,ht,hok⟩ := writeDrive_zeroing env p d (by decide) rfl
  have hrun : (writeDrive env p d).map (fun r => (r.2,r.1.blocks.length)) = some (true,1) := by
    decide +kernel
  rw [ht] at hrun
  simp only [Option.map_some, Option.some.injEq, Prod.mk.injEq] at hrun
  obtain ⟨rfl,hlen⟩ := hrun
  exact ⟨t,ht,hlen,(hok rfl).2.2.2.1⟩

end SecureWipeOut.ZeroDrive
