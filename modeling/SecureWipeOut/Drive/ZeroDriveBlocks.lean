import SecureWipeOut.Drive.ZeroDrive

/-! # One block of the zeroing branch

Which blocks the comparison lets pass, how large the transfers are, and what the
attempts to write a block can leave behind.
-/
namespace SecureWipeOut.ZeroDrive
open ByteStore CInt Ranges FileIO
variable (env : ℕ → Answer) (p : Params)

theorem cmpWord_bytes {buf : ℕ → UInt8} {i v : ℕ} (hv : v = 0 ∨ v = 255)
    (h : cmpWord buf i = v * 0x01010101) {j : ℕ} (hj : j < 4) : (buf (4 * i + j)).toNat = v := by
  have h0 := (buf (4 * i)).toNat_lt
  have h1 := (buf (4 * i + 1)).toNat_lt
  have h2 := (buf (4 * i + 2)).toNat_lt
  have h3 := (buf (4 * i + 3)).toNat_lt
  unfold cmpWord at h
  obtain rfl | rfl | rfl | rfl : j = 0 ∨ j = 1 ∨ j = 2 ∨ j = 3 := by omega
  · rw [Nat.add_zero]
    omega
  all_goals omega

/-- Every byte is the same one of the two values that count as erased. -/
def Blank (s : ℕ → UInt8) (off len : ℕ) : Prop :=
  Uniform s off len 0x00 ∨ Uniform s off len 0xff

theorem uniform_of_words {cmp : ℕ → UInt8} {n : ℕ} (hn : 4 ∣ n) {v : UInt8}
    (hv : v.toNat = 0 ∨ v.toNat = 255)
    (h : ∀ i < n / 4, cmpWord cmp i = v.toNat * 0x01010101) : Uniform cmp 0 n v := by
  intro i _ hi
  have hb := cmpWord_bytes hv (h (i / 4) (by omega)) (j := i % 4) (by omega)
  rw [Nat.div_add_mod] at hb
  exact UInt8.toNat_inj.mp hb

/-- The word-wise comparison looks at every byte of a buffer of whole words. -/
theorem emptyBlock_blank {cmp : ℕ → UInt8} {n : ℕ} (hn : 4 ∣ n)
    (h : emptyBlock cmp n = true) : Blank cmp 0 n := by
  simp only [emptyBlock, Bool.and_eq_true, Bool.or_eq_true, beq_iff_eq, List.all_eq_true,
    List.mem_range'_1] at h
  obtain ⟨hz,hall⟩ := h
  have hw : ∀ i < n / 4, cmpWord cmp i = cmpWord cmp 0 := by
    intro i hi
    rcases Nat.eq_zero_or_pos i with rfl | hp
    · rfl
    · exact hall i (by omega)
  rcases hz with hz | hz
  · exact Or.inl (uniform_of_words hn (Or.inl rfl) (fun i hi => by rw [hw i hi,hz]; rfl))
  · exact Or.inr (uniform_of_words hn (Or.inr rfl) (fun i hi => by rw [hw i hi,hz]; rfl))

theorem bufSize_spec (hs : 512 ≤ p.sectorSize) :
    p.sectorSize ∣ bufSize p.sectorSize ∧ 0 < bufSize p.sectorSize ∧
      bufSize p.sectorSize < 2 ^ 32 := by
  have hss := p.sectorSize_lt
  have hpos : 0 < p.sectorSize := by omega
  have hc : bufSize p.sectorSize = dword (ceilAlign ddBufferSize p.sectorSize) := rfl
  have hge := le_ceilAlign ddBufferSize hpos
  have hlt : ceilAlign ddBufferSize p.sectorSize < 2 ^ 32 := by
    by_cases hbig : p.sectorSize ≤ ddBufferSize
    · have := ceilAlign_lt ddBufferSize hpos
      unfold ddBufferSize at *
      omega
    · have hone : (ddBufferSize + p.sectorSize - 1) / p.sectorSize = 1 := by
        apply Nat.div_eq_of_lt_le <;> unfold ddBufferSize at * <;> omega
      unfold ceilAlign
      rw [hone]
      omega
  rw [hc,dword_of_lt hlt]
  refine ⟨dvd_ceilAlign _ _,?_,hlt⟩
  unfold ddBufferSize at hge ⊢
  omega

/-- With whole sectors throughout, the next transfer is the buffer or what is left. -/
theorem nextSize_eq {wb readSize : ℕ} (hd : p.sectorSize ∣ p.diskSize) (hw : p.sectorSize ∣ wb)
    (hr : p.sectorSize ∣ readSize) (hlt : wb < p.diskSize) (hsz : readSize < 2 ^ 32) :
    nextSize p wb readSize = min readSize (p.diskSize - wb) := by
  unfold nextSize
  by_cases hover : wb + readSize > p.diskSize
  · have hfit : dword (p.diskSize - wb) = p.diskSize - wb := dword_of_lt (by omega)
    have hmod : (p.diskSize - wb) % p.sectorSize = 0 :=
      Nat.mod_eq_zero_of_dvd (Nat.dvd_sub hd hw)
    simp only [if_pos hover,hfit,hmod,ne_eq,not_true,if_false]
    omega
  · have hmod := Nat.mod_eq_zero_of_dvd hr
    simp only [if_neg hover,hmod,ne_eq,not_true,if_false]
    omega

/-- Only the block under work may change, and only it is ever requested. -/
def Touches (d d' : Drive) (off len : ℕ) : Prop :=
  SameOutside d.data d'.data off len ∧
    ∃ new, d'.writes = d.writes ++ new ∧ ∀ w ∈ new, w = (off,len)

theorem Touches.of_eq {d d' : Drive} (off len : ℕ) (hd : d'.data = d.data)
    (hw : d'.writes = d.writes) : Touches d d' off len :=
  ⟨fun _ _ => by rw [hd],[],by simp [hw],by simp⟩

theorem Touches.trans {d d' d'' : Drive} {off len : ℕ} (h : Touches d d' off len)
    (h' : Touches d' d'' off len) : Touches d d'' off len := by
  obtain ⟨hs,new,hn,hm⟩ := h
  obtain ⟨hs',new',hn',hm'⟩ := h'
  refine ⟨hs.trans hs',new ++ new',by rw [hn',hn,List.append_assoc],?_⟩
  intro w hw
  rcases List.mem_append.mp hw with hw | hw
  · exact hm w hw
  · exact hm' w hw

theorem writeFile_touches (buf : ℕ → UInt8) (n : ℕ) (d : Drive) :
    Touches d (writeFile env buf n d).drive d.pos n :=
  ⟨writeFile_sameOutside env buf n d,_,writeFile_writes env buf n d,by simp⟩

/-- The attempts stay inside the block; one that succeeds leaves it entirely
filled and the file pointer right behind it. -/
theorem writeTries_spec {wb n : ℕ} (tries : ℕ) {d : Drive} (hpos : d.pos = wb) :
    Touches d (writeTries env p wb n tries d).1 wb n ∧
      ((writeTries env p wb n tries d).2 = true →
        Uniform (writeTries env p wb n tries d).1.data wb n (fillByte p) ∧
          (writeTries env p wb n tries d).1.pos = wb + n) := by
  induction tries generalizing d with
  | zero => exact ⟨Touches.of_eq _ _ rfl rfl,by simp [writeTries]⟩
  | succ tries ih =>
    rw [writeTries]
    split
    · exact ⟨Touches.of_eq _ _ rfl rfl,by simp⟩
    · have ht := writeFile_touches env (fun _ => fillByte p) n d
      rw [hpos] at ht
      dsimp only
      split
      case isTrue hfull =>
        simp only [Bool.and_eq_true, beq_iff_eq] at hfull
        obtain ⟨hdata,hp⟩ := writeFile_complete env hfull.1 hfull.2
        rw [hpos] at hdata hp
        exact ⟨ht,fun _ => ⟨hdata,hp⟩⟩
      case isFalse =>
        split
        · exact ⟨ht,by simp⟩
        · have hseek := ht.trans (Touches.of_eq wb n
            (setFilePointerEx_data env wb _) (setFilePointerEx_writes env wb _))
          split
          case isTrue hok =>
            obtain ⟨ih1,ih2⟩ := ih (setFilePointerEx_pos env hok)
            exact ⟨hseek.trans ih1,ih2⟩
          case isFalse => exact ⟨hseek,by simp⟩

end SecureWipeOut.ZeroDrive
