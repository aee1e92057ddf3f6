import Mathlib.Data.Nat.Bitwise
import SecureWipeOut.Lib.Bytes

/-! # The map of the Syslinux loader

The sectors of ldlinux.sys are written into the loader itself: the first one into the boot
sector, the next ones as extents of successive sectors and the last two on their own. The words
of the loader are then brought to a known sum.
-/
namespace SecureWipeOut.SyslinuxPatch
open CInt ByteStore Bytes

def ldlinuxMagic : ℕ := 0x3eb202fe

def qwordBytes (n : ℕ) : List UInt8 := dwordBytes n ++ dwordBytes (n / 2 ^ 32)

def readQword (mem : ℕ → UInt8) (a : ℕ) : ℕ := readDword mem a + 2 ^ 32 * readDword mem (a + 4)

theorem length_qwordBytes (n : ℕ) : (qwordBytes n).length = 8 := rfl

theorem dwordBytes_mod (n : ℕ) : dwordBytes (n % 2 ^ 32) = dwordBytes n := by
  simp only [dwordBytes,wordBytes,List.cons_append,List.nil_append,List.cons.injEq,
    ← UInt8.toNat_inj,UInt8.toNat_ofNat']
  exact ⟨by omega,by omega,by omega,by omega,trivial⟩

theorem readDword_of_holds {mem : ℕ → UInt8} {a n : ℕ} (h : Holds mem a (dwordBytes n)) :
    readDword mem a = n % 2 ^ 32 := by
  rw [← dwordBytes_mod] at h
  exact h.readDword (Nat.mod_lt _ (by norm_num))

theorem readQword_of_holds {mem : ℕ → UInt8} {a n : ℕ} (h : Holds mem a (qwordBytes n))
    (hn : n < 2 ^ 64) : readQword mem a = n := by
  obtain ⟨hlow,hhigh⟩ := holds_append.mp h
  have hhigh' : readDword mem (a + 4) = n / 2 ^ 32 % 2 ^ 32 := readDword_of_holds hhigh
  rw [readQword,readDword_of_holds hlow,hhigh',Nat.mod_eq_of_lt (show n / 2 ^ 32 < 2 ^ 32 by omega)]
  exact Nat.mod_add_div n _

section extents
variable (sectorSize : ℕ)

/-- Successive sectors from the first one on. -/
structure Extent where
  lba : UInt64
  len : ℕ
  deriving DecidableEq

/-- The variables of generate_extents, with the place of the next extent in the image. -/
structure ExtentLoop where
  addr : ℕ
  base : ℕ
  cur : Extent
  ex : ℕ
  image : ℕ → UInt8

def setExtent (image : ℕ → UInt8) (ex : ℕ) (e : Extent) : ℕ → UInt8 :=
  write (write image ex (qwordBytes e.lba.toNat)) (ex + 8) (wordBytes e.len)

/-- Whether the sector can be added to the current extent. -/
def joins (addr base : ℕ) (cur : Extent) (sect : UInt64) : Bool :=
  let xbytes := dword ((cur.len + 1) * sectorSize)
  decide (sect = cur.lba + UInt64.ofNat cur.len) && decide (xbytes < 65536) &&
    decide ((addr ^^^ dsub (dword (base + xbytes)) 1) &&& 0xffff0000 = 0)

def extentStep (s : ExtentLoop) (sect : UInt64) : ExtentLoop :=
  let addr := dword (s.addr + sectorSize)
  if s.cur.len = 0 then ⟨addr,s.addr,⟨sect,1⟩,s.ex,s.image⟩
  else if joins sectorSize s.addr s.base s.cur sect then
    ⟨addr,s.base,⟨s.cur.lba,s.cur.len + 1⟩,s.ex,s.image⟩
  else ⟨addr,s.addr,⟨sect,1⟩,s.ex + 10,setExtent s.image s.ex s.cur⟩

/-- The last extent is written behind the loop. -/
def ExtentLoop.finish (s : ExtentLoop) : ℕ → UInt8 :=
  if s.cur.len = 0 then s.image else setExtent s.image s.ex s.cur

def generateExtents (image : ℕ → UInt8) (ex nptrs : ℕ) (sectors : List UInt64) : ℕ → UInt8 :=
  (sectors.foldl (extentStep sectorSize)
    ⟨0x8000,0x8000,⟨0,0⟩,ex,overwrite image ex (nptrs * 10) fun _ => 0⟩).finish

/-- What one extent stands for. -/
def Extent.sectors (e : Extent) : List UInt64 :=
  (List.range e.len).map fun i => e.lba + UInt64.ofNat i

def Extent.bytes (e : Extent) : List UInt8 := qwordBytes e.lba.toNat ++ wordBytes e.len

theorem Extent.length_bytes (e : Extent) : e.bytes.length = 10 := rfl

/-- Whether the extent could take another sector in. -/
def Extent.Takes (e : Extent) (sect : UInt64) : Prop :=
  sect = e.lba + UInt64.ofNat e.len ∧ (e.len + 1) * sectorSize < 65536

instance (e : Extent) (sect : UInt64) : Decidable (e.Takes sectorSize sect) :=
  inferInstanceAs (Decidable (_ ∧ _))

/-- The extents from the current one on. -/
def extentsFrom (cur : Extent) : List UInt64 → List Extent
  | [] => [cur]
  | sect :: rest =>
    if cur.Takes sectorSize sect then extentsFrom ⟨cur.lba,cur.len + 1⟩ rest
    else cur :: extentsFrom ⟨sect,1⟩ rest

def extents : List UInt64 → List Extent
  | [] => []
  | sect :: rest => extentsFrom sectorSize ⟨sect,1⟩ rest

end extents

section boundary

theorem and_upper_half {x : ℕ} (h : x < 2 ^ 32) : x &&& 0xffff0000 = x / 65536 * 65536 := by
  have hmask : 0xffff0000 = (2 ^ 16 - 1) <<< 16 := by norm_num [Nat.shiftLeft_eq]
  have hshift : x / 65536 * 65536 = (x >>> 16) <<< 16 := by
    rw [Nat.shiftLeft_eq,Nat.shiftRight_eq_div_pow]
  rw [hmask,hshift]
  apply Nat.eq_of_testBit_eq
  intro i
  rw [Nat.testBit_and,Nat.testBit_shiftLeft,Nat.testBit_shiftLeft,Nat.testBit_two_pow_sub_one,
    Nat.testBit_shiftRight]
  by_cases hi : 16 ≤ i
  · by_cases hlt : i < 32
    · simp [hi,show i - 16 < 16 by omega]
    · have hzero : x.testBit i = false :=
        Nat.testBit_lt_two_pow (h.trans_le (Nat.pow_le_pow_right (by norm_num) (by omega)))
      simp [hi,hzero]
  · simp [hi]

/-- Two addresses differ in their upper halves when they are in different 64 KiB. -/
theorem xor_and_upper_half {a b : ℕ} (ha : a < 2 ^ 32) (hb : b < 2 ^ 32) :
    (a ^^^ b) &&& 0xffff0000 = 0 ↔ a / 65536 = b / 65536 := by
  have hdiv : (a ^^^ b) / 65536 = (a / 65536) ^^^ (b / 65536) :=
    Nat.xor_div_two_pow (n := 16)
  rw [and_upper_half (Nat.xor_lt_two_pow ha hb),hdiv,Nat.mul_eq_zero,Nat.xor_eq_zero_iff]
  simp

variable {sectorSize addr base : ℕ} {cur : Extent}

/-- A sector never reaches over a boundary that the sector size divides. -/
theorem sector_inside (hpos : 0 < sectorSize) (hdvd : sectorSize ∣ 65536) (ha : sectorSize ∣ addr) :
    addr / 65536 = (addr + (sectorSize - 1)) / 65536 := by
  obtain ⟨c,hc⟩ := hdvd
  obtain ⟨d,rfl⟩ := ha
  rw [hc,← Nat.div_div_eq_div_mul,← Nat.div_div_eq_div_mul,Nat.mul_div_cancel_left d hpos,
    Nat.mul_add_div hpos,Nat.div_eq_of_lt (Nat.sub_lt hpos Nat.one_pos),Nat.add_zero]

/-- What the loop compares is the first and the last byte of one sector, so the comparison of
the upper halves never fails. -/
theorem joins_iff (hpos : 0 < sectorSize) (hdvd : sectorSize ∣ 0x8000) (ha : sectorSize ∣ addr)
    (hlt : addr < 2 ^ 32) (hbase : addr = dword (base + cur.len * sectorSize))
    (hcur : cur.len * sectorSize < 65536) (sect : UInt64) :
    joins sectorSize addr base cur sect = true ↔ cur.Takes sectorSize sect := by
  have hsize : sectorSize ≤ 0x8000 := Nat.le_of_dvd (by norm_num) hdvd
  have hdvd' : sectorSize ∣ 65536 := hdvd.trans (by norm_num)
  have hmul : (cur.len + 1) * sectorSize = cur.len * sectorSize + sectorSize := Nat.succ_mul _ _
  have hx : dword ((cur.len + 1) * sectorSize) = (cur.len + 1) * sectorSize :=
    dword_of_lt (by omega)
  have hroom : addr + sectorSize ≤ 2 ^ 32 := by
    have h32 : sectorSize ∣ 2 ^ 32 := hdvd.trans (by norm_num)
    obtain ⟨c,hc⟩ := h32
    obtain ⟨d,rfl⟩ := ha
    rw [hc] at hlt ⊢
    have hcd : d < c := lt_of_mul_lt_mul_left hlt (Nat.zero_le _)
    calc sectorSize * d + sectorSize = sectorSize * (d + 1) := (Nat.mul_succ _ _).symm
      _ ≤ sectorSize * c := Nat.mul_le_mul_left _ hcd
  have hend : dsub (dword (base + (cur.len + 1) * sectorSize)) 1 = addr + (sectorSize - 1) := by
    unfold dword at hbase
    unfold dsub dword
    omega
  have hsame : (addr ^^^ (addr + (sectorSize - 1))) &&& 0xffff0000 = 0 :=
    (xor_and_upper_half hlt (by omega)).mpr (sector_inside hpos hdvd' ha)
  unfold joins Extent.Takes
  simp only [hx,hend,hsame,decide_true,Bool.and_true,Bool.and_eq_true,decide_eq_true_eq]

end boundary

section writing
variable {sectorSize : ℕ} {image : ℕ → UInt8} {ex : ℕ} {es : List Extent}

def writeExtents (image : ℕ → UInt8) (ex : ℕ) : List Extent → ℕ → UInt8
  | [] => image
  | e :: es => writeExtents (setExtent image ex e) (ex + 10) es

theorem setExtent_outside (e : Extent) {i : ℕ} (h : i < ex ∨ ex + 10 ≤ i) :
    setExtent image ex e i = image i := by
  unfold setExtent write
  rw [overwrite_outside _ _ (by rw [length_wordBytes]; omega),
    overwrite_outside _ _ (by rw [length_qwordBytes]; omega)]

theorem setExtent_holds (image : ℕ → UInt8) (ex : ℕ) (e : Extent) :
    Holds (setExtent image ex e) ex e.bytes := by
  refine holds_append.mpr ⟨?_,holds_write _ _ _⟩
  exact (holds_write image ex _).write (Or.inl le_rfl)

theorem writeExtents_outside {i : ℕ} (h : i < ex ∨ ex + 10 * es.length ≤ i) :
    writeExtents image ex es i = image i := by
  induction es generalizing image ex with
  | nil => rfl
  | cons e es ih =>
    rw [List.length_cons] at h
    exact (ih (by omega)).trans (setExtent_outside e (by omega))

theorem writeExtents_holds (image : ℕ → UInt8) (ex : ℕ) (es : List Extent) :
    Holds (writeExtents image ex es) ex (es.flatMap Extent.bytes) := by
  induction es generalizing image ex with
  | nil => trivial
  | cons e es ih =>
    rw [List.flatMap_cons]
    refine holds_append.mpr ⟨?_,ih _ _⟩
    exact (holds_congr fun i _ hi => writeExtents_outside (Or.inl hi)).mpr (setExtent_holds image ex e)

/-- An extent as it is read back. -/
def readExtent (image : ℕ → UInt8) (ex : ℕ) : Extent :=
  ⟨UInt64.ofNat (readQword image ex),readWord image (ex + 8)⟩

theorem readExtent_of_holds {e : Extent} (h : Holds image ex e.bytes) (hlen : e.len < 65536) :
    readExtent image ex = e := by
  obtain ⟨hlba,hword⟩ := holds_append.mp h
  have hword' : readWord image (ex + 8) = e.len := hword.readWord.trans (Nat.mod_eq_of_lt hlen)
  rw [readExtent,readQword_of_holds hlba e.lba.toNat_lt,hword',UInt64.ofNat_toNat]

theorem holds_extent (h : Holds image ex (es.flatMap Extent.bytes)) {i : ℕ} {e : Extent}
    (he : es[i]? = some e) : Holds image (ex + 10 * i) e.bytes := by
  induction es generalizing ex i with
  | nil => cases he
  | cons d es ih =>
    rw [List.flatMap_cons] at h
    obtain ⟨hd,hes⟩ := holds_append.mp h
    cases i with
    | zero =>
      obtain rfl : d = e := Option.some.inj he
      exact hd
    | succ i =>
      have hnext := ih hes he
      rwa [d.length_bytes,Nat.add_assoc,Nat.add_comm 10,← Nat.mul_succ] at hnext

end writing

section loop
variable {sectorSize : ℕ}

/-- What the loop has written in the end, from a state with a current extent on. -/
theorem finish_foldl (hpos : 0 < sectorSize) (hdvd : sectorSize ∣ 0x8000) {rest : List UInt64}
    {s : ExtentLoop} (hne : s.cur.len ≠ 0) (hcur : s.cur.len * sectorSize < 65536)
    (ha : sectorSize ∣ s.addr) (hlt : s.addr < 2 ^ 32)
    (hbase : s.addr = dword (s.base + s.cur.len * sectorSize)) :
    (rest.foldl (extentStep sectorSize) s).finish =
      writeExtents s.image s.ex (extentsFrom sectorSize s.cur rest) := by
  induction rest generalizing s with
  | nil => exact if_neg hne
  | cons sect rest ih =>
    have hsize : sectorSize ≤ 0x8000 := Nat.le_of_dvd (by norm_num) hdvd
    have hnext : sectorSize ∣ dword (s.addr + sectorSize) :=
      (Nat.dvd_mod_iff (hdvd.trans (by norm_num))).mpr (ha.add (dvd_refl _))
    have hsmall : dword (s.addr + sectorSize) < 2 ^ 32 := Nat.mod_lt _ (by norm_num)
    have hjoins := joins_iff hpos hdvd ha hlt hbase hcur sect
    rw [List.foldl_cons,extentStep,if_neg hne,extentsFrom]
    by_cases htakes : s.cur.Takes sectorSize sect
    · rw [if_pos (hjoins.mpr htakes),if_pos htakes]
      refine ih (Nat.succ_ne_zero _) htakes.2 hnext hsmall ?_
      have hmul : (s.cur.len + 1) * sectorSize = s.cur.len * sectorSize + sectorSize :=
        Nat.succ_mul _ _
      simp only [hmul]
      unfold dword at hbase ⊢
      omega
    · rw [if_neg (mt hjoins.mp htakes),if_neg htakes]
      refine ih Nat.one_ne_zero ?_ hnext hsmall ?_
      · simp only [Nat.one_mul]
        omega
      · simp only [Nat.one_mul]

theorem generateExtents_eq (hpos : 0 < sectorSize) (hdvd : sectorSize ∣ 0x8000)
    (image : ℕ → UInt8) (ex nptrs : ℕ) (sectors : List UInt64) :
    generateExtents sectorSize image ex nptrs sectors =
      writeExtents (overwrite image ex (nptrs * 10) fun _ => 0) ex (extents sectorSize sectors) := by
  cases sectors with
  | nil => rfl
  | cons sect rest =>
    have hsize : sectorSize ≤ 0x8000 := Nat.le_of_dvd (by norm_num) hdvd
    rw [generateExtents,List.foldl_cons,extentStep,if_pos rfl,extents]
    refine finish_foldl hpos hdvd Nat.one_ne_zero ?_ ?_ (Nat.mod_lt _ (by norm_num)) ?_
    · simp only [Nat.one_mul]
      omega
    · exact (Nat.dvd_mod_iff (hdvd.trans (by norm_num))).mpr (hdvd.add (dvd_refl _))
    · simp only [Nat.one_mul]

end loop

section extents
variable {sectorSize : ℕ}

theorem Extent.sectors_one (sect : UInt64) : (⟨sect,1⟩ : Extent).sectors = [sect] := by
  rw [Extent.sectors,List.range_one,List.map_singleton]
  exact congrArg (fun x => [x]) (UInt64.add_zero sect)

theorem extentsFrom_sectors (cur : Extent) (rest : List UInt64) :
    (extentsFrom sectorSize cur rest).flatMap Extent.sectors = cur.sectors ++ rest := by
  induction rest generalizing cur with
  | nil => rw [extentsFrom,List.flatMap_singleton,List.append_nil]
  | cons sect rest ih =>
    rw [extentsFrom]
    split
    next htakes =>
      have hgrown : (⟨cur.lba,cur.len + 1⟩ : Extent).sectors = cur.sectors ++ [sect] := by
        rw [Extent.sectors,List.range_succ,List.map_append,List.map_singleton,← htakes.1]
        rfl
      rw [ih,hgrown,List.append_assoc,List.singleton_append]
    next => rw [List.flatMap_cons,ih,Extent.sectors_one,List.singleton_append]

/-- The extents stand for the sectors, in their order. -/
theorem extents_sectors (sectors : List UInt64) :
    (extents sectorSize sectors).flatMap Extent.sectors = sectors := by
  cases sectors with
  | nil => rfl
  | cons sect rest =>
    rw [extents,extentsFrom_sectors,Extent.sectors_one,List.singleton_append]

theorem extentsFrom_len {cur : Extent} (hne : 0 < cur.len) (hcur : cur.len * sectorSize < 65536)
    (hsize : sectorSize < 65536) (rest : List UInt64) :
    ∀ e ∈ extentsFrom sectorSize cur rest, 0 < e.len ∧ e.len * sectorSize < 65536 := by
  induction rest generalizing cur with
  | nil =>
    intro e he
    obtain rfl := List.mem_singleton.mp he
    exact ⟨hne,hcur⟩
  | cons sect rest ih =>
    rw [extentsFrom]
    split
    next htakes => exact ih (Nat.succ_pos _) htakes.2
    next =>
      refine List.forall_mem_cons.mpr ⟨⟨hne,hcur⟩,ih Nat.one_pos ?_⟩
      rwa [Nat.one_mul]

theorem extents_len {sectors : List UInt64} (hsize : sectorSize < 65536) :
    ∀ e ∈ extents sectorSize sectors, 0 < e.len ∧ e.len * sectorSize < 65536 := by
  cases sectors with
  | nil => exact List.forall_mem_nil _
  | cons sect rest => exact extentsFrom_len Nat.one_pos (by rwa [Nat.one_mul]) hsize rest

theorem extentsFrom_lba (cur : Extent) (rest : List UInt64) :
    ∃ len es, extentsFrom sectorSize cur rest = ⟨cur.lba,len⟩ :: es := by
  induction rest generalizing cur with
  | nil => exact ⟨cur.len,[],rfl⟩
  | cons sect rest ih =>
    rw [extentsFrom]
    split
    next => exact ih ⟨cur.lba,cur.len + 1⟩
    next => exact ⟨cur.len,_,rfl⟩

/-- No extent could have taken in the first sector of the next one. -/
theorem extentsFrom_chain (cur : Extent) (rest : List UInt64) :
    (extentsFrom sectorSize cur rest).IsChain fun e e' => ¬ e.Takes sectorSize e'.lba := by
  induction rest generalizing cur with
  | nil => exact List.isChain_singleton _
  | cons sect rest ih =>
    rw [extentsFrom]
    split
    next => exact ih _
    next hno =>
      have hrest := ih ⟨sect,1⟩
      obtain ⟨len,es,heq⟩ : ∃ len es, extentsFrom sectorSize ⟨sect,1⟩ rest = ⟨sect,len⟩ :: es :=
        extentsFrom_lba ⟨sect,1⟩ rest
      rw [heq] at hrest ⊢
      exact List.isChain_cons_cons.mpr ⟨hno,hrest⟩

theorem extents_chain (sectors : List UInt64) :
    (extents sectorSize sectors).IsChain fun e e' => ¬ e.Takes sectorSize e'.lba := by
  cases sectors with
  | nil => exact List.isChain_nil
  | cons sect rest => exact extentsFrom_chain _ rest

variable {image : ℕ → UInt8} {ex nptrs : ℕ} {sectors : List UInt64}

theorem readExtent_generateExtents (hpos : 0 < sectorSize) (hdvd : sectorSize ∣ 0x8000) {i : ℕ}
    {e : Extent} (he : (extents sectorSize sectors)[i]? = some e) :
    readExtent (generateExtents sectorSize image ex nptrs sectors) (ex + 10 * i) = e := by
  have hsize : sectorSize ≤ 0x8000 := Nat.le_of_dvd (by norm_num) hdvd
  have hlen := extents_len (show sectorSize < 65536 by omega) e (List.mem_of_getElem? he)
  rw [generateExtents_eq hpos hdvd]
  exact readExtent_of_holds (holds_extent (writeExtents_holds _ ex _) he)
    (lt_of_le_of_lt (Nat.le_mul_of_pos_right _ hpos) hlen.2)

theorem generateExtents_outside (hpos : 0 < sectorSize) (hdvd : sectorSize ∣ 0x8000) {i : ℕ}
    (h : i < ex ∨ ex + 10 * max nptrs (extents sectorSize sectors).length ≤ i) :
    generateExtents sectorSize image ex nptrs sectors i = image i := by
  rw [generateExtents_eq hpos hdvd,writeExtents_outside (by omega)]
  exact overwrite_outside _ _ (by omega)

/-- The image gets extents of less than 64 KiB that stand for exactly the sectors, each as long as
it can be, whatever 64 KiB of memory it is loaded to. Behind them the rest of their place is
zero, and nothing else changes unless there are more of them than the place has room for. -/
theorem generateExtents_exact (hpos : 0 < sectorSize) (hdvd : sectorSize ∣ 0x8000)
    (image : ℕ → UInt8) (ex nptrs : ℕ) (sectors : List UInt64) :
    ((extents sectorSize sectors).flatMap Extent.sectors = sectors ∧
      (∀ e ∈ extents sectorSize sectors, 0 < e.len ∧ e.len * sectorSize < 65536) ∧
      (extents sectorSize sectors).IsChain fun e e' => ¬ e.Takes sectorSize e'.lba) ∧
    (∀ i e, (extents sectorSize sectors)[i]? = some e →
      readExtent (generateExtents sectorSize image ex nptrs sectors) (ex + 10 * i) = e) ∧
    (∀ i, ex + 10 * (extents sectorSize sectors).length ≤ i → i < ex + 10 * nptrs →
      generateExtents sectorSize image ex nptrs sectors i = 0) ∧
    ∀ i, i < ex ∨ ex + 10 * max nptrs (extents sectorSize sectors).length ≤ i →
      generateExtents sectorSize image ex nptrs sectors i = image i := by
  have hsize : sectorSize ≤ 0x8000 := Nat.le_of_dvd (by norm_num) hdvd
  have hlen : ∀ e ∈ extents sectorSize sectors, 0 < e.len ∧ e.len * sectorSize < 65536 :=
    extents_len (by omega)
  rw [generateExtents_eq hpos hdvd]
  refine ⟨⟨extents_sectors sectors,hlen,extents_chain sectors⟩,fun i e he => ?_,
    fun i hi hi' => ?_,fun i hi => ?_⟩
  · rw [← generateExtents_eq hpos hdvd]
    exact readExtent_generateExtents hpos hdvd he
  · rw [writeExtents_outside (Or.inr hi)]
    exact overwrite_inside _ _ (by omega) (by omega)
  · rw [← generateExtents_eq hpos hdvd]
    exact generateExtents_outside hpos hdvd hi

theorem generateExtents_exact_sample :
    readExtent (generateExtents 512 (fun _ => 0) 40 4 [7,8,20]) (40 + 10 * 1) = ⟨20,1⟩ :=
  (generateExtents_exact (by norm_num) (by norm_num) (fun _ => 0) 40 4 [7,8,20]).2.1 1 ⟨20,1⟩
    (by decide)

end extents

section patching

/-- The place of the patch area in the image, the first of the words with the magic number. -/
def findMagic (image : ℕ → UInt8) (len : ℕ) : Option ℕ :=
  if len < 24 then none
  else ((List.range ((len - 24) / 4 + 1)).find? fun i =>
    readDword image (4 * i) = ldlinuxMagic).map (4 * ·)

/-- What syslinux_patch leaves: its result, the boot sector and the image. -/
structure Patched where
  result : Option ℕ
  bootSector : ℕ → UInt8
  image : ℕ → UInt8

variable (sectorSize len : ℕ)

/-- The sectors of the loader and the two of its data vector. -/
def loaderSectors : ℕ := (len + sectorSize - 1) / sectorSize + 2

def patchBootSector (bs image : ℕ → UInt8) (epa : ℕ) (sect : UInt64) (raid : Bool) : ℕ → UInt8 :=
  let bs := write bs (readWord image (epa + 14)) (dwordBytes sect.toNat)
  let bs := write bs (readWord image (epa + 16)) (dwordBytes (sect.toNat / 2 ^ 32))
  if raid then write bs (readWord image (epa + 18)) (wordBytes 0x18CD) else bs

def patchTotals (image : ℕ → UInt8) (area : ℕ) (stupid : Bool) : ℕ → UInt8 :=
  let image := write image (area + 8) (wordBytes (loaderSectors sectorSize len - 2))
  let image := write image (area + 10) (wordBytes 2)
  let image := write image (area + 12) (dwordBytes (len / 4))
  if stupid then write image (area + 20) (wordBytes 1) else image

/-- The extents behind the first sector and the pointers to the data vector. -/
def patchSectors (image : ℕ → UInt8) (epa : ℕ) (sectp : List UInt64) : ℕ → UInt8 :=
  let nsect := loaderSectors sectorSize len
  let image := generateExtents sectorSize image (readWord image (epa + 10))
    (readWord image (epa + 12)) (sectp.take (nsect - 3))
  let advptrs := readWord image epa
  let image := write image advptrs (qwordBytes (sectp.getD (nsect - 3) 0).toNat)
  write image (advptrs + 8) (qwordBytes (sectp.getD (nsect - 2) 0).toNat)

/-- A text and its NUL in their place, if there is room for it. -/
def patchText (image : ℕ → UInt8) (offset room : ℕ) : Option (List UInt8) → Option (ℕ → UInt8)
  | none => some image
  | some text =>
    if room < text.length + 1 then none else some (write image offset (text ++ [0]))

def patchChecksum (image : ℕ → UInt8) (area : ℕ) : ℕ → UInt8 :=
  let image := write image (area + 16) (dwordBytes 0)
  write image (area + 16) (dwordBytes (dwordRest ldlinuxMagic image 0 (len / 4)))

def syslinuxPatch (sectors : List UInt64) (stupid raid : Bool) (subdir subvol : Option (List UInt8))
    (bs image : ℕ → UInt8) : Patched :=
  if sectors.length < loaderSectors sectorSize len then ⟨none,bs,image⟩
  else
    match findMagic image len with
    | none => ⟨none,bs,image⟩
    | some area =>
      let epa := readWord image (area + 22)
      let bs := patchBootSector bs image epa (sectors.getD 0 0) raid
      let image := patchTotals sectorSize len image area stupid
      let image := patchSectors sectorSize len image epa (sectors.drop 1)
      match patchText image (readWord image (epa + 2)) (readWord image (epa + 4)) subdir with
      | none => ⟨none,bs,image⟩
      | some image =>
        match patchText image (readWord image (epa + 6)) (readWord image (epa + 8)) subvol with
        | none => ⟨none,bs,image⟩
        | some image => ⟨some (len / 4 * 4),bs,patchChecksum len image area⟩

end patching

section checksum
variable {sectorSize len : ℕ} {image : ℕ → UInt8} {area : ℕ}

theorem findMagic_some (h : findMagic image len = some area) :
    4 ∣ area ∧ area + 24 ≤ len ∧ readDword image area = ldlinuxMagic := by
  unfold findMagic at h
  split at h
  next => cases h
  next hlen =>
    obtain ⟨i,hi,rfl⟩ := Option.map_eq_some_iff.mp h
    have hmem := List.mem_range.mp (List.mem_of_find?_eq_some hi)
    have hmagic : readDword image (4 * i) = ldlinuxMagic := by simpa using List.find?_some hi
    exact ⟨⟨i,rfl⟩,by omega,hmagic⟩

theorem patchChecksum_total (hdvd : 4 ∣ area) (hlen : area + 24 ≤ len) :
    dword (dwordTotal (patchChecksum len image area) 0 (len / 4)) = ldlinuxMagic := by
  obtain ⟨i,rfl⟩ := hdvd
  have hplace : 4 * i + 16 = 0 + 4 * (i + 4) := by ring
  unfold patchChecksum
  rw [hplace]
  exact dwordTotal_balanced (by omega) (by decide) (readDword_write_self (by decide))

/-- Whatever the image, the sectors and the texts: a loader that was patched is one whose words
add up to the magic number. -/
theorem syslinuxPatch_sum {sectors : List UInt64} {stupid raid : Bool}
    {subdir subvol : Option (List UInt8)} {bs : ℕ → UInt8} {n : ℕ}
    (h : (syslinuxPatch sectorSize len sectors stupid raid subdir subvol bs image).result = some n) :
    n = len / 4 * 4 ∧ dword (dwordTotal
      (syslinuxPatch sectorSize len sectors stupid raid subdir subvol bs image).image 0 (len / 4)) =
        ldlinuxMagic := by
  revert h
  unfold syslinuxPatch
  split
  next => exact fun h => absurd h (by simp)
  next =>
    split
    next => exact fun h => absurd h (by simp)
    next area harea =>
      obtain ⟨hdvd,hlen,-⟩ := findMagic_some harea
      dsimp only
      split
      next => exact fun h => absurd h (by simp)
      next =>
        split
        next => exact fun h => absurd h (by simp)
        next => exact fun h => ⟨(Option.some.inj h).symm,patchChecksum_total hdvd hlen⟩

/-- An image of two sectors with the patch area in front. -/
def sampleImage : ℕ → UInt8
  | 0 => 0xfe
  | 1 => 0x02
  | 2 => 0xb2
  | 3 => 0x3e
  | 22 => 100
  | 100 => 200
  | 102 => 240
  | 104 => 8
  | 110 => 44
  | 111 => 1
  | 112 => 4
  | 114 => 10
  | 116 => 20
  | _ => 0

theorem findMagic_sampleImage : findMagic sampleImage 1024 = some 0 := by decide

theorem syslinuxPatch_sum_sample :
    1024 = 1024 / 4 * 4 ∧ dword (dwordTotal (syslinuxPatch 512 1024 [7,8,20,21] false false none none
      (fun _ => 0) sampleImage).image 0 (1024 / 4)) = ldlinuxMagic :=
  syslinuxPatch_sum (by rw [syslinuxPatch,if_neg (by decide),findMagic_sampleImage]; rfl)

end checksum

section map

/-- Two places of the image that have no byte in common. -/
def Apart (a n b m : ℕ) : Prop := a + n ≤ b ∨ b + m ≤ a

instance (a n b m : ℕ) : Decidable (Apart a n b m) := inferInstanceAs (Decidable (_ ∨ _))

/-- The places that an installation writes to are apart: the patch area, the extents, the pointers
to the data vector and the text of the directory, and the area that says where they are. -/
structure PatchRoom (image : ℕ → UInt8) (area count text : ℕ) : Prop where
  epaArea : Apart (readWord image (area + 22)) 20 (area + 8) 8
  epaExtents : Apart (readWord image (area + 22)) 20
    (readWord image (readWord image (area + 22) + 10)) (10 * count)
  epaPointers : Apart (readWord image (area + 22)) 20
    (readWord image (readWord image (area + 22))) 16
  extentsPointers : Apart (readWord image (readWord image (area + 22) + 10)) (10 * count)
    (readWord image (readWord image (area + 22))) 16
  extentsText : Apart (readWord image (readWord image (area + 22) + 10)) (10 * count)
    (readWord image (readWord image (area + 22) + 2)) text
  extentsChecksum : Apart (readWord image (readWord image (area + 22) + 10)) (10 * count)
    (area + 16) 4
  pointersText : Apart (readWord image (readWord image (area + 22))) 16
    (readWord image (readWord image (area + 22) + 2)) text
  pointersChecksum : Apart (readWord image (readWord image (area + 22))) 16 (area + 16) 4

variable {sectorSize len : ℕ} {image : ℕ → UInt8} {area : ℕ}

theorem write_apart {mem : ℕ → UInt8} {a i n : ℕ} {xs : List UInt8} (hn : n = xs.length)
    (h : i < a ∨ a + n ≤ i) : write mem a xs i = mem i := overwrite_outside mem _ (by omega)

theorem patchTotals_outside {i : ℕ} (h : i < area + 8 ∨ area + 16 ≤ i) :
    patchTotals sectorSize len image area false i = image i := by
  unfold patchTotals
  rw [if_neg Bool.false_ne_true,write_apart (length_dwordBytes _).symm (by omega),
    write_apart (length_wordBytes _).symm (by omega),write_apart (length_wordBytes _).symm (by omega)]

theorem patchChecksum_outside {i : ℕ} (h : i < area + 16 ∨ area + 20 ≤ i) :
    patchChecksum len image area i = image i := by
  unfold patchChecksum
  rw [write_apart (length_dwordBytes _).symm (by omega),
    write_apart (length_dwordBytes _).symm (by omega)]

/-- The sectors as they are found in the boot sector and the image. -/
def foundSectors (bs image : ℕ → UInt8) (ptr0 ptr1 ex count advptrs : ℕ) : List UInt64 :=
  UInt64.ofNat (readDword bs ptr0 + 2 ^ 32 * readDword bs ptr1) ::
    ((List.range count).flatMap fun i => (readExtent image (ex + 10 * i)).sectors) ++
    [UInt64.ofNat (readQword image advptrs),UInt64.ofNat (readQword image (advptrs + 8))]

theorem patchBootSector_pointer {bs : ℕ → UInt8} {epa : ℕ}
    (h : Apart (readWord image (epa + 14)) 4 (readWord image (epa + 16)) 4) (sect : UInt64) :
    UInt64.ofNat (readDword (patchBootSector bs image epa sect false) (readWord image (epa + 14)) +
      2 ^ 32 * readDword (patchBootSector bs image epa sect false) (readWord image (epa + 16))) =
      sect := by
  have hlt := sect.toNat_lt
  have hhigh : readDword (patchBootSector bs image epa sect false) (readWord image (epa + 16)) =
      sect.toNat / 2 ^ 32 % 2 ^ 32 := readDword_of_holds (holds_write _ _ _)
  have hlow : readDword (patchBootSector bs image epa sect false) (readWord image (epa + 14)) =
      sect.toNat % 2 ^ 32 :=
    readDword_of_holds ((holds_write bs _ _).write h)
  rw [hhigh,hlow,Nat.mod_eq_of_lt (show sect.toNat / 2 ^ 32 < 2 ^ 32 by omega),Nat.mod_add_div,
    UInt64.ofNat_toNat]

theorem flatMap_readExtent {mem : ℕ → UInt8} {ex : ℕ} {es : List Extent}
    (h : ∀ i e, es[i]? = some e → readExtent mem (ex + 10 * i) = e) :
    ((List.range es.length).flatMap fun i => (readExtent mem (ex + 10 * i)).sectors) =
      es.flatMap Extent.sectors := by
  have hmap : (List.range es.length).map (fun i => readExtent mem (ex + 10 * i)) = es := by
    refine List.ext_getElem? fun i => ?_
    rw [List.getElem?_map]
    by_cases hi : i < es.length
    · rw [List.getElem?_range hi,List.getElem?_eq_getElem hi]
      exact congrArg some (h i _ (List.getElem?_eq_getElem hi))
    · rw [List.getElem?_eq_none (by simpa using hi),List.getElem?_eq_none (by simpa using hi)]
      rfl
  conv_rhs => rw [← hmap]
  rw [List.flatMap_map]

theorem readExtent_congr {mem mem' : ℕ → UInt8} {ex : ℕ}
    (h : ∀ i, ex ≤ i → i < ex + 10 → mem' i = mem i) : readExtent mem' ex = readExtent mem ex := by
  unfold readExtent readQword
  rw [readDword_congr fun i hi hi' => h i hi (by omega),
    readDword_congr fun i hi hi' => h i (by omega) (by omega),
    readWord_congr fun i hi hi' => h i (by omega) (by omega)]

theorem readQword_congr {mem mem' : ℕ → UInt8} {a : ℕ}
    (h : ∀ i, a ≤ i → i < a + 8 → mem' i = mem i) : readQword mem' a = readQword mem a := by
  unfold readQword
  rw [readDword_congr fun i hi hi' => h i hi (by omega),
    readDword_congr fun i hi hi' => h i (by omega) (by omega)]

theorem take_add_two {α : Type} {l : List α} {k : ℕ} (h : k + 2 ≤ l.length) (d : α) :
    l.take (k + 2) = l.take k ++ [l.getD k d,l.getD (k + 1) d] := by
  have h0 : k < l.length := by omega
  have h1 : k + 1 < l.length := by omega
  rw [List.take_add_one,List.take_add_one,List.getElem?_eq_getElem h0,List.getElem?_eq_getElem h1,
    List.getD_eq_getElem _ _ h0,List.getD_eq_getElem _ _ h1,List.append_assoc]
  rfl

variable {sectors : List UInt64} {text : List UInt8} {bs : ℕ → UInt8}

/-- The patch area and everything behind it as an installation on a FAT volume leaves it. -/
theorem syslinuxPatch_eq (hmagic : findMagic image len = some area)
    (hsectors : loaderSectors sectorSize len ≤ sectors.length)
    (hroom : text.length + 1 ≤ readWord (patchSectors sectorSize len
      (patchTotals sectorSize len image area false) (readWord image (area + 22)) (sectors.drop 1))
      (readWord image (area + 22) + 4)) :
    syslinuxPatch sectorSize len sectors false false (some text) none bs image =
      ⟨some (len / 4 * 4),
        patchBootSector bs image (readWord image (area + 22)) (sectors.getD 0 0) false,
        patchChecksum len (write (patchSectors sectorSize len
          (patchTotals sectorSize len image area false) (readWord image (area + 22))
          (sectors.drop 1)) (readWord (patchSectors sectorSize len
          (patchTotals sectorSize len image area false) (readWord image (area + 22))
          (sectors.drop 1)) (readWord image (area + 22) + 2)) (text ++ [0])) area⟩ := by
  rw [syslinuxPatch,if_neg (by omega),hmagic]
  simp only [patchText,if_neg (Nat.not_lt.mpr hroom)]

/-- The extents between the first sector of the loader and its data vector. -/
def loaderExtents (sectorSize len : ℕ) (sectp : List UInt64) : List Extent :=
  extents sectorSize (sectp.take (loaderSectors sectorSize len - 3))

/-- The extents that the image has room for, or as many as are written. -/
def extentCount (sectorSize len : ℕ) (mem : ℕ → UInt8) (epa : ℕ) (sectp : List UInt64) : ℕ :=
  max (readWord mem (epa + 12)) (loaderExtents sectorSize len sectp).length

theorem patchSectors_spec (hpos : 0 < sectorSize) (hdvd : sectorSize ∣ 0x8000) {mem : ℕ → UInt8}
    {epa : ℕ} {sectp : List UInt64}
    (hepa : Apart epa 20 (readWord mem (epa + 10)) (10 * extentCount sectorSize len mem epa sectp))
    (hptr : Apart (readWord mem (epa + 10)) (10 * extentCount sectorSize len mem epa sectp)
      (readWord mem epa) 16) :
    (∀ i e, (loaderExtents sectorSize len sectp)[i]? = some e →
      readExtent (patchSectors sectorSize len mem epa sectp) (readWord mem (epa + 10) + 10 * i) = e) ∧
    readQword (patchSectors sectorSize len mem epa sectp) (readWord mem epa) =
      (sectp.getD (loaderSectors sectorSize len - 3) 0).toNat ∧
    readQword (patchSectors sectorSize len mem epa sectp) (readWord mem epa + 8) =
      (sectp.getD (loaderSectors sectorSize len - 2) 0).toNat ∧
    ∀ i, i < readWord mem (epa + 10) ∨
        readWord mem (epa + 10) + 10 * extentCount sectorSize len mem epa sectp ≤ i →
      i < readWord mem epa ∨ readWord mem epa + 16 ≤ i →
      patchSectors sectorSize len mem epa sectp i = mem i := by
  obtain ⟨gen,hgen⟩ : ∃ g, generateExtents sectorSize mem (readWord mem (epa + 10))
      (readWord mem (epa + 12)) (sectp.take (loaderSectors sectorSize len - 3)) = g := ⟨_,rfl⟩
  have hout : ∀ i, i < readWord mem (epa + 10) ∨
      readWord mem (epa + 10) + 10 * extentCount sectorSize len mem epa sectp ≤ i →
      gen i = mem i := by
    intro i hi
    rw [← hgen]
    exact generateExtents_outside hpos hdvd hi
  have hadv : readWord gen epa = readWord mem epa := by
    refine readWord_congr fun i hi hi' => hout i ?_
    rcases hepa with h | h
    · exact Or.inl (by omega)
    · exact Or.inr (by omega)
  have heq : patchSectors sectorSize len mem epa sectp = write (write gen (readWord mem epa)
      (qwordBytes (sectp.getD (loaderSectors sectorSize len - 3) 0).toNat)) (readWord mem epa + 8)
      (qwordBytes (sectp.getD (loaderSectors sectorSize len - 2) 0).toNat) := by
    unfold patchSectors
    simp only [hgen,hadv]
  have hfar : ∀ i, i < readWord mem epa ∨ readWord mem epa + 16 ≤ i →
      patchSectors sectorSize len mem epa sectp i = gen i := by
    intro i hi
    rw [heq,write_apart (length_qwordBytes _).symm (by omega),
      write_apart (length_qwordBytes _).symm (by omega)]
  refine ⟨fun i e he => ?_,?_,?_,fun i hi hi' => (hfar i hi').trans (hout i hi)⟩
  · have hi := (List.getElem?_eq_some_iff.mp he).1
    have hread : readExtent gen (readWord mem (epa + 10) + 10 * i) = e := by
      rw [← hgen]
      exact readExtent_generateExtents hpos hdvd he
    rw [← hread]
    refine readExtent_congr fun j hj hj' => hfar j ?_
    have hle : i < extentCount sectorSize len mem epa sectp := hi.trans_le (le_max_right _ _)
    unfold Apart at hptr
    omega
  · rw [heq]
    exact readQword_of_holds ((holds_write gen _ _).write (Or.inl le_rfl)) (UInt64.toNat_lt _)
  · rw [heq]
    exact readQword_of_holds (holds_write _ _ _) (UInt64.toNat_lt _)

/-- Once the totals and the sectors are patched the extents and the pointers are in their places,
and what says where the places are is as it was. -/
theorem patchSectors_totals (hpos : 0 < sectorSize) (hdvd : sectorSize ∣ 0x8000) {epa n : ℕ}
    (hepa : readWord image (area + 22) = epa) {sectp : List UInt64}
    (hroom : PatchRoom image area (extentCount sectorSize len image epa sectp) n)
    {mapped : ℕ → UInt8} (hmapped : patchSectors sectorSize len
      (patchTotals sectorSize len image area false) epa sectp = mapped) :
    (∀ i e, (loaderExtents sectorSize len sectp)[i]? = some e →
      readExtent mapped (readWord image (epa + 10) + 10 * i) = e) ∧
    readQword mapped (readWord image epa) =
      (sectp.getD (loaderSectors sectorSize len - 3) 0).toNat ∧
    readQword mapped (readWord image epa + 8) =
      (sectp.getD (loaderSectors sectorSize len - 2) 0).toNat ∧
    ∀ k, k + 2 ≤ 20 → readWord mapped (epa + k) = readWord image (epa + k) := by
  have harea := hroom.epaArea
  have hextents := hroom.epaExtents
  have hpointers := hroom.epaPointers
  have hapart := hroom.extentsPointers
  rw [hepa] at harea hextents hpointers hapart
  obtain ⟨totals,htotals⟩ : ∃ m, patchTotals sectorSize len image area false = m := ⟨_,rfl⟩
  rw [htotals] at hmapped
  have hsame : ∀ k, k + 2 ≤ 20 → readWord totals (epa + k) = readWord image (epa + k) := by
    intro k hk
    refine readWord_congr fun i hi hi' => ?_
    rw [← htotals]
    refine patchTotals_outside ?_
    unfold Apart at harea
    omega
  have hsame0 : readWord totals epa = readWord image epa := hsame 0 (by norm_num)
  have hcount : extentCount sectorSize len totals epa sectp =
      extentCount sectorSize len image epa sectp := by
    rw [extentCount,hsame 12 (by norm_num),extentCount]
  have hspec := @patchSectors_spec sectorSize len hpos hdvd totals epa sectp
  rw [hcount,hsame 10 (by norm_num),hsame0,hmapped] at hspec
  obtain ⟨hext,hadv0,hadv1,hout⟩ := hspec hextents hapart
  refine ⟨hext,hadv0,hadv1,fun k hk => ?_⟩
  rw [← hsame k hk]
  unfold Apart at hextents hpointers
  exact readWord_congr fun i hi hi' => hout i (by omega) (by omega)

/-- The text and the checksum, which are written last. -/
theorem patchChecksum_text {mem : ℕ → UInt8} {a i : ℕ}
    (htext : i < a ∨ a + (text.length + 1) ≤ i) (hsum : i < area + 16 ∨ area + 20 ≤ i) :
    patchChecksum len (write mem a (text ++ [0])) area i = mem i := by
  rw [patchChecksum_outside hsum,write_apart (by rw [List.length_append,List.length_singleton]) htext]

/-- Pointers and extents in their places lead to the sectors of the loader. -/
theorem foundSectors_eq {mem : ℕ → UInt8} {ptr0 ptr1 ex advptrs : ℕ} {first : UInt64}
    {sectp : List UInt64} (hthree : 3 ≤ loaderSectors sectorSize len)
    (hlong : loaderSectors sectorSize len ≤ (first :: sectp).length)
    (hptr : UInt64.ofNat (readDword bs ptr0 + 2 ^ 32 * readDword bs ptr1) = first)
    (hext : ∀ i e, (loaderExtents sectorSize len sectp)[i]? = some e →
      readExtent mem (ex + 10 * i) = e)
    (hadv0 : readQword mem advptrs = (sectp.getD (loaderSectors sectorSize len - 3) 0).toNat)
    (hadv1 : readQword mem (advptrs + 8) =
      (sectp.getD (loaderSectors sectorSize len - 2) 0).toNat) :
    foundSectors bs mem ptr0 ptr1 ex (loaderExtents sectorSize len sectp).length advptrs =
      (first :: sectp).take (loaderSectors sectorSize len) := by
  obtain ⟨k,hk⟩ : ∃ k, loaderSectors sectorSize len = k + 3 :=
    ⟨loaderSectors sectorSize len - 3,by omega⟩
  rw [List.length_cons] at hlong
  rw [foundSectors,hptr,flatMap_readExtent hext,hadv0,hadv1,loaderExtents,extents_sectors,
    UInt64.ofNat_toNat,UInt64.ofNat_toNat,hk,List.take_succ_cons,take_add_two (by omega) 0]
  rfl

theorem three_le_loaderSectors (hpos : 0 < sectorSize) (hlen : 0 < len) :
    3 ≤ loaderSectors sectorSize len := by
  have hsect : 0 < (len + sectorSize - 1) / sectorSize := Nat.div_pos (by omega) hpos
  unfold loaderSectors
  omega

/-- After the installation on a FAT volume the pointers in the boot sector, the extents and the
pointers to the data vector lead to the sectors of the loader, all of them in their order. -/
theorem syslinuxPatch_maps (hpos : 0 < sectorSize) (hdvd : sectorSize ∣ 0x8000)
    (hmagic : findMagic image len = some area)
    (hsectors : loaderSectors sectorSize len ≤ sectors.length)
    (hroom : PatchRoom image area
      (extentCount sectorSize len image (readWord image (area + 22)) (sectors.drop 1))
      (text.length + 1))
    (htext : text.length + 1 ≤ readWord image (readWord image (area + 22) + 4))
    (hbs : Apart (readWord image (readWord image (area + 22) + 14)) 4
      (readWord image (readWord image (area + 22) + 16)) 4) :
    (syslinuxPatch sectorSize len sectors false false (some text) none bs image).result =
        some (len / 4 * 4) ∧
      foundSectors
          (syslinuxPatch sectorSize len sectors false false (some text) none bs image).bootSector
          (syslinuxPatch sectorSize len sectors false false (some text) none bs image).image
          (readWord image (readWord image (area + 22) + 14))
          (readWord image (readWord image (area + 22) + 16))
          (readWord image (readWord image (area + 22) + 10))
          (loaderExtents sectorSize len (sectors.drop 1)).length
          (readWord image (readWord image (area + 22))) =
        sectors.take (loaderSectors sectorSize len) := by
  have hlen := (findMagic_some hmagic).2.1
  have hthree : 3 ≤ loaderSectors sectorSize len := three_le_loaderSectors hpos (by omega)
  obtain ⟨first,sectp,rfl⟩ := List.exists_cons_of_length_pos (show 0 < sectors.length by omega)
  obtain ⟨epa,hepa⟩ : ∃ e, readWord image (area + 22) = e := ⟨_,rfl⟩
  obtain ⟨mapped,hmapped⟩ : ∃ m, patchSectors sectorSize len
      (patchTotals sectorSize len image area false) epa sectp = m := ⟨_,rfl⟩
  rw [hepa,List.drop_one,List.tail_cons] at hroom
  rw [hepa] at htext hbs
  rw [hepa,List.drop_one,List.tail_cons]
  obtain ⟨hext,hadv0,hadv1,hkept⟩ := patchSectors_totals hpos hdvd hepa hroom hmapped
  have heq := @syslinuxPatch_eq sectorSize len image area (first :: sectp) text bs hmagic hsectors
  rw [hepa,List.drop_one,List.tail_cons,hmapped,hkept 4 (by norm_num),
    hkept 2 (by norm_num)] at heq
  rw [heq htext]
  have hextText := hroom.extentsText
  have hextSum := hroom.extentsChecksum
  have hptrText := hroom.pointersText
  have hptrSum := hroom.pointersChecksum
  rw [hepa] at hextText hextSum hptrText hptrSum
  unfold Apart at hextText hextSum hptrText hptrSum
  refine ⟨rfl,foundSectors_eq hthree hsectors (patchBootSector_pointer hbs _) ?_ ?_ ?_⟩
  · intro i e he
    have hi := (List.getElem?_eq_some_iff.mp he).1
    have hle : i < extentCount sectorSize len image epa sectp := hi.trans_le (le_max_right _ _)
    rw [← hext i e he]
    exact readExtent_congr fun j hj hj' => patchChecksum_text (by omega) (by omega)
  · rw [← hadv0]
    exact readQword_congr fun j hj hj' => patchChecksum_text (by omega) (by omega)
  · rw [← hadv1]
    exact readQword_congr fun j hj hj' => patchChecksum_text (by omega) (by omega)

theorem syslinuxPatch_maps_sample :
    (syslinuxPatch 512 1024 [7,8,20,21] false false (some [0x2f]) none (fun _ => 0)
        sampleImage).result = some (1024 / 4 * 4) ∧
      foundSectors (syslinuxPatch 512 1024 [7,8,20,21] false false (some [0x2f]) none (fun _ => 0)
          sampleImage).bootSector
        (syslinuxPatch 512 1024 [7,8,20,21] false false (some [0x2f]) none (fun _ => 0)
          sampleImage).image 10 20 300 1 200 = [7,8,20,21] := by
  have hmaps := @syslinuxPatch_maps 512 1024 sampleImage 0 [7,8,20,21] [0x2f] (fun _ => 0) (by decide)
    (by decide) findMagic_sampleImage (by decide)
    ⟨by decide,by decide,by decide,by decide,by decide,by decide,by decide,by decide⟩ (by decide)
    (by decide)
  have hplaces : readWord sampleImage (0 + 22) = 100 ∧ readWord sampleImage (100 + 14) = 10 ∧
      readWord sampleImage (100 + 16) = 20 ∧ readWord sampleImage (100 + 10) = 300 ∧
      readWord sampleImage 100 = 200 := by decide
  have hone : (loaderExtents 512 1024 (List.drop 1 [7,8,20,21])).length = 1 := by decide
  obtain ⟨hepa,hptr0,hptr1,hex,hadv⟩ := hplaces
  rwa [hone,hepa,hptr0,hptr1,hex,hadv] at hmaps

end map

end SecureWipeOut.SyslinuxPatch
