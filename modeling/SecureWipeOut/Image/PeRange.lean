import SecureWipeOut.Image.PeRegions

/-! # Range of the bytes read for the digest of a PE image

The parser checks where the headers start, from above only. What else it takes from the
file has to be right by itself: the rest of the headers, the table of sections and the
raw data of every section that is not dropped.
-/
namespace SecureWipeOut.PeImage
open Hash

section collected
variable (q : Qsort) (mem : Memory) (l : Layout)

def allRanges : List Range :=
  headerRanges mem l ++ sectionRanges (fileAlignment mem) (q.sort (sections mem))

def bytesHashed : ℕ :=
  sizeOfHeaders mem + (((q.sort (sections mem)).filter fun s => s.sizeOfRawData ≠ 0).map
    fun s => roundedSize (fileAlignment mem) s.sizeOfRawData).sum

/-- The ranges kept for an image of the given size, with what follows the sections. -/
def collected (len : ℕ) : List Range :=
  if bytesHashed q mem + authsz mem l < len then
    keepOne (keep (allRanges q mem l)) (bytesHashed q mem,(len : ℤ) - authsz mem l)
  else keep (allRanges q mem l)

variable {q mem l}

theorem length_headerRanges_le : (headerRanges mem l).length ≤ 3 := by
  rw [headerRanges]
  split_ifs <;> simp

theorem length_allRanges_le : (allRanges q mem l).length ≤ 3 + numberOfSections mem := by
  have hheaders : (headerRanges mem l).length ≤ 3 := length_headerRanges_le
  have hsections : (sectionRanges (fileAlignment mem) (q.sort (sections mem))).length ≤
      numberOfSections mem := by
    rw [sectionRanges,List.length_map]
    refine (List.length_filter_le _ _).trans_eq ?_
    rw [(q.perm _).length_eq,sections,List.length_map,List.length_range]
  rw [allRanges,List.length_append]
  omega

theorem ctidx_cast : (ctidx : ℤ) = 4 := rfl

theorem dataDirectory_bounds (hl : layoutOf (magic mem) = some l) :
    (l.numberOfRvaAndSizes = 92 ∧ l.dataDirectory = 96) ∨
      (l.numberOfRvaAndSizes = 108 ∧ l.dataDirectory = 112) := by
  rcases layoutOf_cases hl with rfl | rfl
  · exact Or.inl ⟨rfl,rfl⟩
  · exact Or.inr ⟨rfl,rfl⟩

/-- The ranges of an image whose headers do not start before the file: none starts there,
and each fits a region. -/
theorem allRanges_bounds (hl : layoutOf (magic mem) = some l) (hnt : -6 ≤ ntHeaders mem)
    (hnt' : ntHeaders mem < 2 ^ 31) :
    ∀ r ∈ allRanges q mem l, 0 ≤ r.1 ∧ r.2 < r.1 + 2 ^ 32 := by
  have hsize : (sizeOfHeaders mem : ℤ) < 4294967296 := by
    have := readDword_lt mem (optionalHeader mem + 60)
    rw [sizeOfHeaders]
    omega
  have hdir := dataDirectory_bounds hl
  intro r hr
  rcases List.mem_append.mp hr with hr | hr
  · have hcases : r = (0,checkSum mem) ∨ r = (subsystem mem,(sizeOfHeaders mem : ℤ)) ∨
        r = (subsystem mem,securityEntry mem l) ∨
        r = (securityEntry mem l + 8,(sizeOfHeaders mem : ℤ)) := by
      rw [headerRanges] at hr
      split_ifs at hr <;> simp only [List.mem_cons,List.not_mem_nil,or_false] at hr
      · exact hr.imp_right Or.inl
      · exact hr.imp_right Or.inr
    simp only [checkSum,subsystem,securityEntry,optionalHeader,ctidx_cast] at hcases
    generalize ntHeaders mem = nt at hcases hnt hnt'
    generalize (sizeOfHeaders mem : ℤ) = size at hcases hsize
    rcases hcases with rfl | rfl | rfl | rfl <;> simp only <;> omega
  · obtain ⟨s,-,rfl⟩ := List.mem_map.mp hr
    have := roundedSize_lt (fileAlignment mem) s.sizeOfRawData
    simp only [sectionRange]
    omega

theorem efiImageParse_eq {len : ℕ} (hlen : ¬ len < 0x80) (hcheck : ¬ long len - 0x40 < lfanew mem)
    (hl : layoutOf (magic mem) = some l) : ∃ regs, efiImageParse q mem len =
      ⟨[(0x3c,4),(ntHeaders mem + 6,2),(optionalHeader mem,2)] ++ headerReads mem l ++
        (List.range (numberOfSections mem)).flatMap (sectionReads mem),some regs⟩ ∧
      (-6 ≤ ntHeaders mem → ntHeaders mem < 2 ^ 31 → len < 2 ^ 32 →
        Represents regs (collected q mem l len)) := by
  refine ⟨_,by simp only [efiImageParse,if_neg hlen,if_neg hcheck,hl]; rfl,fun hnt hnt' hlen' => ?_⟩
  have hempty : Represents ⟨3 + numberOfSections mem + 1,[]⟩ [] :=
    ⟨List.Pairwise.nil,List.Perm.refl _,by simp⟩
  have hbounds := allRanges_bounds (q := q) hl hnt hnt'
  have hroom : (allRanges q mem l).length ≤ 3 + numberOfSections mem := length_allRanges_le
  have hall : Represents (addAll ⟨3 + numberOfSections mem + 1,[]⟩ (allRanges q mem l))
      (keep (allRanges q mem l)) :=
    hempty.addAll (by simp only [List.length_nil]; omega) fun r hr => (hbounds r hr).2
  have hmax : (addAll ⟨3 + numberOfSections mem + 1,[]⟩ (allRanges q mem l)).max =
      3 + numberOfSections mem + 1 := addAll_max _ _
  have hkept := length_foldl_keepOne_le (allRanges q mem l) []
  simp only [foldl_addSection_eq,addHeaders_eq,← addAll_append]
  rw [collected]
  split_ifs with hextra hextra' hextra'
  · refine hall.add ?_ ?_
    · rw [hmax]
      simp only [List.length_nil] at hkept
      rw [keep]
      omega
    · rw [bytesHashed] at hextra'
      omega
  · exact absurd hextra hextra'
  · exact absurd hextra' hextra
  · exact hall

end collected

section inside

/-- Every byte of the range is a byte of the file. -/
def Inside (len : ℕ) (r : ℤ × ℕ) : Prop := ∀ i : ℕ, i < r.2 → 0 ≤ r.1 + i ∧ r.1 + i < len

theorem inside_iff {len n : ℕ} {a : ℤ} (hn : 0 < n) :
    Inside len (a,n) ↔ 0 ≤ a ∧ a + n ≤ len := by
  constructor
  · intro h
    have h0 : 0 ≤ a + (0 : ℕ) ∧ a + (0 : ℕ) < len := h 0 hn
    have h1 : 0 ≤ a + (n - 1 : ℕ) ∧ a + (n - 1 : ℕ) < len := h (n - 1) (by show n - 1 < n; omega)
    omega
  · rintro ⟨h0,h1⟩ i hi
    have hi' : i < n := hi
    show 0 ≤ a + (i : ℤ) ∧ a + (i : ℤ) < len
    omega

/-- The conditions on the fields of an image. -/
structure FieldsFit (q : Qsort) (mem : Memory) (len : ℕ) : Prop where
  start : -6 ≤ ntHeaders mem
  header : ∀ l, layoutOf (magic mem) = some l → optionalHeader mem +
    (if numberOfRvaAndSizes mem l ≤ ctidx then l.numberOfRvaAndSizes + 4 else l.dataDirectory + 40) ≤ len
  table : ∀ l, layoutOf (magic mem) = some l → 0 < numberOfSections mem →
    sectionAt mem (numberOfSections mem - 1) + (if (sectionHeader mem
      (sectionAt mem (numberOfSections mem - 1))).sizeOfRawData = 0 then 20 else 24) ≤ len
  ranges : ∀ l, layoutOf (magic mem) = some l →
    ∀ r ∈ keep (allRanges q mem l), r.1 < r.2 → r.2 ≤ len

variable {q : Qsort} {mem : Memory} {l : Layout} {len : ℕ}

theorem headerReads_inside_iff (hl : layoutOf (magic mem) = some l) (hnt : -6 ≤ ntHeaders mem) :
    (∀ r ∈ headerReads mem l, Inside len r) ↔ optionalHeader mem +
      (if numberOfRvaAndSizes mem l ≤ ctidx then l.numberOfRvaAndSizes + 4
        else l.dataDirectory + 40) ≤ len := by
  have hdir := dataDirectory_bounds hl
  simp only [headerReads,List.forall_mem_append,List.forall_mem_cons,List.not_mem_nil,
    false_implies,implies_true,and_true,inside_iff (show 0 < 4 by decide),
    inside_iff (show 0 < 2 by decide)]
  split_ifs
  · simp only [List.not_mem_nil,false_implies,implies_true,and_true,optionalHeader]
    generalize ntHeaders mem = nt at hnt ⊢
    omega
  · simp only [List.mem_singleton,forall_eq,inside_iff (show 0 < 4 by decide),securityEntry,
      optionalHeader,ctidx_cast]
    generalize ntHeaders mem = nt at hnt ⊢
    omega

theorem sectionReads_inside_iff (hnt : -6 ≤ ntHeaders mem) (i : ℕ) :
    (∀ r ∈ sectionReads mem i, Inside len r) ↔ sectionAt mem i +
      (if (sectionHeader mem (sectionAt mem i)).sizeOfRawData = 0 then 20 else 24) ≤ len := by
  have hpos : 0 ≤ sectionAt mem i := by
    simp only [sectionAt,optionalHeader]
    generalize ntHeaders mem = nt at hnt ⊢
    omega
  simp only [sectionReads,List.forall_mem_append,List.forall_mem_cons,List.not_mem_nil,
    false_implies,implies_true,and_true,inside_iff (show 0 < 4 by decide)]
  split_ifs
  · simp only [List.not_mem_nil,false_implies,implies_true,and_true]
    generalize sectionAt mem i = a at hpos ⊢
    omega
  · simp only [List.mem_singleton,forall_eq,inside_iff (show 0 < 4 by decide)]
    generalize sectionAt mem i = a at hpos ⊢
    omega

theorem tableReads_inside_iff (hnt : -6 ≤ ntHeaders mem) :
    (∀ r ∈ (List.range (numberOfSections mem)).flatMap (sectionReads mem), Inside len r) ↔
      (0 < numberOfSections mem → sectionAt mem (numberOfSections mem - 1) + (if (sectionHeader mem
        (sectionAt mem (numberOfSections mem - 1))).sizeOfRawData = 0 then 20 else 24) ≤ len) := by
  simp only [List.mem_flatMap,List.mem_range]
  constructor
  · intro h hpos
    exact (sectionReads_inside_iff hnt _).mp fun r hr => h r ⟨_,by omega,hr⟩
  · rintro h r ⟨i,hi,hr⟩
    have hlast := h (by omega)
    refine (sectionReads_inside_iff hnt i).mpr ?_ r hr
    rcases Nat.lt_or_ge i (numberOfSections mem - 1) with hlt | hge
    · -- An entry that is not the last one ends where the next one starts.
      have hnext : sectionAt mem i + 40 ≤ sectionAt mem (numberOfSections mem - 1) := by
        simp only [sectionAt]
        generalize optionalHeader mem + (sizeOfOptionalHeader mem : ℤ) = a
        omega
      have hbound : sectionAt mem i +
          (if (sectionHeader mem (sectionAt mem i)).sizeOfRawData = 0 then 20 else 24) ≤
          sectionAt mem i + 40 := by
        split_ifs <;> omega
      have hstart : sectionAt mem (numberOfSections mem - 1) ≤ len := by
        split_ifs at hlast <;> omega
      omega
    · obtain rfl : i = numberOfSections mem - 1 := by omega
      exact hlast

theorem region_inside_iff {k : Range} (hk : k.Fits) :
    Inside len ((Range.region k).data,(Range.region k).size) ↔ (k.1 < k.2 → 0 ≤ k.1 ∧ k.2 ≤ len) := by
  obtain ⟨hle,-⟩ := hk
  simp only [Range.region]
  rcases hle.eq_or_lt with heq | hlt
  · rw [heq]
    simp [Inside]
  · rw [inside_iff (by omega)]
    have hsize : k.1 + ((k.2 - k.1).toNat : ℤ) = k.2 := by omega
    rw [hsize]
    exact ⟨fun h _ => h,fun h => h hlt⟩

theorem mem_of_mem_foldl_keepOne {rs kept : List Range} {r : Range}
    (hr : r ∈ rs.foldl keepOne kept) : r ∈ kept ∨ r ∈ rs := by
  induction rs generalizing kept with
  | nil => exact Or.inl hr
  | cons q rs ih =>
    rcases ih hr with hr | hr
    · rcases keepOne_eq_or kept q with h | h
      · exact Or.inl (h ▸ hr)
      · rw [h,List.mem_append,List.mem_singleton] at hr
        refine hr.imp_right ?_
        rintro rfl
        exact List.mem_cons_self
    · exact Or.inr (List.mem_cons_of_mem _ hr)

/-- What is added behind the sections ends inside the file. -/
theorem collected_inside_iff (hl : layoutOf (magic mem) = some l) (hnt : -6 ≤ ntHeaders mem)
    (hnt' : ntHeaders mem < 2 ^ 31) :
    (∀ k ∈ collected q mem l len, k.1 < k.2 → 0 ≤ k.1 ∧ k.2 ≤ len) ↔
      ∀ k ∈ keep (allRanges q mem l), k.1 < k.2 → k.2 ≤ len := by
  have hall : (∀ k ∈ keep (allRanges q mem l), k.1 < k.2 → 0 ≤ k.1 ∧ k.2 ≤ len) ↔
      ∀ k ∈ keep (allRanges q mem l), k.1 < k.2 → k.2 ≤ len := by
    refine forall₂_congr fun k hk => forall_congr' fun _ => and_iff_right ?_
    rcases mem_of_mem_foldl_keepOne hk with hk | hk
    · simp at hk
    · exact (allRanges_bounds hl hnt hnt' k hk).1
  rw [← hall,collected]
  split_ifs with hextra
  · rcases keepOne_eq_or (keep (allRanges q mem l))
      ((bytesHashed q mem : ℤ),(len : ℤ) - authsz mem l) with h | h
    · rw [h]
    · rw [h,List.forall_mem_append]
      refine and_iff_left fun k hk _ => ?_
      rw [List.mem_singleton.mp hk]
      show 0 ≤ (bytesHashed q mem : ℤ) ∧ (len : ℤ) - authsz mem l ≤ len
      omega
  · rfl

/-- Nothing outside the file is read or hashed. -/
def Safe (q : Qsort) (cpu : Cpu) (mem : Memory) (len : ℕ) : Prop :=
  ∀ r ∈ (pe256Buffer q cpu mem len).1, Inside len r

theorem long_eq {n : ℕ} (h : n ≤ 64 * 1024 * 1024) : long n = n := by
  have hmod : n % 2 ^ 32 = n := Nat.mod_eq_of_lt (by omega)
  rw [long,hmod,if_pos (by omega)]

/-- The ranges read when the size checks have passed. -/
theorem pe256Buffer_reads (cpu : Cpu) (hsize : ¬ (len < 1024 ∨ 64 * 1024 * 1024 < len)) :
    (pe256Buffer q cpu mem len).1 = (efiImageParse q mem len).reads ++
      match (efiImageParse q mem len).regions with
      | none => []
      | some regs => regs.reg.map fun r => (r.data,r.size) := by
  rw [pe256Buffer,if_neg hsize]
  cases h : (efiImageParse q mem len).regions with
  | none => simp [h]
  | some regs => simp [h]

theorem Represents.inside_iff {regs : Regions} {kept : List Range} (h : Represents regs kept) :
    (∀ r ∈ regs.reg, Inside len (r.data,r.size)) ↔ ∀ k ∈ kept, k.1 < k.2 → 0 ≤ k.1 ∧ k.2 ≤ len := by
  constructor
  · intro hreg k hk
    exact (region_inside_iff (h.fits k hk)).mp (hreg _ (h.perm.symm.subset (List.mem_map_of_mem hk)))
  · intro hkept r hr
    obtain ⟨k,hk,rfl⟩ := List.mem_map.mp (h.perm.subset hr)
    exact (region_inside_iff (h.fits k hk)).mpr (hkept k hk)

theorem firstReads_inside_iff (hnt : ntHeaders mem ≤ len - 0x40) :
    Inside len (ntHeaders mem + 6,2) ∧ Inside len (optionalHeader mem,2) ↔ -6 ≤ ntHeaders mem := by
  rw [inside_iff (by decide),inside_iff (by decide),optionalHeader]
  generalize ntHeaders mem = nt at hnt ⊢
  omega

/-- What has to be inside the file of an image that is parsed. -/
theorem safe_iff_of_layout (cpu : Cpu) (hsize : ¬ (len < 1024 ∨ 64 * 1024 * 1024 < len))
    (hcheck : ¬ (len : ℤ) - 0x40 < lfanew mem) (hl : layoutOf (magic mem) = some l) :
    Safe q cpu mem len ↔ -6 ≤ ntHeaders mem ∧ (∀ r ∈ headerReads mem l, Inside len r) ∧
      (∀ r ∈ (List.range (numberOfSections mem)).flatMap (sectionReads mem), Inside len r) ∧
      (-6 ≤ ntHeaders mem → ∀ r ∈ keep (allRanges q mem l), r.1 < r.2 → r.2 ≤ len) := by
  have hlong : long len = len := long_eq (by omega)
  have hdos : Inside len (0x3c,4) := (inside_iff (by decide)).mpr (by omega)
  have hnt : ntHeaders mem ≤ len - 0x40 := not_lt.mp hcheck
  have hlen : ¬ len < 0x80 := by omega
  rw [← hlong] at hcheck
  obtain ⟨regs,hparse,hregs⟩ := efiImageParse_eq (q := q) hlen hcheck hl
  have hreads : Safe q cpu mem len ↔ -6 ≤ ntHeaders mem ∧ (∀ r ∈ headerReads mem l, Inside len r) ∧
      (∀ r ∈ (List.range (numberOfSections mem)).flatMap (sectionReads mem), Inside len r) ∧
      ∀ r ∈ regs.reg, Inside len (r.data,r.size) := by
    rw [Safe,pe256Buffer_reads cpu hsize,hparse,← firstReads_inside_iff hnt]
    simp only [List.forall_mem_append,List.forall_mem_cons,List.not_mem_nil,false_implies,
      implies_true,and_true,hdos,true_and,List.forall_mem_map,and_assoc]
  rw [hreads]
  refine and_congr_right fun hstart => and_congr_right fun _ => and_congr_right fun _ => ?_
  rw [(hregs hstart (by omega) (by omega)).inside_iff,collected_inside_iff hl hstart (by omega)]
  exact ⟨fun h _ => h,fun h => h hstart⟩

theorem safe_iff_fieldsFit (cpu : Cpu) (hsize : ¬ (len < 1024 ∨ 64 * 1024 * 1024 < len))
    (hcheck : ¬ (len : ℤ) - 0x40 < lfanew mem) : Safe q cpu mem len ↔ FieldsFit q mem len := by
  cases hl : layoutOf (magic mem) with
  | none =>
    have hlong : long len = len := long_eq (by omega)
    have hdos : Inside len (0x3c,4) := (inside_iff (by decide)).mpr (by omega)
    have hreads : Safe q cpu mem len ↔ -6 ≤ ntHeaders mem := by
      rw [Safe,pe256Buffer_reads cpu hsize,efiImageParse,if_neg (by omega),hlong,if_neg hcheck,hl,
        ← firstReads_inside_iff (not_lt.mp hcheck)]
      simp [hdos]
    rw [hreads]
    exact ⟨fun h => ⟨h,by simp [hl],by simp [hl],by simp [hl]⟩,fun h => h.start⟩
  | some l =>
    rw [safe_iff_of_layout cpu hsize hcheck hl]
    constructor
    · rintro ⟨hnt,hheader,htable,hranges⟩
      refine ⟨hnt,fun l' hl' => ?_,fun l' hl' => ?_,fun l' hl' => ?_⟩ <;>
        obtain rfl := Option.some.inj (hl.symm.trans hl')
      · exact (headerReads_inside_iff hl hnt).mp hheader
      · exact (tableReads_inside_iff hnt).mp htable
      · exact hranges hnt
    · intro h
      exact ⟨h.start,(headerReads_inside_iff hl h.start).mpr (h.header l hl),
        (tableReads_inside_iff h.start).mpr (h.table l hl),fun _ => h.ranges l hl⟩

/-- The digest is computed without leaving the file exactly when the file is refused by the
size checks or its fields fit. -/
theorem pe256Buffer_safe_iff (q : Qsort) (cpu : Cpu) (mem : Memory) (len : ℕ) :
    Safe q cpu mem len ↔ len < 1024 ∨ 64 * 1024 * 1024 < len ∨ (len : ℤ) - 0x40 < lfanew mem ∨
      FieldsFit q mem len := by
  by_cases hsize : len < 1024 ∨ 64 * 1024 * 1024 < len
  · have hnone : Safe q cpu mem len := by
      simp [Safe,pe256Buffer,if_pos hsize]
    exact iff_of_true hnone (hsize.imp_right Or.inl)
  by_cases hcheck : (len : ℤ) - 0x40 < lfanew mem
  · have hearly : Safe q cpu mem len := by
      have hdos : Inside len (0x3c,4) := (inside_iff (by decide)).mpr (by omega)
      rw [Safe,pe256Buffer_reads cpu hsize,efiImageParse,if_neg (by omega),long_eq (by omega),if_pos hcheck]
      simpa using hdos
    exact iff_of_true hearly (Or.inr (Or.inr (Or.inl hcheck)))
  have hfits : Safe q cpu mem len ↔ FieldsFit q mem len := safe_iff_fieldsFit cpu hsize hcheck
  rw [not_or] at hsize
  rw [or_iff_right hsize.1,or_iff_right hsize.2,or_iff_right hcheck]
  exact hfits

end inside

def stableSort : Qsort where
  sort l := l.mergeSort fun a b => decide (a.virtualAddress ≤ b.virtualAddress)
  perm l := List.mergeSort_perm l _
  sorted l := by
    have h : (l.mergeSort fun a b => decide (a.virtualAddress ≤ b.virtualAddress)).Pairwise
        fun a b => decide (a.virtualAddress ≤ b.virtualAddress) = true :=
      List.pairwise_mergeSort (by simp; omega) (by simp; omega) l
    exact h.imp (by simp)

/-- An image whose headers are said to start 4 KB before the file. -/
def startsBefore : Memory := fun a => if a = 0x3d then 0xF0 else if a = 0x3e ∨ a = 0x3f then 0xFF else 0

theorem pe256Buffer_reads_before : ¬ Safe stableSort ⟨none,none⟩ startsBefore 1024 := by
  intro h
  have hread : (-4090,2) ∈ (pe256Buffer stableSort ⟨none,none⟩ startsBefore 1024).1 := by
    decide +kernel
  exact absurd (h _ hread 0 (by decide)).1 (by decide)

end SecureWipeOut.PeImage
