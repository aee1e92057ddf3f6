import SecureWipeOut.Hash.Digest
import SecureWipeOut.Lib.CInt
import SecureWipeOut.Lib.Ranges
import SecureWipeOut.Image.PeRange

/-! # What the digest of a PE image covers

An image whose sections follow the headers without gaps, in whatever order the table has
them, is hashed from its first byte to its last, but for the checksum, the entry of the
certificate table and the table itself.
-/
namespace SecureWipeOut.PeImage
open Hash CInt Ranges

section rounding

theorem and_not_mask {k : ℕ} (hk : k < 32) (x : BitVec 32) :
    (x &&& ~~~(BitVec.ofNat 32 (2 ^ k) - 1#32)).toNat = x.toNat / 2 ^ k * 2 ^ k := by
  have hpow : 2 ^ k < 2 ^ 32 := Nat.pow_lt_pow_right (by decide) hk
  have hpos : 0 < 2 ^ k := Nat.two_pow_pos k
  have hmask : BitVec.ofNat 32 (2 ^ k) - 1#32 = BitVec.ofNat 32 (2 ^ k - 1) := by
    apply BitVec.eq_of_toNat_eq
    generalize 2 ^ k = m at hpow hpos
    simp only [BitVec.toNat_sub,BitVec.toNat_ofNat]
    omega
  have hshift : x &&& ~~~(BitVec.ofNat 32 (2 ^ k) - 1#32) = (x >>> k) <<< k := by
    rw [hmask]
    apply BitVec.eq_of_getLsbD_eq
    intro i hi
    simp only [BitVec.getLsbD_and,BitVec.getLsbD_not,BitVec.getLsbD_ofNat,
      Nat.testBit_two_pow_sub_one,BitVec.getLsbD_shiftLeft,BitVec.getLsbD_ushiftRight]
    by_cases hik : i < k
    · simp [hik,hi]
    · have : k + (i - k) = i := by omega
      simp [hik,hi,this]
  rw [hshift,BitVec.toNat_shiftLeft,BitVec.toNat_ushiftRight,Nat.shiftLeft_eq,Nat.shiftRight_eq_div_pow]
  exact Nat.mod_eq_of_lt (lt_of_le_of_lt (Nat.div_mul_le_self _ _) x.isLt)

/-- Where nothing overflows, the size is rounded up to the alignment. -/
theorem roundedSize_eq {k raw : ℕ} (hk : k < 32) (hraw : raw + 2 ^ k ≤ 2 ^ 32) :
    roundedSize (2 ^ k) raw = ceilAlign raw (2 ^ k) := by
  have hpow : 2 ^ k < 2 ^ 32 := Nat.pow_lt_pow_right (by decide) hk
  have hpos : 0 < 2 ^ k := Nat.two_pow_pos k
  have hsum : (BitVec.ofNat 32 raw + BitVec.ofNat 32 (2 ^ k) - 1#32).toNat = raw + 2 ^ k - 1 := by
    generalize 2 ^ k = m at hraw hpow hpos
    simp only [BitVec.toNat_sub,BitVec.toNat_add,BitVec.toNat_ofNat]
    omega
  rw [roundedSize,and_not_mask hk,hsum,ceilAlign]

end rounding

section order
variable (mem : Memory)

/-- The bytes of a region. -/
def regionBytes (r : Region) : List UInt8 := bytes (fun i => mem (r.data + i)) r.size

theorem message_chunks (regs : Regions) :
    message (chunks mem regs) = regs.reg.flatMap (regionBytes mem) := by
  rw [message,chunks,List.flatMap_map]
  rfl

/-- A byte lies in one of the regions. -/
def covered (l : List Region) (i : ℕ) : Bool := l.any fun r => decide (r.data ≤ i ∧ i < r.stop)

/-- The bytes that a region covers are followed by those that the regions behind it cover. -/
theorem filter_covered_cons {r : Region} {rest : List Region} {a d : ℕ} (m : ℕ) (hd : r.data = (a + d : ℕ))
    (hr : ∀ q ∈ rest, r.stop ≤ q.data) :
    (List.range' a (d + r.size + m)).filter (covered (r :: rest)) =
      List.range' (a + d) r.size ++ (List.range' (a + d + r.size) m).filter (covered rest) := by
  have hsplit : List.range' a (d + r.size + m) = List.range' a d ++ List.range' (a + d) r.size ++
      List.range' (a + d + r.size) m := by
    rw [List.range'_append_1,Nat.add_assoc a d r.size,List.range'_append_1]
  have hbefore : (List.range' a d).filter (covered (r :: rest)) = [] := by
    refine List.filter_eq_nil_iff.mpr fun i hi => ?_
    rw [List.mem_range'_1] at hi
    simp only [covered,List.any_cons,List.any_eq_true,Bool.or_eq_true,decide_eq_true_iff]
    rintro (h | ⟨q,hq,h⟩)
    · omega
    · have := hr q hq
      rw [Region.stop] at this
      omega
  have hhere : (List.range' (a + d) r.size).filter (covered (r :: rest)) =
      List.range' (a + d) r.size := by
    refine List.filter_eq_self.mpr fun i hi => ?_
    rw [List.mem_range'_1] at hi
    simp only [covered,List.any_cons,Bool.or_eq_true,decide_eq_true_iff]
    refine Or.inl ?_
    rw [Region.stop]
    omega
  have hafter : (List.range' (a + d + r.size) m).filter (covered (r :: rest)) =
      (List.range' (a + d + r.size) m).filter (covered rest) := by
    refine List.filter_congr fun i hi => ?_
    rw [List.mem_range'_1] at hi
    have hno : decide (r.data ≤ i ∧ i < r.stop) = false := by
      rw [decide_eq_false_iff_not,Region.stop]
      omega
    simp only [covered,List.any_cons,hno,Bool.false_or]
  rw [hsplit,List.filter_append,List.filter_append,hbefore,hhere,hafter,List.nil_append]

/-- Regions in ascending order spell the bytes they cover. -/
theorem flatMap_regionBytes {l : List Region} {a n : ℕ} (hl : InOrder l)
    (hstart : ∀ r ∈ l, (a : ℤ) ≤ r.data) (hstop : ∀ r ∈ l, r.stop ≤ (a + n : ℕ)) :
    l.flatMap (regionBytes mem) =
      ((List.range' a n).filter (covered l)).map fun i => mem (i : ℕ) := by
  induction l generalizing a n with
  | nil => simp [covered]
  | cons r rest ih =>
    obtain ⟨hr,hrest⟩ := List.pairwise_cons.mp hl
    have h1 := hstart r List.mem_cons_self
    have h2 := hstop r List.mem_cons_self
    rw [Region.stop] at h2
    obtain ⟨d,hd⟩ : ∃ d : ℕ, r.data = (a + d : ℕ) := ⟨(r.data - a).toNat,by omega⟩
    obtain ⟨m,rfl⟩ : ∃ m, n = d + r.size + m := ⟨n - d - r.size,by omega⟩
    have hbytes : regionBytes mem r = (List.range' (a + d) r.size).map fun i => mem (i : ℕ) := by
      rw [regionBytes,bytes,List.range'_eq_map_range,List.map_map]
      refine List.map_congr_left fun i _ => ?_
      simp only [Function.comp_apply,hd,Nat.cast_add]
    rw [List.flatMap_cons,filter_covered_cons m hd hr,List.map_append,hbytes]
    congr 1
    refine ih hrest (fun q hq => ?_) fun q hq => ?_
    · have := hr q hq
      rw [Region.stop] at this
      omega
    · have := hstop q (List.mem_cons_of_mem _ hq)
      omega

end order

/-- The file address that the certificate table's entry gives. -/
def certificateTable (mem : Memory) (l : Layout) : ℕ := readDword mem (securityEntry mem l)

/-- The part of the file that the raw data of a section takes. -/
def filePart (mem : Memory) (s : SectionHeader) : ℕ × ℕ :=
  (s.pointerToRawData,ceilAlign s.sizeOfRawData (fileAlignment mem))

/-- An image of a size that is hashed: the headers hold the fields of the optional header,
the raw data of the sections follows them without gaps in some order, and the certificate
table, if there is one, is the end of the file. -/
structure WellFormed (mem : Memory) (len : ℕ) (l : Layout) : Prop where
  size : 1024 ≤ len ∧ len ≤ 64 * 1024 * 1024
  start : 0 ≤ ntHeaders mem
  layout : layoutOf (magic mem) = some l
  headers : optionalHeader mem + (if numberOfRvaAndSizes mem l ≤ ctidx then
    l.numberOfRvaAndSizes + 4 else l.dataDirectory + 40) ≤ sizeOfHeaders mem
  align : ∃ k < 32, fileAlignment mem = 2 ^ k
  contiguous : ∃ (files : List SectionHeader) (e : ℕ),
    files.Perm ((sections mem).filter fun s => s.sizeOfRawData ≠ 0) ∧
      Tiles (sizeOfHeaders mem) (files.map (filePart mem)) e ∧ e + authsz mem l ≤ len
  certificates : authsz mem l = 0 ∨ certificateTable mem l + authsz mem l = len

/-- A byte that is not part of the digest. -/
def removed (mem : Memory) (l : Layout) (i : ℕ) : Bool :=
  decide (checkSum mem ≤ i ∧ i < checkSum mem + 4) ||
    decide (ctidx < numberOfRvaAndSizes mem l ∧ securityEntry mem l ≤ i ∧ i < securityEntry mem l + 8) ||
    decide (certificateTable mem l ≤ i ∧ i < certificateTable mem l + authsz mem l)

/-- The image without these bytes. -/
def authenticodeBytes (mem : Memory) (len : ℕ) (l : Layout) : List UInt8 :=
  ((List.range len).filter fun i => !removed mem l i).map fun i => mem (i : ℕ)

section coverage
variable {q : Qsort} {mem : Memory} {len : ℕ} {l : Layout}

/-- The sections with raw data, in the order in which they are added. -/
def added (q : Qsort) (mem : Memory) : List SectionHeader :=
  (q.sort (sections mem)).filter fun s => s.sizeOfRawData ≠ 0

theorem WellFormed.parts (h : WellFormed mem len l) (q : Qsort) :
    ∃ (files : List SectionHeader) (e : ℕ), (added q mem).Perm files ∧
      Tiles (sizeOfHeaders mem) (files.map (filePart mem)) e ∧ e + authsz mem l ≤ len ∧
      ∀ s ∈ files, roundedSize (fileAlignment mem) s.sizeOfRawData = (filePart mem s).2 := by
  obtain ⟨files,e,hperm,htiles,hend⟩ := h.contiguous
  obtain ⟨k,hk,halign⟩ := h.align
  refine ⟨files,e,((q.perm _).filter _).trans hperm.symm,htiles,hend,fun s hs => ?_⟩
  have hmem := htiles.packed.mem (List.mem_map_of_mem (f := filePart mem) hs)
  have hsize := h.size
  simp only [filePart,halign] at hmem ⊢
  have hpos : 0 < 2 ^ k := Nat.two_pow_pos k
  have hraw : s.sizeOfRawData ≤ ceilAlign s.sizeOfRawData (2 ^ k) := le_ceilAlign _ hpos
  have hle : 2 ^ k ≤ ceilAlign s.sizeOfRawData (2 ^ k) :=
    Nat.le_of_dvd hmem.2.1 (dvd_ceilAlign _ _)
  exact roundedSize_eq hk (by omega)

theorem sectionRanges_eq (q : Qsort) (mem : Memory) {files : List SectionHeader}
    (hperm : (added q mem).Perm files)
    (hsize : ∀ s ∈ files, roundedSize (fileAlignment mem) s.sizeOfRawData = (filePart mem s).2) :
    sectionRanges (fileAlignment mem) (q.sort (sections mem)) = (added q mem).map fun s =>
      (((filePart mem s).1 : ℤ),((filePart mem s).1 : ℤ) + (filePart mem s).2) := by
  rw [sectionRanges]
  refine List.map_congr_left fun s hs => ?_
  rw [sectionRange,hsize s (hperm.subset hs)]
  rfl

theorem bytesHashed_eq (q : Qsort) (mem : Memory) {files : List SectionHeader} {e : ℕ}
    (hperm : (added q mem).Perm files)
    (htiles : Tiles (sizeOfHeaders mem) (files.map (filePart mem)) e)
    (hsize : ∀ s ∈ files, roundedSize (fileAlignment mem) s.sizeOfRawData = (filePart mem s).2) :
    bytesHashed q mem = e := by
  have hsum : ((added q mem).map fun s => roundedSize (fileAlignment mem) s.sizeOfRawData).sum =
      ((files.map (filePart mem)).map Prod.snd).sum := by
    rw [(hperm.map _).sum_eq,List.map_map]
    exact congrArg List.sum (List.map_congr_left hsize)
  rw [bytesHashed,← htiles.sum,← hsum]
  rfl

/-- The ranges of the headers lie in them, one behind the other. -/
theorem WellFormed.headerRanges_spec (h : WellFormed mem len l) :
    (∀ r ∈ headerRanges mem l, 0 ≤ r.1 ∧ r.1 ≤ r.2 ∧ r.2 ≤ sizeOfHeaders mem) ∧
      (headerRanges mem l).Pairwise Apart ∧
      ∀ i : ℕ, (∃ r ∈ headerRanges mem l, r.1 ≤ i ∧ i < r.2) ↔ (i < sizeOfHeaders mem ∧
        ¬ (checkSum mem ≤ i ∧ i < checkSum mem + 4) ∧
        ¬ (ctidx < numberOfRvaAndSizes mem l ∧ securityEntry mem l ≤ i ∧ i < securityEntry mem l + 8)) := by
  have hstart := h.start
  have hheaders := h.headers
  have hdir := dataDirectory_bounds h.layout
  rw [headerRanges]
  by_cases hnone : numberOfRvaAndSizes mem l ≤ ctidx
  · have hno : ¬ ctidx < numberOfRvaAndSizes mem l := not_lt.mpr hnone
    rw [if_pos hnone] at hheaders
    simp only [if_pos hnone,hno,false_and,not_false_eq_true,and_true,List.forall_mem_cons,
      List.not_mem_nil,false_implies,implies_true,List.pairwise_cons,List.Pairwise.nil,
      List.exists_mem_cons_iff,exists_false,false_and,or_false,Apart,checkSum,subsystem,optionalHeader]
      at hheaders ⊢
    generalize ntHeaders mem = nt at hstart hheaders ⊢
    generalize sizeOfHeaders mem = size at hheaders ⊢
    refine ⟨by omega,by omega,fun i => by omega⟩
  · have hyes : ctidx < numberOfRvaAndSizes mem l := not_le.mp hnone
    rw [if_neg hnone] at hheaders
    simp only [if_neg hnone,hyes,true_and,and_true,List.forall_mem_cons,
      List.not_mem_nil,false_implies,implies_true,List.pairwise_cons,List.Pairwise.nil,
      List.exists_mem_cons_iff,exists_false,false_and,or_false,Apart,checkSum,subsystem,securityEntry,
      optionalHeader,ctidx_cast] at hheaders ⊢
    generalize ntHeaders mem = nt at hstart hheaders ⊢
    generalize sizeOfHeaders mem = size at hheaders ⊢
    refine ⟨by omega,by omega,fun i => by omega⟩

theorem WellFormed.headers_le (h : WellFormed mem len l) (hlen : sizeOfHeaders mem ≤ len) :
    ntHeaders mem + 0x40 ≤ len := by
  have hheaders := h.headers
  have hdir := dataDirectory_bounds h.layout
  rw [optionalHeader] at hheaders
  generalize ntHeaders mem = nt at hheaders ⊢
  split_ifs at hheaders <;> omega

/-- The range in memory of a part of the file. -/
def partRange (r : ℕ × ℕ) : Range := ((r.1 : ℤ),(r.1 : ℤ) + r.2)

theorem apart_partRange {r t : ℕ × ℕ} (h : r.1 + r.2 ≤ t.1) : Apart (partRange r) (partRange t) :=
  Or.inl (by simp only [partRange]; omega)

/-- Ranges of contiguous parts are apart, in whatever order they come. -/
theorem pairwise_apart_parts {ss files : List SectionHeader} {a e : ℕ} (hperm : ss.Perm files)
    (htiles : Tiles a (files.map (filePart mem)) e) :
    (ss.map fun s => partRange (filePart mem s)).Pairwise Apart := by
  have hfiles := (List.pairwise_map.mp htiles.packed.pairwise).imp
    fun {r t} h => apart_partRange h
  rw [List.pairwise_map]
  exact (hperm.pairwise_iff fun h => Or.symm h).mpr hfiles

theorem mem_parts {ss files : List SectionHeader} {a e : ℕ} (hperm : ss.Perm files)
    (htiles : Tiles a (files.map (filePart mem)) e) {r : Range}
    (hr : r ∈ ss.map fun s => partRange (filePart mem s)) : (a : ℤ) ≤ r.1 ∧ r.1 ≤ r.2 ∧ r.2 ≤ e := by
  obtain ⟨s,hs,rfl⟩ := List.mem_map.mp hr
  have hmem := htiles.mem_bounds (List.mem_map_of_mem (f := filePart mem) (hperm.subset hs))
  simp only [partRange]
  omega

/-- The parts cover the file from one end to the other. -/
theorem exists_parts_iff {ss files : List SectionHeader} {a e : ℕ} (hperm : ss.Perm files)
    (htiles : Tiles a (files.map (filePart mem)) e) (i : ℕ) :
    (∃ r ∈ ss.map fun s => partRange (filePart mem s), r.1 ≤ i ∧ i < r.2) ↔ a ≤ i ∧ i < e := by
  constructor
  · rintro ⟨r,hr,hi⟩
    have := mem_parts hperm htiles hr
    omega
  · rintro ⟨h1,h2⟩
    obtain ⟨t,ht,hi⟩ := htiles.exists_mem h1 h2
    obtain ⟨s,hs,rfl⟩ := List.mem_map.mp ht
    refine ⟨_,List.mem_map.mpr ⟨s,hperm.symm.subset hs,rfl⟩,?_⟩
    simp only [partRange]
    omega

/-- All ranges of a well-formed image are kept: its headers, its sections and what follows. -/
theorem WellFormed.collected_eq (h : WellFormed mem len l) (q : Qsort) :
    ∃ e : ℕ, sizeOfHeaders mem ≤ e ∧ e + authsz mem l ≤ len ∧
      collected q mem l len = headerRanges mem l ++
        (added q mem).map (fun s => partRange (filePart mem s)) ++
        (if e + authsz mem l < len then [((e : ℤ),(len : ℤ) - authsz mem l)] else []) ∧
      (∀ k ∈ collected q mem l len, 0 ≤ k.1 ∧ k.2 ≤ len) ∧
      ∀ i : ℕ, (∃ r ∈ (added q mem).map fun s => partRange (filePart mem s), r.1 ≤ i ∧ i < r.2) ↔
        sizeOfHeaders mem ≤ i ∧ i < e := by
  obtain ⟨files,e,hperm,htiles,hend,hsize⟩ := h.parts q
  obtain ⟨hheader,hapart,-⟩ := h.headerRanges_spec
  have hparts : ∀ r ∈ (added q mem).map (fun s => partRange (filePart mem s)),
      (sizeOfHeaders mem : ℤ) ≤ r.1 ∧ r.1 ≤ r.2 ∧ r.2 ≤ e := fun r hr => mem_parts hperm htiles hr
  have hranges : allRanges q mem l = headerRanges mem l ++
      (added q mem).map fun s => partRange (filePart mem s) := by
    rw [allRanges,sectionRanges_eq q mem hperm hsize]
    rfl
  have hpairwise : (headerRanges mem l ++
      (added q mem).map fun s => partRange (filePart mem s)).Pairwise Apart := by
    refine List.pairwise_append.mpr ⟨hapart,pairwise_apart_parts hperm htiles,fun r hr t ht => ?_⟩
    exact Or.inl ((hheader r hr).2.2.trans (hparts t ht).1)
  have hkeep : keep (allRanges q mem l) = headerRanges mem l ++
      (added q mem).map fun s => partRange (filePart mem s) := by
    rw [keep,hranges,foldl_keepOne_of_apart ?_ (by simp) hpairwise,List.nil_append]
    intro r hr
    rcases List.mem_append.mp hr with hr | hr
    · exact (hheader r hr).2.1
    · exact (hparts r hr).2.1
  have hle : sizeOfHeaders mem ≤ e := htiles.le
  have hcollected : collected q mem l len = headerRanges mem l ++
      (added q mem).map (fun s => partRange (filePart mem s)) ++
      (if e + authsz mem l < len then [((e : ℤ),(len : ℤ) - authsz mem l)] else []) := by
    rw [collected,bytesHashed_eq q mem hperm htiles hsize,hkeep]
    split_ifs with hextra
    · refine if_pos ⟨by show (e : ℤ) ≤ len - authsz mem l; omega,fun k hk => Or.inl ?_⟩
      rcases List.mem_append.mp hk with hk | hk
      · exact (hheader k hk).2.2.trans (by show (sizeOfHeaders mem : ℤ) ≤ e; omega)
      · exact (hparts k hk).2.2
    · rw [List.append_nil]
  refine ⟨e,hle,hend,hcollected,fun k hk => ?_,exists_parts_iff hperm htiles⟩
  rw [hcollected,List.mem_append,List.mem_append] at hk
  rcases hk with (hk | hk) | hk
  · have := hheader k hk
    omega
  · have := hparts k hk
    omega
  · split_ifs at hk
    · rw [List.mem_singleton.mp hk]
      show 0 ≤ (e : ℤ) ∧ (len : ℤ) - authsz mem l ≤ len
      omega
    · simp at hk

theorem covered_iff {regs : Regions} {kept : List Range} (h : Represents regs kept) (i : ℕ) :
    covered regs.reg i = true ↔ ∃ k ∈ kept, k.1 ≤ i ∧ i < k.2 := by
  simp only [covered,List.any_eq_true,decide_eq_true_iff]
  constructor
  · rintro ⟨r,hr,hi⟩
    obtain ⟨k,hk,rfl⟩ := List.mem_map.mp (h.perm.subset hr)
    rw [(h.fits k hk).stop] at hi
    exact ⟨k,hk,hi⟩
  · rintro ⟨k,hk,hi⟩
    refine ⟨k.region,h.perm.symm.subset (List.mem_map_of_mem hk),?_⟩
    rwa [(h.fits k hk).stop]

/-- The bytes left out of a well-formed image: two fields of its headers and its end. -/
theorem WellFormed.removed_iff (h : WellFormed mem len l) {e i : ℕ} (hsoh : sizeOfHeaders mem ≤ e)
    (hend : e + authsz mem l ≤ len) (hi : i < len) : removed mem l i = false ↔
      (i < sizeOfHeaders mem ∧ ¬ (checkSum mem ≤ i ∧ i < checkSum mem + 4) ∧
        ¬ (ctidx < numberOfRvaAndSizes mem l ∧ securityEntry mem l ≤ i ∧ i < securityEntry mem l + 8)) ∨
      sizeOfHeaders mem ≤ i ∧ i + authsz mem l < len := by
  have hheaders := h.headers
  have hdir := dataDirectory_bounds h.layout
  have hcheckSum : checkSum mem + 4 ≤ sizeOfHeaders mem := by
    rw [checkSum]
    generalize optionalHeader mem = opt at hheaders ⊢
    split_ifs at hheaders <;> omega
  have hsecurity : ctidx < numberOfRvaAndSizes mem l → securityEntry mem l + 8 ≤ sizeOfHeaders mem := by
    intro hyes
    rw [if_neg (not_le.mpr hyes)] at hheaders
    rw [securityEntry,ctidx_cast]
    omega
  have hcert : (certificateTable mem l ≤ i ∧ i < certificateTable mem l + authsz mem l) ↔
      len ≤ i + authsz mem l := by
    rcases h.certificates with h0 | h0 <;> omega
  simp only [removed,Bool.or_eq_false_iff,decide_eq_false_iff_not,hcert]
  constructor
  · rintro ⟨⟨hA,hB⟩,hC⟩
    rcases Nat.lt_or_ge i (sizeOfHeaders mem) with hlt | hge
    · exact Or.inl ⟨hlt,hA,hB⟩
    · exact Or.inr ⟨hge,not_le.mp hC⟩
  · rintro (⟨hlt,hA,hB⟩ | ⟨hge,hC⟩)
    · exact ⟨⟨hA,hB⟩,by omega⟩
    · refine ⟨⟨fun hA => ?_,fun hB => ?_⟩,not_le.mpr hC⟩
      · omega
      · have := hsecurity hB.1
        omega

/-- The regions of a well-formed image, in the order in which they are hashed, spell the
image without its checksum, the entry of the certificate table and the table. -/
theorem pe256Buffer_covers (q : Qsort) (cpu : Cpu) (h : WellFormed mem len l) :
    ∃ regs, (efiImageParse q mem len).regions = some regs ∧
      message (chunks mem regs) = authenticodeBytes mem len l ∧
      (pe256Buffer q cpu mem len).2 = (sha256 cpu).hash (chunks mem regs) := by
  obtain ⟨e,hsoh,hend,hcollected,hbounds,hparts⟩ := h.collected_eq q
  obtain ⟨-,-,hheader⟩ := h.headerRanges_spec
  have hsize := h.size
  have hnt : ntHeaders mem + 0x40 ≤ len := h.headers_le (by omega)
  have hcheck : ¬ long len - 0x40 < lfanew mem := by
    rw [long_eq hsize.2,not_lt]
    exact le_sub_iff_add_le.mpr hnt
  obtain ⟨regs,hparse,hregs⟩ := efiImageParse_eq (q := q) (by omega) hcheck h.layout
  have hstart := h.start
  have hnt' : ntHeaders mem < 2 ^ 31 := by omega
  have hrep := hregs (by omega) hnt' (by omega)
  refine ⟨regs,by rw [hparse],?_,?_⟩
  · rw [message_chunks,flatMap_regionBytes mem hrep.order (a := 0) (n := len),authenticodeBytes,
      List.range_eq_range']
    · refine congrArg (List.map _) (List.filter_congr fun i hi => ?_)
      rw [List.mem_range'_1,Nat.zero_add] at hi
      rw [Bool.eq_iff_iff,covered_iff hrep,hcollected,Bool.not_eq_true']
      have hextra : (∃ k ∈ if e + authsz mem l < len then [((e : ℤ),(len : ℤ) - authsz mem l)] else [],
          k.1 ≤ i ∧ i < k.2) ↔ e ≤ i ∧ i + authsz mem l < len := by
        split_ifs
        · simp only [List.mem_singleton,exists_eq_left]
          omega
        · simp only [List.not_mem_nil,false_and,exists_false,false_iff]
          omega
      simp only [List.mem_append,or_and_right,exists_or,hheader i,hparts i,hextra]
      rw [h.removed_iff hsoh hend hi.2,or_assoc]
      refine or_congr_right ?_
      omega
    · intro r hr
      obtain ⟨k,hk,rfl⟩ := List.mem_map.mp (hrep.perm.subset hr)
      exact (hbounds k hk).1
    · intro r hr
      obtain ⟨k,hk,rfl⟩ := List.mem_map.mp (hrep.perm.subset hr)
      rw [(hrep.fits k hk).stop,Nat.zero_add]
      exact (hbounds k hk).2
  · rw [pe256Buffer,if_neg (by omega),hparse]

end coverage

/-- The bytes other than zero of a 32-bit image with headers of 512 bytes, one section of
512 bytes and a certificate table of 8 bytes. -/
def smallFields : List (ℤ × UInt8) :=
  [(0x3c,0x40),(70,1),(84,224),(88,0x0b),(89,0x01),(125,2),(149,2),(180,16),(217,4),(220,8),
    (325,0x10),(329,2),(333,2)]

def smallImage : Memory := fun a => ((smallFields.find? fun f => f.1 = a).map Prod.snd).getD 0

theorem wellFormed_smallImage : WellFormed smallImage 1032 layout32 where
  size := by decide
  start := by decide +kernel
  layout := by decide +kernel
  headers := by decide +kernel
  align := ⟨9,by decide,by decide +kernel⟩
  contiguous := by
    refine ⟨[⟨0x1000,512,512⟩],1024,?_,?_,by decide +kernel⟩
    · have hsections : (sections smallImage).filter (fun s => s.sizeOfRawData ≠ 0) =
          [⟨0x1000,512,512⟩] := by decide +kernel
      rw [hsections]
    · have hpart : filePart smallImage ⟨0x1000,512,512⟩ = (512,512) := by decide +kernel
      have hheaders : sizeOfHeaders smallImage = 512 := by decide +kernel
      rw [List.map_singleton,hpart,hheaders]
      exact ⟨rfl,by decide,rfl⟩
  certificates := Or.inr (by decide +kernel)

theorem pe256Buffer_covers_small : WellFormed smallImage 1032 layout32 ∧
    ∃ regs, (efiImageParse stableSort smallImage 1032).regions = some regs ∧
      message (chunks smallImage regs) = authenticodeBytes smallImage 1032 layout32 ∧
      (pe256Buffer stableSort ⟨none,none⟩ smallImage 1032).2 =
        (sha256 ⟨none,none⟩).hash (chunks smallImage regs) :=
  ⟨wellFormed_smallImage,pe256Buffer_covers stableSort ⟨none,none⟩ wellFormed_smallImage⟩

end SecureWipeOut.PeImage
