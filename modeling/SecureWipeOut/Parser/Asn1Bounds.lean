import SecureWipeOut.Parser.Asn1Elements

/-! # Range of the reads of the ASN.1 walk

A header that the end of its buffer cuts off is read past that end; all other reads stay
inside, and so does the data returned.
-/
namespace SecureWipeOut.Asn1
open CInt

section bounds
variable {mem : ℕ → UInt8} {oid : List UInt8} {asn1Type : UInt8} {total : ℕ}

/-- The read is inside the buffer of its call, which is inside the whole buffer. -/
def Read.Inside (total : ℕ) (r : Read) : Prop := r.index < r.bufLen ∧ r.base + r.bufLen ≤ total

def AllInside (total : ℕ) (s : Search) : Prop := ∀ r ∈ s.reads, r.Inside total

theorem AllInside.read {s : Search} (h : AllInside total s) {base bufLen index count : ℕ}
    (hindex : index + count ≤ bufLen) (htotal : base + bufLen ≤ total) :
    AllInside total (s.read base bufLen index count) := by
  intro r hr
  rw [Search.read,List.mem_append] at hr
  rcases hr with hr | hr
  · obtain ⟨i,hi,rfl⟩ := List.mem_map.mp hr
    rw [List.mem_range'_1] at hi
    exact ⟨by show i < bufLen; omega,htotal⟩
  · exact h r hr

theorem mem_read {s : Search} (base bufLen index count : ℕ) {r : Read} (hr : r ∈ s.reads) :
    r ∈ (s.read base bufLen index count).reads :=
  List.mem_append_right _ hr

theorem mem_primitive (base bufLen pos len : ℕ) (h : UInt8) {s : Search} {r : Read}
    (hr : r ∈ s.reads) : r ∈ (primitive mem oid asn1Type base bufLen pos len h s).reads := by
  rw [primitive]
  split_ifs
  · exact hr
  · exact mem_read base bufLen pos oid.length hr
  · exact mem_read base bufLen pos oid.length hr
  · exact hr
  · exact hr

theorem mem_element {walk : ℕ → ℕ → ℕ → Search → Status × Search} {r : Read}
    (hwalk : ∀ base bufLen pos (s : Search), r ∈ s.reads → r ∈ (walk base bufLen pos s).2.reads)
    (base bufLen pos : ℕ) (h : UInt8) (length : Option ℕ) {s : Search} (hr : r ∈ s.reads) :
    r ∈ (element mem oid asn1Type walk base bufLen pos h length s).2.reads := by
  cases length with
  | none => exact hr
  | some len =>
    simp only [element]
    split_ifs
    · exact hr
    · exact hwalk _ _ _ _ hr
    · have hinner := hwalk (base + pos) len 0 s hr
      split
      · next s' hs =>
        rw [hs] at hinner
        split_ifs
        · exact hinner
        · exact hwalk _ _ _ _ hinner
      · exact hinner
    · exact mem_primitive _ _ _ _ _ hr
    · exact hwalk _ _ _ _ (mem_primitive _ _ _ _ _ hr)

/-- No read is forgotten. -/
theorem mem_reads (fuel base bufLen pos : ℕ) {s : Search} {r : Read} (hr : r ∈ s.reads) :
    r ∈ (getDataFromAsn1Internal mem oid asn1Type fuel base bufLen pos s).2.reads := by
  induction fuel generalizing base bufLen pos s with
  | zero => exact hr
  | succ fuel ih =>
    simp only [getDataFromAsn1Internal]
    split_ifs
    · exact hr
    · exact mem_read _ _ _ _ hr
    · exact ih _ _ _ (mem_read _ _ _ _ hr)
    · exact mem_element (fun _ _ _ _ h => ih _ _ _ h) _ _ _ _ _ (mem_read _ _ _ _ (mem_read _ _ _ _ hr))

/-- How a run of the walk answers the verdict on the elements. -/
def Agrees (total : ℕ) (r : Status × Search) : Verdict → Prop
  | .cut => ∃ x ∈ r.2.reads, x.bufLen ≤ x.index
  | .refused => r.1 = .error ∧ r.2.data = none ∧ AllInside total r.2
  | .nothing m => r.1 = .ok ∧ r.2.data = none ∧ r.2.matched = m ∧ AllInside total r.2
  | .found => r.1 = .ok ∧ (∃ a n, r.2.data = some (a,n) ∧ a + n ≤ total) ∧ AllInside total r.2

/-- A primitive element of the universal class agrees with the search over elements. -/
theorem primitive_agrees (mem : ℕ → UInt8) (oid : List UInt8) (asn1Type : UInt8)
    {base bufLen pos len : ℕ} {h : UInt8} {s : Search} (hs : s.data = none)
    (hin : AllInside total s) (hlen : pos + len ≤ bufLen) (htotal : base + bufLen ≤ total)
    (huniv : isUniversalTag h = true) :
    Agrees total (.ok,primitive mem oid asn1Type base bufLen pos len h s)
      (scan oid asn1Type s.matched [.primitive (tag h) (slice mem (base + pos) len)]) := by
  have hsize : slice mem (base + pos) len = oid → len = oid.length := by
    intro h
    rw [← h,length_slice]
  by_cases hoid : s.matched = false ∧ tag h = 0x06 ∧ len = oid.length
  · have hread : AllInside total (s.read base bufLen pos oid.length) :=
      hin.read (by omega) htotal
    rw [primitive,if_neg (by simp [huniv]),if_pos hoid]
    by_cases hcontent : slice mem (base + pos) len = oid
    · simp only [scan,if_pos hcontent,if_pos (And.intro hoid.1 (And.intro hoid.2.1 hcontent))]
      exact ⟨rfl,hs,rfl,hread⟩
    · have hne : ¬ (s.matched = false ∧ tag h = 0x06 ∧ slice mem (base + pos) len = oid) :=
        fun h => hcontent h.2.2
      have hne' : ¬ (s.matched = true ∧ tag h = asn1Type) := fun h => by simp [hoid.1] at h
      simp only [scan,if_neg hcontent,if_neg hne,if_neg hne']
      exact ⟨rfl,hs,rfl,hread⟩
  · have hne : ¬ (s.matched = false ∧ tag h = 0x06 ∧ slice mem (base + pos) len = oid) :=
      fun h => hoid ⟨h.1,h.2.1,hsize h.2.2⟩
    rw [primitive,if_neg (by simp [huniv]),if_neg hoid]
    by_cases hdata : s.matched = true ∧ tag h = asn1Type
    · simp only [scan,if_neg hne,if_pos hdata]
      exact ⟨rfl,⟨_,_,rfl,by omega⟩,hin⟩
    · simp only [scan,if_neg hne,if_neg hdata]
      exact ⟨rfl,hs,rfl,hin⟩

/-- A run that goes on where nothing has been found agrees with the elements in sequence. -/
theorem Agrees.andThen {r : Status × Search} {v : Verdict} {next : Search → Status × Search}
    {after : Bool → Verdict}
    (hmem : ∀ {x : Read} (s : Search), x ∈ s.reads → x ∈ (next s).2.reads)
    (hnext : ∀ s : Search, s.data = none → AllInside total s → Agrees total (next s) (after s.matched)) :
    Agrees total r v → Agrees total
      (match r with
        | (.ok,s) => if s.data.isSome then (.ok,s) else next s
        | r => r)
      (match v with
        | .nothing m => after m
        | v => v) := by
  intro hr
  obtain ⟨status,s⟩ := r
  cases v with
  | found =>
    obtain ⟨rfl,⟨a,n,hdata,hrange⟩,hin⟩ := hr
    have hsome : s.data.isSome = true := by simp_all
    simp only [if_pos hsome]
    exact ⟨rfl,⟨a,n,hdata,hrange⟩,hin⟩
  | refused =>
    obtain ⟨rfl,hdata,hin⟩ := hr
    exact ⟨rfl,hdata,hin⟩
  | cut =>
    obtain ⟨x,hx,hcut⟩ := hr
    refine ⟨x,?_,hcut⟩
    cases status with
    | ok =>
      simp only
      split_ifs
      · exact hx
      · exact hmem _ hx
    | error => exact hx
    | running => exact hx
  | nothing m =>
    obtain ⟨rfl,hdata,rfl,hin⟩ := hr
    have hnone : ¬ s.data.isSome = true := by simp_all
    simp only [if_neg hnone]
    exact hnext s hdata hin

/-- The elements behind a header that is not cut, in terms of memory. -/
def content (mem : ℕ → UInt8) (n : ℕ) (h : UInt8) (length : Option ℕ) (a size : ℕ) : List Element :=
  match length with
  | none => [.refused]
  | some len =>
    if size < len then [.refused]
    else
      (if len = 0 then []
        else if isSequence h = true then elementsWith n (slice mem a len)
        else if isUniversalTag h = true then [.primitive (tag h) (slice mem a len)]
        else []) ++ elementsWith n (slice mem (a + len) (size - len))

/-- One iteration behind the header agrees with the elements there, given that the walks it
starts do. -/
theorem element_agrees {walk : ℕ → ℕ → ℕ → Search → Status × Search} {k n base bufLen pos : ℕ}
    {h : UInt8} {length : Option ℕ} {s : Search} (hpos : pos ≤ bufLen) (hk : bufLen - pos ≤ k)
    (htotal : base + bufLen ≤ total) (hlt : total < 2 ^ 64) (hs : s.data = none)
    (hin : AllInside total s)
    (hmem : ∀ {r : Read} base bufLen pos (s : Search), r ∈ s.reads → r ∈ (walk base bufLen pos s).2.reads)
    (hwalk : ∀ base bufLen pos (s : Search), bufLen - pos ≤ k → base + bufLen ≤ total →
      s.data = none → AllInside total s → Agrees total (walk base bufLen pos s)
        (scan oid asn1Type s.matched (elementsWith n (slice mem (base + pos) (bufLen - pos))))) :
    Agrees total (element mem oid asn1Type walk base bufLen pos h length s)
      (scan oid asn1Type s.matched (content mem n h length (base + pos) (bufLen - pos))) := by
  cases length with
  | none => exact ⟨rfl,hs,hin⟩
  | some len =>
    have hsub : qsub bufLen pos = bufLen - pos := qsub_of_le hpos (by omega)
    simp only [element,content,hsub]
    by_cases hbig : bufLen - pos < len
    · simp only [if_pos hbig]
      exact ⟨rfl,hs,hin⟩
    have hrest : ∀ s' : Search, s'.data = none → AllInside total s' →
        Agrees total (walk base bufLen (pos + len) s') (scan oid asn1Type s'.matched
          (elementsWith n (slice mem (base + pos + len) (bufLen - pos - len)))) := by
      intro s' hs' hin'
      have := hwalk base bufLen (pos + len) s' (by omega) htotal hs' hin'
      rwa [← Nat.add_assoc,← Nat.sub_sub] at this
    simp only [if_neg hbig]
    by_cases hzero : len = 0
    · subst hzero
      simpa using hrest s hs hin
    simp only [if_neg hzero]
    rw [scan_append]
    by_cases hseq : isSequence h = true
    · have hinner := hwalk (base + pos) len 0 s (by omega) (by omega) hs hin
      rw [Nat.add_zero,Nat.sub_zero] at hinner
      simp only [if_pos hseq]
      exact Agrees.andThen (hmem _ _ _) hrest hinner
    simp only [if_neg hseq]
    by_cases huniv : isUniversalTag h = true
    · have hprim := primitive_agrees mem oid asn1Type hs hin (show pos + len ≤ bufLen by omega) htotal huniv
      simp only [if_pos huniv]
      exact Agrees.andThen (hmem _ _ _) hrest hprim
    · have hother : primitive mem oid asn1Type base bufLen pos len h s = s := by
        rw [primitive,if_pos (by simpa using huniv)]
      simp only [hother,if_neg huniv,hs,Option.isSome_none,Bool.false_eq_true,if_false,scan]
      exact hrest s hs hin

/-- The elements of a region of memory that is not empty. -/
theorem elementsWith_slice (n a k : ℕ) :
    elementsWith (n + 1) (slice mem a (k + 1)) =
      if tag (mem a) = 0x1F then [.refused]
      else if isUniversalTag (mem a) = true ∧ tag (mem a) = 0x05 then
        elementsWith n (slice mem (a + 2) (k - 1))
      else if k < (lengthField mem (a + 1)).2 then [.cut]
      else content mem n (mem a) (lengthField mem (a + 1)).1 (a + 1 + (lengthField mem (a + 1)).2)
        (k - (lengthField mem (a + 1)).2) := by
  rw [slice_succ,elementsWith,drop_slice,contentLength_slice]
  by_cases htag : tag (mem a) = 0x1F
  · rw [if_pos htag,if_pos htag]
  by_cases hnull : isUniversalTag (mem a) = true ∧ tag (mem a) = 0x05
  · rw [if_neg htag,if_neg htag,if_pos hnull,if_pos hnull]
  rw [if_neg htag,if_neg htag,if_neg hnull,if_neg hnull]
  by_cases hcut : k < (lengthField mem (a + 1)).2
  · rw [if_pos hcut,if_pos hcut]
  rw [if_neg hcut,if_neg hcut]
  cases (lengthField mem (a + 1)).1 with
  | none => rfl
  | some len =>
    simp only [content,length_slice]
    by_cases hbig : k - (lengthField mem (a + 1)).2 < len
    · rw [if_pos hbig,if_pos hbig]
    · rw [if_neg hbig,if_neg hbig,take_slice mem (Nat.le_of_not_lt hbig),drop_slice]

theorem elementsWith_nil (n : ℕ) : elementsWith n [] = [] := by
  cases n <;> rfl

theorem internal_agrees (hlt : total < 2 ^ 64) (fuel : ℕ) {n base bufLen pos : ℕ} {s : Search}
    (hfuel : bufLen - pos < fuel) (hn : bufLen - pos ≤ n) (htotal : base + bufLen ≤ total)
    (hs : s.data = none) (hin : AllInside total s) :
    Agrees total (getDataFromAsn1Internal mem oid asn1Type fuel base bufLen pos s)
      (scan oid asn1Type s.matched (elementsWith n (slice mem (base + pos) (bufLen - pos)))) := by
  induction fuel generalizing n base bufLen pos s with
  | zero => omega
  | succ fuel ih =>
    by_cases hend : bufLen ≤ pos
    · rw [Nat.sub_eq_zero_of_le hend,getDataFromAsn1Internal,if_pos hend]
      have hnil : slice mem (base + pos) 0 = [] := rfl
      rw [hnil,elementsWith_nil]
      exact ⟨rfl,hs,rfl,hin⟩
    obtain ⟨k,hk⟩ : ∃ k, bufLen - pos = k + 1 := ⟨bufLen - pos - 1,by omega⟩
    obtain ⟨n,rfl⟩ : ∃ m, n = m + 1 := ⟨n - 1,by omega⟩
    have hin1 : AllInside total (s.read base bufLen pos 1) := hin.read (by omega) htotal
    rw [hk,elementsWith_slice]
    simp only [getDataFromAsn1Internal,if_neg hend]
    by_cases htag : tag (mem (base + pos)) = 0x1F
    · simp only [if_pos htag]
      exact ⟨rfl,hs,hin1⟩
    by_cases hnull : isUniversalTag (mem (base + pos)) = true ∧ tag (mem (base + pos)) = 0x05
    · have hrest : Agrees total
          (getDataFromAsn1Internal mem oid asn1Type fuel base bufLen (pos + 2) (s.read base bufLen pos 1))
          (scan oid asn1Type s.matched (elementsWith n (slice mem (base + (pos + 2)) (bufLen - (pos + 2))))) :=
        ih (by omega) (by omega) htotal hs hin1
      have hk' : bufLen - (pos + 2) = k - 1 := by omega
      rw [hk',← Nat.add_assoc] at hrest
      simpa only [if_neg htag,if_pos hnull] using hrest
    simp only [if_neg htag,if_neg hnull,← Nat.add_assoc]
    by_cases hcut : k < (lengthField mem (base + pos + 1)).2
    · -- The byte at the end of the buffer is one of those read for the length.
      simp only [if_pos hcut]
      refine ⟨⟨base,bufLen,bufLen⟩,?_,le_rfl⟩
      refine mem_element (fun _ _ _ _ h => mem_reads _ _ _ _ h) _ _ _ _ _ ?_
      refine List.mem_append_left _ (List.mem_map.mpr ⟨bufLen,?_,rfl⟩)
      rw [List.mem_range'_1]
      omega
    · simp only [if_neg hcut]
      have hagrees : Agrees total
          (element mem oid asn1Type (getDataFromAsn1Internal mem oid asn1Type fuel) base bufLen
            (pos + 1 + (lengthField mem (base + pos + 1)).2) (mem (base + pos))
            (lengthField mem (base + pos + 1)).1
            ((s.read base bufLen pos 1).read base bufLen (pos + 1) (lengthField mem (base + pos + 1)).2))
          (scan oid asn1Type s.matched (content mem n (mem (base + pos)) (lengthField mem (base + pos + 1)).1
            (base + (pos + 1 + (lengthField mem (base + pos + 1)).2))
            (bufLen - (pos + 1 + (lengthField mem (base + pos + 1)).2)))) :=
        element_agrees (k := k) (by omega) (by omega) htotal hlt hs (hin1.read (by omega) htotal)
          (fun _ _ _ _ h => mem_reads _ _ _ _ h) fun b l p s' hl => ih (by omega) (by omega)
      have hsize : bufLen - (pos + 1 + (lengthField mem (base + pos + 1)).2) =
          k - (lengthField mem (base + pos + 1)).2 := by omega
      rw [hsize] at hagrees
      simpa only [← Nat.add_assoc] using hagrees

end bounds

section buffer

/-- Memory that starts with the buffer. -/
def memory (buf : List UInt8) (beyond : ℕ → UInt8) (i : ℕ) : UInt8 := buf.getD i (beyond i)

theorem slice_memory (buf : List UInt8) (beyond : ℕ → UInt8) :
    slice (memory buf beyond) 0 buf.length = buf := by
  refine List.ext_getElem (by simp) fun i hi _ => ?_
  have hlt : i < buf.length := by simpa using hi
  simp [slice,memory,hlt]

/-- The search ends, reads only inside the buffer of each of its calls and inside the
whole buffer, and returns a range of it. -/
def Safe (buf : List UInt8) (beyond : ℕ → UInt8) (oidStr : Option (List Char))
    (asn1Type : UInt8) : Prop :=
  ∀ fuel, buf.length < fuel →
    let r := getDataFromAsn1 fuel (memory buf beyond) buf.length oidStr asn1Type
    r.1 ≠ .running ∧ AllInside buf.length r.2 ∧
      ∀ a n, r.2.data = some (a,n) → a + n ≤ buf.length

theorem Agrees.safe_iff {total : ℕ} {r : Status × Search} {v : Verdict} (h : Agrees total r v) :
    (r.1 ≠ .running ∧ AllInside total r.2 ∧ ∀ a n, r.2.data = some (a,n) → a + n ≤ total) ↔
      v ≠ .cut := by
  obtain ⟨status,s⟩ := r
  cases v with
  | cut =>
    obtain ⟨x,hx,hcut⟩ := h
    simp only [ne_eq,not_true_eq_false,iff_false]
    intro hsafe
    exact absurd (hsafe.2.1 x hx).1 (by omega)
  | refused =>
    obtain ⟨rfl,hdata,hin⟩ := h
    have hnone : s.data = none := hdata
    simp [hin,hnone]
  | nothing m =>
    obtain ⟨rfl,hdata,-,hin⟩ := h
    have hnone : s.data = none := hdata
    simp [hin,hnone]
  | found =>
    obtain ⟨rfl,⟨a,n,hdata,hrange⟩,hin⟩ := h
    simp only [ne_eq,reduceCtorEq,not_false_eq_true,true_and,iff_true]
    refine ⟨hin,fun a' n' h => ?_⟩
    rw [hdata,Option.some_inj,Prod.mk.injEq] at h
    omega

end buffer

end SecureWipeOut.Asn1
