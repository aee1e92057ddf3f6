import SecureWipeOut.Parser.Asn1

/-! # Elements of an ASN.1 buffer

The elements in the order in which the walk meets them, those of a sequence in its place,
and the search over them. Nothing here depends on what lies behind the buffer.
-/
namespace SecureWipeOut.Asn1

/-- The elements met: a primitive one of the universal class, a place where the walk gives
up (a long tag or length, a length larger than what is left), or a header cut off. -/
inductive Element where
  | primitive (tag : UInt8) (content : List UInt8)
  | refused
  | cut
  deriving DecidableEq

inductive Length where
  | cut
  | unsupported
  | bytes (len : ℕ) (rest : List UInt8)

/-- The length field at the head of a text and what follows it. -/
def contentLength : List UInt8 → Length
  | [] => .cut
  | l :: rest =>
    if l &&& 0x80 ≠ 0 then
      if 2 < lenLen l then .unsupported
      else if rest.length < lenLen l then .cut
      else .bytes ((rest.take (lenLen l)).foldl (fun len b => 256 * len + b.toNat) 0)
        (rest.drop (lenLen l))
    else .bytes l.toNat rest

def elementsWith : ℕ → List UInt8 → List Element
  | 0,_ => []
  | _ + 1,[] => []
  | n + 1,h :: rest =>
    if tag h = 0x1F then [.refused]
    else if isUniversalTag h = true ∧ tag h = 0x05 then elementsWith n (rest.drop 1)
    else
      match contentLength rest with
      | .cut => [.cut]
      | .unsupported => [.refused]
      | .bytes len rest =>
        if rest.length < len then [.refused]
        else
          (if len = 0 then []
            else if isSequence h = true then elementsWith n (rest.take len)
            else if isUniversalTag h = true then [.primitive (tag h) (rest.take len)]
            else []) ++ elementsWith n (rest.drop len)

/-- All elements of a buffer, those inside a sequence in its place. -/
def elements (buf : List UInt8) : List Element := elementsWith buf.length buf

section scan
variable (oid : List UInt8) (asn1Type : UInt8)

inductive Verdict where
  | found
  | refused
  | cut
  | nothing (matched : Bool)
  deriving DecidableEq

/-- The search over the elements. -/
def scan : Bool → List Element → Verdict
  | m,[] => .nothing m
  | _,.refused :: _ => .refused
  | _,.cut :: _ => .cut
  | m,.primitive t c :: es =>
    if m = false ∧ t = 0x06 ∧ c = oid then scan true es
    else if m = true ∧ t = asn1Type then .found
    else scan m es

/-- The data searched for is among these elements. -/
def FoundIn : Bool → List Element → Prop
  | true,es => ∃ c, .primitive asn1Type c ∈ es
  | false,es => ∃ pre post c, es = pre ++ .primitive 0x06 oid :: post ∧ .primitive asn1Type c ∈ post

variable {oid asn1Type}

theorem foundIn_of_oid {m : Bool} {t : UInt8} {c : List UInt8} {es : List Element}
    (h : m = false ∧ t = 0x06 ∧ c = oid) :
    FoundIn oid asn1Type m (.primitive t c :: es) ↔ FoundIn oid asn1Type true es := by
  obtain ⟨rfl,rfl,rfl⟩ := h
  constructor
  · rintro ⟨pre,post,d,hes,hd⟩
    cases pre with
    | nil =>
      rw [List.nil_append,List.cons.injEq] at hes
      exact ⟨d,hes.2 ▸ hd⟩
    | cons x pre =>
      rw [List.cons_append,List.cons.injEq] at hes
      exact ⟨d,hes.2 ▸ List.mem_append_right _ (List.mem_cons_of_mem _ hd)⟩
  · rintro ⟨d,hd⟩
    exact ⟨[],es,d,rfl,hd⟩

theorem foundIn_of_data {m : Bool} {t : UInt8} {c : List UInt8} {es : List Element}
    (h : m = true ∧ t = asn1Type) : FoundIn oid asn1Type m (.primitive t c :: es) := by
  obtain ⟨rfl,rfl⟩ := h
  exact ⟨c,List.mem_cons_self⟩

theorem foundIn_of_other {m : Bool} {t : UInt8} {c : List UInt8} {es : List Element}
    (hoid : ¬ (m = false ∧ t = 0x06 ∧ c = oid)) (hdata : ¬ (m = true ∧ t = asn1Type)) :
    FoundIn oid asn1Type m (.primitive t c :: es) ↔ FoundIn oid asn1Type m es := by
  cases m with
  | true =>
    constructor
    · rintro ⟨d,hd⟩
      rcases List.mem_cons.mp hd with hd | hd
      · exact absurd ⟨rfl,(Element.primitive.inj hd).1.symm⟩ hdata
      · exact ⟨d,hd⟩
    · rintro ⟨d,hd⟩
      exact ⟨d,List.mem_cons_of_mem _ hd⟩
  | false =>
    constructor
    · rintro ⟨pre,post,d,hes,hd⟩
      cases pre with
      | nil =>
        rw [List.nil_append,List.cons.injEq] at hes
        exact absurd ⟨rfl,Element.primitive.inj hes.1⟩ hoid
      | cons x pre =>
        rw [List.cons_append,List.cons.injEq] at hes
        exact ⟨pre,post,d,hes.2,hd⟩
    · rintro ⟨pre,post,d,rfl,hd⟩
      exact ⟨_ :: pre,post,d,rfl,hd⟩

/-- The search reaches a header cut off when nothing before ends it. -/
theorem scan_eq_cut_iff (m : Bool) (es : List Element) :
    scan oid asn1Type m es = .cut ↔
      ∃ pre post, es = pre ++ .cut :: post ∧ .refused ∉ pre ∧ ¬ FoundIn oid asn1Type m pre := by
  have hcons : ∀ {x : Element} {es' : List Element} {P : List Element → Prop}, x ≠ .cut →
      ((∃ pre post, x :: es' = pre ++ .cut :: post ∧ P pre) ↔
        ∃ pre post, es' = pre ++ .cut :: post ∧ P (x :: pre)) := by
    intro x es' P hx
    constructor
    · rintro ⟨pre,post,hes,hP⟩
      cases pre with
      | nil => exact absurd (List.cons.inj hes).1 hx
      | cons y pre =>
        obtain ⟨rfl,htail⟩ := List.cons.inj hes
        exact ⟨pre,post,htail,hP⟩
    · rintro ⟨pre,post,rfl,hP⟩
      exact ⟨x :: pre,post,rfl,hP⟩
  induction es generalizing m with
  | nil => simp [scan]
  | cons x es ih =>
    cases x with
    | refused =>
      rw [hcons (by simp)]
      simp [scan]
    | cut =>
      simp only [scan,true_iff]
      refine ⟨[],es,rfl,by simp,?_⟩
      cases m <;> simp [FoundIn]
    | primitive t c =>
      rw [hcons (by simp),scan]
      split_ifs with hoid hdata
      · simp [ih,foundIn_of_oid hoid]
      · simp [foundIn_of_data hdata]
      · simp [ih,foundIn_of_other hoid hdata]

theorem scan_append (m : Bool) (xs ys : List Element) :
    scan oid asn1Type m (xs ++ ys) =
      match scan oid asn1Type m xs with
      | .nothing m' => scan oid asn1Type m' ys
      | v => v := by
  induction xs generalizing m with
  | nil => rfl
  | cons x xs ih =>
    cases x with
    | refused => rfl
    | cut => rfl
    | primitive t c =>
      simp only [List.cons_append,scan]
      split_ifs
      · exact ih true
      · rfl
      · exact ih m

end scan

section memory
variable (mem : ℕ → UInt8)

@[simp] theorem length_slice (a n : ℕ) : (slice mem a n).length = n := by simp [slice]

theorem slice_succ (a n : ℕ) : slice mem a (n + 1) = mem a :: slice mem (a + 1) n := by
  simp only [slice,List.range_succ_eq_map,List.map_cons,List.map_map,Nat.add_zero]
  congr 1
  refine List.map_congr_left fun i _ => ?_
  simp [Nat.add_comm,Nat.add_left_comm]

theorem slice_add (a m n : ℕ) : slice mem a (m + n) = slice mem a m ++ slice mem (a + m) n := by
  simp only [slice,List.range_add,List.map_append,List.map_map]
  congr 1
  refine List.map_congr_left fun i _ => ?_
  simp [Nat.add_assoc]

theorem take_slice {a k n : ℕ} (h : k ≤ n) : (slice mem a n).take k = slice mem a k := by
  obtain ⟨m,rfl⟩ := Nat.exists_eq_add_of_le h
  rw [slice_add,List.take_append_of_le_length (by simp),List.take_of_length_le (by simp)]

theorem drop_slice (a k n : ℕ) : (slice mem a n).drop k = slice mem (a + k) (n - k) := by
  rcases Nat.lt_or_ge n k with h | h
  · rw [List.drop_of_length_le (by simp; omega)]
    simp [slice,Nat.sub_eq_zero_of_le h.le]
  · obtain ⟨m,rfl⟩ := Nat.exists_eq_add_of_le h
    rw [slice_add,List.drop_append_of_le_length (by simp),List.drop_of_length_le (by simp)]
    simp

theorem foldl_slice (a n : ℕ) :
    (slice mem a n).foldl (fun len b => 256 * len + b.toNat) 0 =
      (List.range n).foldl (fun len i => 256 * len + (mem (a + i)).toNat) 0 := by
  rw [slice,List.foldl_map]

/-- The length field of the text is that of the memory when it lies inside. -/
theorem contentLength_slice (a n : ℕ) :
    contentLength (slice mem a n) =
      if n < (lengthField mem a).2 then .cut
      else match (lengthField mem a).1 with
        | none => .unsupported
        | some len => .bytes len (slice mem (a + (lengthField mem a).2) (n - (lengthField mem a).2)) := by
  cases n with
  | zero =>
    have hpos : 0 < (lengthField mem a).2 := by
      rw [lengthField]
      split_ifs <;> simp only <;> omega
    rw [if_pos hpos]
    rfl
  | succ n =>
    rw [slice_succ,contentLength]
    by_cases hlong : mem a &&& 0x80 ≠ 0
    · by_cases hbig : 2 < lenLen (mem a)
      · simp [lengthField,hlong,hbig]
      · by_cases hcut : n < lenLen (mem a)
        · have : n + 1 < 1 + lenLen (mem a) := by omega
          simp [lengthField,hlong,hbig,hcut,this]
        · have : ¬ n + 1 < 1 + lenLen (mem a) := by omega
          have hfold := foldl_slice mem (a + 1) (lenLen (mem a))
          have hsub : n + 1 - (1 + lenLen (mem a)) = n - lenLen (mem a) := by omega
          simp [lengthField,hlong,hbig,hcut,this,take_slice mem (Nat.le_of_not_lt hcut),hfold,
            drop_slice,hsub,Nat.add_assoc]
    · simp [lengthField,hlong]

end memory

end SecureWipeOut.Asn1
