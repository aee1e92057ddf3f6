import SecureWipeOut.Image.Dbx

/-! # When a revoked hash is found

What the code reads of a well-formed content, list by list, and the condition under which its
answer is the right one.
-/
namespace SecureWipeOut.Dbx
open Bytes CInt

section Reading
variable {dbx pre bytes post : List UInt8} {a n : ℕ}

theorem readBytes_part (h : dbx = pre ++ bytes ++ post) (ha : a = pre.length) (hn : n = bytes.length) :
    readBytes dbx a n = .ok bytes := by
  have hle : a + n ≤ dbx.length := by
    rw [h,ha,hn,List.length_append,List.length_append]
    exact Nat.le_add_right _ _
  rw [readBytes,if_pos hle,h,ha,hn,List.append_assoc,List.drop_left,List.take_left]

theorem readUint32_part {v : ℕ} (h : dbx = pre ++ dwordBytes v ++ post) (ha : a = pre.length)
    (hv : v < 2 ^ 32) : readUint32 dbx a = .ok v := by
  have hread : readDword (memOf (dwordBytes v) 0) 0 = v := (holds_memOf _ _).readDword hv
  rw [readUint32,readBytes_part h ha (length_dwordBytes v).symm,Except.map,hread]

end Reading

section Entries
variable {hash : List UInt8}

/-- The search among the bytes behind the owners. -/
def search (hash : List UInt8) : List (List UInt8) → Except Fault Bool
  | [] => .ok false
  | w :: ws =>
    if w.length = 32 then if w = hash then .ok true else search hash ws else .error .outside

theorem search_eq (hhash : hash.length = 32) {ws : List (List UInt8)}
    (h : ws.Pairwise fun v w => w.length = 32 → v.length = 32) :
    search hash ws = if hash ∈ ws then .ok true
      else if ∀ w ∈ ws, w.length = 32 then .ok false else .error .outside := by
  induction ws with
  | nil => simp [search]
  | cons w ws ih =>
    obtain ⟨hw,hws⟩ := List.pairwise_cons.mp h
    rw [search,ih hws]
    by_cases hlen : w.length = 32
    · by_cases heq : w = hash
      · rw [if_pos hlen,if_pos heq,if_pos (heq ▸ List.mem_cons_self)]
      · have hmem : hash ∈ w :: ws ↔ hash ∈ ws := List.mem_cons.trans (or_iff_right fun he => heq he.symm)
        simp only [hlen,↓reduceIte,if_neg heq,hmem,List.forall_mem_cons,true_and]
    · have hno : hash ∉ w :: ws := by
        intro hmem
        rcases List.mem_cons.mp hmem with rfl | hmem
        · exact hlen hhash
        · exact hlen (hw hash hmem hhash)
      have hall : ¬∀ v ∈ w :: ws, v.length = 32 := fun hall => hlen (hall w List.mem_cons_self)
      rw [if_neg hlen,if_neg hno,if_neg hall]

theorem length_windows_le {es : List Entry} {following w : List UInt8} (h : w ∈ windows es following) :
    w.length ≤ min 32 ((es.flatMap Entry.encode).length + following.length) := by
  induction es with
  | nil => cases h
  | cons e es ih =>
    rcases List.mem_cons.mp h with rfl | h
    · simp only [List.length_take,List.length_append,List.flatMap_cons,Entry.encode]
      omega
    · have := ih h
      simp only [List.flatMap_cons,List.length_append]
      omega

/-- If the bytes behind an owner are all there, they are for the entries in front of it, too. -/
theorem pairwise_windows (es : List Entry) (following : List UInt8) :
    (windows es following).Pairwise fun v w => w.length = 32 → v.length = 32 := by
  induction es with
  | nil => exact List.Pairwise.nil
  | cons e es ih =>
    refine List.pairwise_cons.mpr ⟨fun w hw hlen => ?_,ih⟩
    have hle := length_windows_le hw
    simp only [List.length_take,List.length_append]
    omega

theorem entryLoop_eq {dbx pre following : List UInt8} {es : List Entry} {fluff size i : ℕ}
    (hdbx : dbx = pre ++ es.flatMap Entry.encode ++ following) (hlt : dbx.length < 2 ^ 32)
    (hsize : ∀ e ∈ es, e.encode.length = size) (hpre : fluff + i * size = pre.length + 16) :
    entryLoop hash dbx fluff size es.length i = search hash (windows es following) := by
  induction es generalizing pre i with
  | nil => rfl
  | cons e es ih =>
    obtain ⟨hesize,hsize⟩ := List.forall_mem_cons.mp hsize
    have howner := e.length_owner
    have hsplit : dbx = (pre ++ e.owner) ++ (e.data ++ es.flatMap Entry.encode ++ following) := by
      rw [hdbx,List.flatMap_cons,Entry.encode]
      simp only [List.append_assoc]
    have hlen : dbx.length = pre.length + 16 + (e.data ++ es.flatMap Entry.encode ++ following).length := by
      rw [hsplit,List.length_append,List.length_append,howner]
    have hplace : dword (fluff + i * size) = (pre ++ e.owner).length := by
      rw [hpre,dword_of_lt (by omega),List.length_append,howner]
    have hnext : dbx = pre ++ e.encode ++ es.flatMap Entry.encode ++ following := by
      rw [hdbx,List.flatMap_cons]
      simp only [List.append_assoc]
    have hpre' : fluff + (i + 1) * size = (pre ++ e.encode).length + 16 := by
      rw [List.length_append,hesize,Nat.succ_mul]
      omega
    rw [List.length_cons,entryLoop,windows,search,ih hnext hsize hpre',hplace,readBytes]
    by_cases hfull : 32 ≤ (e.data ++ es.flatMap Entry.encode ++ following).length
    · have hin : (pre ++ e.owner).length + 32 ≤ dbx.length := by
        rw [hlen,List.length_append,howner]
        omega
      have htake : ((e.data ++ es.flatMap Entry.encode ++ following).take 32).length = 32 := by
        rw [List.length_take]
        exact min_eq_left hfull
      rw [if_pos hin,hsplit,List.drop_left,if_pos htake]
      rfl
    · have hout : ¬(pre ++ e.owner).length + 32 ≤ dbx.length := by
        rw [hlen,List.length_append,howner]
        omega
      have htake : ¬((e.data ++ es.flatMap Entry.encode ++ following).take 32).length = 32 := by
        rw [List.length_take]
        omega
      rw [if_neg hout,if_neg htake]
      rfl

end Entries

section Lists
variable {hash : List UInt8}

theorem length_flatMap_encode {es : List Entry} {size : ℕ} (h : ∀ e ∈ es, e.encode.length = size) :
    (es.flatMap Entry.encode).length = es.length * size := by
  rw [List.length_flatMap,List.map_congr_left h,List.map_const',List.sum_replicate,smul_eq_mul]

theorem SignatureList.length_encode (l : SignatureList) : l.encode.length = l.size := by
  rw [SignatureList.encode,SignatureList.size]
  simp only [List.length_append,length_dwordBytes,l.length_type,length_flatMap_encode l.length_entry]

/-- A list of entries of size zero has none. -/
theorem SignatureList.entries_eq_nil (l : SignatureList) (h : l.signatureSize = 0) : l.entries = [] := by
  rcases hes : l.entries with _ | ⟨e,es⟩
  · rfl
  · have hlen := l.length_entry e (hes ▸ List.mem_cons_self)
    rw [Entry.encode,List.length_append,e.length_owner] at hlen
    omega

theorem length_flatMap_lists_pos {rest : List SignatureList} (h : rest ≠ []) :
    0 < (rest.flatMap SignatureList.encode).length := by
  obtain ⟨l,ls,rfl⟩ := List.exists_cons_of_ne_nil h
  rw [List.flatMap_cons,List.length_append,l.length_encode,SignatureList.size]
  omega

/-- Nothing stands behind the head of the first list. -/
theorem bare_iff (first : SignatureList) (rest : List SignatureList) :
    first.size + (rest.flatMap SignatureList.encode).length ≤ 28 ↔
      first.header = [] ∧ first.entries = [] ∧ rest = [] := by
  rw [SignatureList.size]
  constructor
  · intro h
    refine ⟨List.length_eq_zero_iff.mp (by omega),?_,?_⟩
    · have hprod : first.entries.length * first.signatureSize = 0 := by omega
      rcases Nat.mul_eq_zero.mp hprod with hlen | hsize
      · exact List.length_eq_zero_iff.mp hlen
      · exact first.entries_eq_nil hsize
    · by_contra hne
      have := length_flatMap_lists_pos hne
      omega
  · rintro ⟨hheader,hentries,rfl⟩
    rw [hheader,hentries]
    simp

/-- The four fields at the head of a list. -/
theorem head_reads {dbx pre tail : List UInt8} {l : SignatureList} (hdbx : dbx = pre ++ l.encode ++ tail)
    (hlt : dbx.length < 2 ^ 32) : readBytes dbx pre.length 16 = .ok l.signatureType ∧
      readUint32 dbx (pre.length + 16) = .ok l.size ∧
      readUint32 dbx (pre.length + 20) = .ok l.header.length ∧
      readUint32 dbx (pre.length + 24) = .ok l.signatureSize := by
  have hsize : l.size < 2 ^ 32 := by
    have hlen := congrArg List.length hdbx
    rw [List.length_append,List.length_append,l.length_encode] at hlen
    omega
  have hheader : l.header.length < 2 ^ 32 := by
    rw [SignatureList.size] at hsize
    omega
  refine ⟨?_,?_,?_,?_⟩
  · have hsplit : dbx = pre ++ l.signatureType ++ (dwordBytes l.size ++ dwordBytes l.header.length ++
        dwordBytes l.signatureSize ++ l.header ++ l.entries.flatMap Entry.encode ++ tail) := by
      simp only [hdbx,SignatureList.encode,List.append_assoc]
    exact readBytes_part hsplit rfl l.length_type.symm
  · have hsplit : dbx = (pre ++ l.signatureType) ++ dwordBytes l.size ++ (dwordBytes l.header.length ++
        dwordBytes l.signatureSize ++ l.header ++ l.entries.flatMap Entry.encode ++ tail) := by
      simp only [hdbx,SignatureList.encode,List.append_assoc]
    refine readUint32_part hsplit ?_ hsize
    rw [List.length_append,l.length_type]
  · have hsplit : dbx = (pre ++ l.signatureType ++ dwordBytes l.size) ++ dwordBytes l.header.length ++
        (dwordBytes l.signatureSize ++ l.header ++ l.entries.flatMap Entry.encode ++ tail) := by
      simp only [hdbx,SignatureList.encode,List.append_assoc]
    refine readUint32_part hsplit ?_ hheader
    simp only [List.length_append,l.length_type,length_dwordBytes]
  · have hsplit : dbx = (pre ++ l.signatureType ++ dwordBytes l.size ++ dwordBytes l.header.length) ++
        dwordBytes l.signatureSize ++ (l.header ++ l.entries.flatMap Entry.encode ++ tail) := by
      simp only [hdbx,SignatureList.encode,List.append_assoc]
    refine readUint32_part hsplit ?_ l.size_lt
    simp only [List.length_append,l.length_type,length_dwordBytes]

theorem nbEntries_eq {l : SignatureList} (hsize : l.size < 2 ^ 32) (hpos : 0 < l.signatureSize) :
    dword (qsub (dsub l.size l.header.length) 28 / l.signatureSize) = l.entries.length := by
  have hle : l.entries.length ≤ l.entries.length * l.signatureSize := Nat.le_mul_of_pos_right _ hpos
  rw [SignatureList.size] at hsize
  have hdiff : dsub l.size l.header.length = 28 + l.entries.length * l.signatureSize := by
    rw [SignatureList.size,dsub_of_le (by omega) hsize]
    omega
  rw [hdiff,qsub_of_le (by omega) (by omega),Nat.add_sub_cancel_left,Nat.mul_div_cancel _ hpos,
    dword_of_lt (by omega)]

/-- The loop over the entries of a list. -/
theorem entries_search {dbx pre tail : List UInt8} {l : SignatureList} (hdbx : dbx = pre ++ l.encode ++ tail)
    (hlt : dbx.length < 2 ^ 32) :
    entryLoop hash dbx (dword (pre.length + 28 + l.header.length + 16)) l.signatureSize l.entries.length 0 =
      search hash (windows l.entries tail) := by
  rcases hes : l.entries with _ | ⟨e,es⟩
  · rfl
  · -- With an entry, the GUID of its owner ends inside the content.
    have hlong : 16 ≤ l.signatureSize := by
      have he := l.length_entry e (hes ▸ List.mem_cons_self)
      rw [Entry.encode,List.length_append,e.length_owner] at he
      omega
    have hroom : l.signatureSize ≤ l.entries.length * l.signatureSize := by
      rw [hes]
      exact Nat.le_mul_of_pos_left _ (Nat.succ_pos _)
    have hlen := congrArg List.length hdbx
    rw [List.length_append,List.length_append,l.length_encode,SignatureList.size] at hlen
    have hsplit : dbx = (pre ++ l.signatureType ++ dwordBytes l.size ++ dwordBytes l.header.length ++
        dwordBytes l.signatureSize ++ l.header) ++ l.entries.flatMap Entry.encode ++ tail := by
      simp only [hdbx,SignatureList.encode,List.append_assoc]
    rw [← hes,dword_of_lt (by omega)]
    refine entryLoop_eq hsplit hlt l.length_entry ?_
    simp only [List.length_append,l.length_type,length_dwordBytes]
    omega

theorem searchList_eq {dbx pre : List UInt8} {first : SignatureList} {rest : List SignatureList}
    (hdbx : dbx = pre ++ first.encode ++ rest.flatMap SignatureList.encode) (hlt : dbx.length < 2 ^ 32) :
    searchList hash dbx pre.length =
      if first.header = [] ∧ first.entries = [] ∧ rest = [] then .ok false
      else if first.signatureType ≠ efiCertSha256Guid then .ok false
      else if first.signatureSize = 0 then .error .aborted
      else search hash (windows first.entries (rest.flatMap SignatureList.encode)) := by
  obtain ⟨htype,hsize,hheader,hentry⟩ := head_reads hdbx hlt
  have hlen := congrArg List.length hdbx
  rw [List.length_append,List.length_append,first.length_encode] at hlen
  have hbare : dbx.length ≤ pre.length + 28 ↔ first.header = [] ∧ first.entries = [] ∧ rest = [] := by
    rw [← bare_iff]
    omega
  unfold searchList
  dsimp only
  have hhead : dword (pre.length + 28) = pre.length + 28 := by
    rw [SignatureList.size] at hlen
    exact dword_of_lt (by omega)
  by_cases hb : dbx.length ≤ pre.length + 28
  · rw [hhead,if_pos hb,if_pos (hbare.mp hb)]
  rw [hhead,if_neg hb,if_neg (hbare.not.mp hb),htype,hsize,hheader,hentry]
  simp only [bind,Except.bind]
  by_cases hsha : first.signatureType ≠ efiCertSha256Guid
  · rw [if_pos hsha,if_pos hsha]
  rw [if_neg hsha,if_neg hsha]
  by_cases hzero : first.signatureSize = 0
  · rw [if_pos hzero,if_pos hzero]
  have hcount := nbEntries_eq (l := first) (by omega) (Nat.pos_of_ne_zero hzero)
  rw [SignatureList.size] at hlen
  have hfluff : dword (pre.length + 28 + first.header.length) = pre.length + 28 + first.header.length :=
    dword_of_lt (by omega)
  have hassert : ¬dbx.length < dword (pre.length + 28 + first.header.length +
      first.entries.length * first.signatureSize) := by
    rw [dword_of_lt (by omega)]
    omega
  rw [if_neg hzero,if_neg hzero,hfluff,hcount,if_neg hassert]
  exact entries_search hdbx hlt

theorem Content.length_encode (c : Content) : c.encode.length =
    20 + c.auth.length + (c.lists.flatMap SignatureList.encode).length := by
  rw [Content.encode,encodeParts]
  simp only [List.length_append,length_dwordBytes,c.length_time]

theorem Content.readUint32_dwLength (c : Content) : readUint32 c.encode 16 = .ok (4 + c.auth.length) := by
  have hlt : c.encode.length < 2 ^ 32 := c.length_lt
  have hlen := c.length_encode
  have hsplit : c.encode = c.time ++ dwordBytes (4 + c.auth.length) ++
      (c.auth ++ c.lists.flatMap SignatureList.encode) := by
    simp only [Content.encode,encodeParts,List.append_assoc]
  exact readUint32_part hsplit c.length_time.symm (by omega)

theorem searchDbx_nil (c : Content) (h : c.lists = []) (hash : List UInt8) :
    searchDbx hash c.encode = .ok false := by
  have hlt : c.encode.length < 2 ^ 32 := c.length_lt
  have hlen := c.length_encode
  rw [h,List.flatMap_nil,List.length_nil] at hlen
  rw [searchDbx]
  by_cases hshort : c.encode.length ≤ 41
  · exact if_pos hshort
  · have hend : c.encode.length ≤ dword (4 + c.auth.length + 16) := by
      rw [dword_of_lt (by omega)]
      omega
    rw [if_neg hshort,c.readUint32_dwLength]
    exact if_pos hend

theorem searchDbx_cons (c : Content) {first : SignatureList} {rest : List SignatureList}
    (h : c.lists = first :: rest) (hash : List UInt8) :
    searchDbx hash c.encode =
      if first.header = [] ∧ first.entries = [] ∧ rest = [] then .ok false
      else if first.signatureType ≠ efiCertSha256Guid then .ok false
      else if first.signatureSize = 0 then .error .aborted
      else search hash (windows first.entries (rest.flatMap SignatureList.encode)) := by
  have hlt : c.encode.length < 2 ^ 32 := c.length_lt
  have hlen := c.length_encode
  have hauth := c.le_length_auth
  rw [h,List.flatMap_cons,List.length_append,first.length_encode,SignatureList.size] at hlen
  have hsplit : c.encode = (c.time ++ dwordBytes (4 + c.auth.length) ++ c.auth) ++ first.encode ++
      rest.flatMap SignatureList.encode := by
    rw [Content.encode,encodeParts,h,List.flatMap_cons]
    simp only [List.append_assoc]
  have hplace : dword (4 + c.auth.length + 16) =
      (c.time ++ dwordBytes (4 + c.auth.length) ++ c.auth).length := by
    rw [dword_of_lt (by omega)]
    simp only [List.length_append,length_dwordBytes,c.length_time]
    omega
  have hbehind : ¬c.encode.length ≤ (c.time ++ dwordBytes (4 + c.auth.length) ++ c.auth).length := by
    simp only [List.length_append,length_dwordBytes,c.length_time]
    omega
  rw [← searchList_eq hsplit hlt,searchDbx,if_neg (by omega),c.readUint32_dwLength]
  simp only [bind,Except.bind]
  rw [hplace,if_neg hbehind]

end Lists

section Exactness
variable {hash : List UInt8}

theorem listed_nil : ¬Listed [] hash := fun ⟨_,hl,_⟩ => List.not_mem_nil hl

theorem listed_cons {first : SignatureList} {rest : List SignatureList} : Listed (first :: rest) hash ↔
    (first.signatureType = efiCertSha256Guid ∧ ∃ e ∈ first.entries, e.data = hash) ∨ Listed rest hash := by
  simp only [Listed,List.exists_mem_cons_iff]

theorem exists_ok_iff {r : Bool} {P : Prop} :
    (∃ b, (Except.ok r : Except Fault Bool) = .ok b ∧ (b = true ↔ P)) ↔ (r = true ↔ P) := by
  constructor
  · rintro ⟨b,hb,h⟩
    rwa [Except.ok.inj hb]
  · exact fun h => ⟨r,rfl,h⟩

theorem not_exists_error {f : Fault} {P : Prop} :
    ¬∃ b, (Except.error f : Except Fault Bool) = .ok b ∧ (b = true ↔ P) := by
  rintro ⟨b,hb,-⟩
  cases hb

/-- What the search among the bytes behind the owners has to give. -/
theorem search_answers_iff (hhash : hash.length = 32) (es : List Entry) (following : List UInt8) (P : Prop) :
    (∃ b, search hash (windows es following) = .ok b ∧ (b = true ↔ P)) ↔
      (hash ∈ windows es following ∨ ∀ w ∈ windows es following, w.length = 32) ∧
        (hash ∈ windows es following ↔ P) := by
  rw [search_eq hhash (pairwise_windows es following)]
  split
  case isTrue hmem =>
    rw [exists_ok_iff]
    simp only [hmem,true_or,true_and,true_iff]
  case isFalse hmem =>
    split
    case isTrue hall =>
      rw [exists_ok_iff]
      simp only [hmem,false_or,false_iff,Bool.false_eq_true]
      exact (and_iff_right hall).symm
    case isFalse hall =>
      refine iff_of_false not_exists_error fun h => ?_
      exact h.1.elim hmem hall

/-- Entries of 48 bytes have a hash behind the owner. -/
theorem windows_of_hashes {es : List Entry} (h : ∀ e ∈ es, e.encode.length = 48) (following : List UInt8) :
    windows es following = es.map Entry.data := by
  induction es with
  | nil => rfl
  | cons e es ih =>
    obtain ⟨he,hes⟩ := List.forall_mem_cons.mp h
    rw [Entry.encode,List.length_append,e.length_owner] at he
    have hlen : 32 = e.data.length := by omega
    rw [windows,ih hes,List.map_cons,List.append_assoc,hlen,List.take_left]

theorem data_ne_of_size {l : SignatureList} (hhash : hash.length = 32) (h : l.signatureSize ≠ 48) :
    ¬∃ e ∈ l.entries, e.data = hash := by
  rintro ⟨e,he,rfl⟩
  have hlen := l.length_entry e he
  rw [Entry.encode,List.length_append,e.length_owner] at hlen
  omega

/-- With nothing behind the head of the first list, there is nothing to find. -/
theorem meets_of_bare {c : Content} {first : SignatureList} (hlists : c.lists = [first])
    (hheader : first.header = []) (hentries : first.entries = []) : Meets c hash := by
  rw [Meets,hlists]
  dsimp only
  split
  · exact listed_nil
  split
  · exact ⟨hheader,rfl⟩
  split
  · exact Or.inr listed_nil
  · rw [hentries]
    exact ⟨Or.inr fun w hw => absurd hw List.not_mem_nil,iff_of_false List.not_mem_nil listed_nil⟩

/-- The answer is right exactly under the condition. -/
theorem isRevokedByDbx_iff (src : Sources) (hash : List UInt8) (buf : PeImage.Memory) (c : Content)
    (hhash : hash.length = 32) (harch : machineToArch (getPeArch buf) ≠ 0)
    (hdata : src.dbxData (machineToArch (getPeArch buf)) = c.encode) :
    Answered src hash buf c ↔ Meets c hash := by
  rw [Answered,isRevokedByDbx]
  simp only [if_neg harch,hdata]
  rcases hlists : c.lists with _ | ⟨first,rest⟩
  · rw [Meets,hlists,searchDbx_nil c hlists,exists_ok_iff]
    exact iff_of_true (iff_of_false Bool.false_ne_true listed_nil) trivial
  rw [searchDbx_cons c hlists,listed_cons]
  by_cases hbare : first.header = [] ∧ first.entries = [] ∧ rest = []
  · obtain ⟨hheader,hentries,rfl⟩ := hbare
    rw [if_pos ⟨hheader,hentries,rfl⟩,exists_ok_iff,hentries]
    refine iff_of_true (iff_of_false Bool.false_ne_true ?_) (meets_of_bare hlists hheader hentries)
    rintro (⟨-,e,he,-⟩ | h)
    · cases he
    · exact listed_nil h
  rw [Meets,hlists]
  dsimp only
  by_cases hsha : first.signatureType ≠ efiCertSha256Guid
  · rw [if_neg hbare,if_pos hsha,if_pos hsha,exists_ok_iff]
    simp [hsha]
  rw [if_neg hbare,if_neg hsha,if_neg hsha,not_not.mp hsha]
  by_cases hzero : first.signatureSize = 0
  · rw [if_pos hzero,if_pos hzero]
    exact iff_of_false not_exists_error fun h => hbare ⟨h.1,first.entries_eq_nil hzero,h.2⟩
  rw [if_neg hzero,if_neg hzero,search_answers_iff hhash]
  by_cases hhashes : first.signatureSize = 48
  · have hwin := windows_of_hashes (fun e he => (first.length_entry e he).trans hhashes)
      (rest.flatMap SignatureList.encode)
    have hmem : hash ∈ first.entries.map Entry.data ↔ ∃ e ∈ first.entries, e.data = hash := List.mem_map
    have hall : ∀ w ∈ first.entries.map Entry.data, w.length = 32 := by
      intro w hw
      obtain ⟨e,he,rfl⟩ := List.mem_map.mp hw
      have hlen := (first.length_entry e he).trans hhashes
      rw [Entry.encode,List.length_append,e.length_owner] at hlen
      omega
    rw [if_pos hhashes,hwin,hmem,and_iff_right (Or.inr hall),and_iff_right rfl]
    by_cases hin : ∃ e ∈ first.entries, e.data = hash
    · exact iff_of_true (iff_of_true hin (Or.inl hin)) (Or.inl hin)
    · rw [or_iff_right hin,or_iff_right hin]
      constructor
      · exact fun h hrest => hin (h.mpr hrest)
      · exact fun h => iff_of_false hin h
  · have hno := data_ne_of_size hhash hhashes
    have hrest : (efiCertSha256Guid = efiCertSha256Guid ∧ ∃ e ∈ first.entries, e.data = hash) ∨
        Listed rest hash ↔ Listed rest hash := or_iff_right fun h => hno h.2
    rw [if_neg hhashes,hrest]

/-- A list with one hash. -/
def hashList : SignatureList where
  signatureType := efiCertSha256Guid
  header := []
  signatureSize := 48
  entries := [⟨List.replicate 16 0,List.replicate 32 0xab,rfl⟩]
  length_type := rfl
  size_lt := by decide
  length_entry := by decide

/-- A list with one certificate, of three bytes. -/
def certificateList : SignatureList where
  signatureType := [0xa1,0x59,0xc0,0xa5,0xe4,0x94,0xa7,0x4a,0x87,0xb5,0xab,0x15,0x5c,0x2b,0xf0,0x72]
  header := []
  signatureSize := 19
  entries := [⟨List.replicate 16 0,[0x30,0x01,0x00],rfl⟩]
  length_type := rfl
  size_lt := by decide
  length_entry := by decide

def hashContent : Content where
  time := List.replicate 16 0
  auth := List.replicate 20 0
  lists := [hashList]
  length_time := rfl
  le_length_auth := by decide
  length_lt := by decide

def certificateContent : Content where
  time := List.replicate 16 0
  auth := List.replicate 20 0
  lists := [certificateList,hashList]
  length_time := rfl
  le_length_auth := by decide
  length_lt := by decide +kernel

def embedded (c : Content) : Sources := ⟨fun _ => false,fun _ => [],fun _ => c.encode⟩

theorem isRevokedByDbx_iff_listed :
    Answered (embedded hashContent) (List.replicate 32 0xab) PeImage.twoSectionImage hashContent ↔
      Meets hashContent (List.replicate 32 0xab) :=
  isRevokedByDbx_iff _ _ _ _ rfl (by decide +kernel) rfl

/-- A hash that stands in the second list, behind one of certificates, is not found. -/
theorem isRevokedByDbx_second_list : ¬Answered (embedded certificateContent) (List.replicate 32 0xab)
    PeImage.twoSectionImage certificateContent := by
  have hcode : isRevokedByDbx (embedded certificateContent) (List.replicate 32 0xab)
      PeImage.twoSectionImage = .ok false := by decide +kernel
  have hlisted : Listed certificateContent.lists (List.replicate 32 0xab) :=
    ⟨hashList,List.mem_cons_of_mem _ List.mem_cons_self,rfl,_,List.mem_cons_self,rfl⟩
  rintro ⟨r,hr,hiff⟩
  rw [hcode] at hr
  obtain rfl := Except.ok.inj hr
  exact Bool.false_ne_true (hiff.mpr hlisted)

end Exactness

end SecureWipeOut.Dbx
