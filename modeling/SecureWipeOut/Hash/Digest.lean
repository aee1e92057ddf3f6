import SecureWipeOut.Hash.Streaming

/-! # The digests of chunked messages

The padding of the standards, and the digest as the iteration of the block transform
over the padded message. Finalisation pads in the buffer, over one or two blocks.
-/
namespace SecureWipeOut.Hash
open ByteStore CInt MerkleDamgard

section Standard

def bigEndian (n v : ℕ) : List UInt8 := (List.range n).map fun i => byteOf v (n - 1 - i)
def littleEndian (n v : ℕ) : List UInt8 := (List.range n).map (byteOf v)

/-- The smallest number of zeros that puts the length field at the end of a block. -/
def zeroCount (B field len : ℕ) : ℕ := (2 * B - field - (len + 1) % B) % B

/-- The padded message: the bit 1, zeros, and the length in bits. -/
def pad (B field : ℕ) (lengthField : ℕ → List UInt8) (m : List UInt8) : List UInt8 :=
  m ++ 0x80 :: List.replicate (zeroCount B field m.length) 0 ++ lengthField (8 * m.length)

/-- The low bytes of the first chaining words. -/
def output (encode : ℕ → List UInt8) (count : ℕ) (s : Words) : List UInt8 :=
  (List.range count).flatMap fun k => encode (s[k]?.getD 0).toNat

def standardMd5 (m : List UInt8) : List UInt8 :=
  output (littleEndian 4) 4 (absorb (step md5Transform) 64 md5Init.state
    (pad 64 8 (littleEndian 8) m))
def standardSha1 (cpu : Cpu) (m : List UInt8) : List UInt8 :=
  output (bigEndian 4) 5 (absorb (step (sha1Transform cpu)) 64 sha1Init.state
    (pad 64 8 (bigEndian 8) m))
def standardSha256 (cpu : Cpu) (m : List UInt8) : List UInt8 :=
  output (bigEndian 4) 8 (absorb (step (sha256Transform cpu)) 64 sha256Init.state
    (pad 64 8 (bigEndian 8) m))
def standardSha512 (m : List UInt8) : List UInt8 :=
  output (bigEndian 8) 8 (absorb (step sha512Transform) 128 sha512Init.state
    (pad 128 16 (bigEndian 16) m))

end Standard

section Padding
variable {B field : ℕ} {transform : Words → Vector UInt8 B → Words} {iv : Words} {m : List UInt8}

/-- The zeros still to come when the next byte goes to the given position. -/
def remaining (B field pos : ℕ) : ℕ :=
  if pos ≤ B - field then B - field - pos else B + (B - field) - pos

theorem zeroCount_eq (hf : 0 < field) (hB : field < B) (len : ℕ) :
    zeroCount B field len = remaining B field (len % B + 1) := by
  have hlt := Nat.mod_lt len (hf.trans hB)
  have hmod : (len + 1) % B = (len % B + 1) % B := (Nat.mod_add_mod len B 1).symm
  unfold zeroCount remaining
  rw [hmod]
  rcases Nat.lt_or_ge (len % B + 1) B with h | h
  · rw [Nat.mod_eq_of_lt h]
    split
    · rw [show 2 * B - field - (len % B + 1) = B + (B - field - (len % B + 1)) by omega,
        Nat.add_mod_left,Nat.mod_eq_of_lt (by omega)]
    · rw [Nat.mod_eq_of_lt (by omega)]
      omega
  · rw [show len % B + 1 = B by omega,Nat.mod_self,if_neg (by omega),
      show 2 * B - field - 0 = B + (B - field) by omega,Nat.add_mod_left,Nat.mod_eq_of_lt (by omega)]
    omega

/-- The message has been split into absorbed blocks and one to B bytes of buffer. -/
structure Split (transform : Words → Vector UInt8 B → Words) (iv : Words) (msg : List UInt8)
    (s : PadState) : Prop where
  parts : ∃ done pending, msg = done ++ pending ∧ B ∣ done.length ∧ pending.length = s.pos ∧
    bytes s.buf s.pos = pending ∧ s.state = absorb (step transform) B iv done
  pos_pos : 0 < s.pos
  pos_le : s.pos ≤ B

theorem absorb_dvd {f : Words → List UInt8 → Words} {s : Words} {xs : List UInt8} (h : B ∣ xs.length)
    (ys : List UInt8) : absorb f B s (xs ++ ys) = absorb f B (absorb f B s xs) ys := by
  have hnil : tail B xs = [] := by
    apply List.eq_nil_of_length_eq_zero
    rw [length_tail]
    exact Nat.mod_eq_zero_of_dvd h
  rw [absorb_append,hnil,List.nil_append]

theorem Holds.split {ctx : HashContext} (hB : 0 < B) (h : Holds transform iv ctx m) :
    Split transform iv (m ++ [0x80]) ⟨m.length % B + 1,
      overwrite ctx.buf (m.length % B) 1 (fun _ => 0x80),ctx.state⟩ := by
  have hle := Nat.mod_le m.length B
  have hdvd : B ∣ (m.take (m.length - m.length % B)).length := by
    rw [List.length_take,Nat.min_eq_left (Nat.sub_le _ _)]
    exact Nat.dvd_sub_mod m.length
  have hm : m = m.take (m.length - m.length % B) ++ tail B m := (List.take_append_drop _ _).symm
  refine ⟨⟨m.take (m.length - m.length % B),tail B m ++ [0x80],?_,hdvd,by simp,?_,?_⟩,Nat.succ_pos _,
    Nat.mod_lt _ hB⟩
  · rw [← List.append_assoc,← hm]
  · rw [bytes_overwrite _ _ (le_refl 1),h.buffered]
    rfl
  · have hshort : (tail B m).length < B := by
      rw [length_tail]
      exact Nat.mod_lt _ hB
    have hab := absorb_dvd (f := step transform) (s := iv) hdvd (tail B m)
    rw [← hm,absorb_short hshort] at hab
    rw [h.state]
    exact hab

theorem padStep_split {k : ℕ} (hB : B = 2 ^ k) (hf : 0 < field) (hfB : field < B)
    {msg : List UInt8} {s s' : PadState} (h : Split transform iv msg s)
    (hs : padStep transform field s = .inl s') :
    Split transform iv (msg ++ [0]) s' ∧ remaining B field s.pos = remaining B field s'.pos + 1 := by
  obtain ⟨⟨done,pending,hmsg,hdvd,hlen,hbuf,hstate⟩,hpos,hle⟩ := h
  unfold padStep at hs
  split at hs
  case isFalse => cases hs
  case isTrue hne =>
    dsimp only at hs
    cases hs
    rw [and_blockSize hB]
    rcases Nat.lt_or_ge s.pos B with hlt | hge
    · rw [Nat.mod_eq_of_lt hlt,if_neg (by omega)]
      refine ⟨⟨⟨done,pending ++ [0],?_,hdvd,by simp [hlen],?_,hstate⟩,Nat.succ_pos _,hlt⟩,?_⟩
      · rw [hmsg,List.append_assoc]
      · rw [bytes_overwrite _ _ (le_refl 1),hbuf]
        rfl
      · unfold remaining
        dsimp only
        split <;> split <;> omega
    · have heq : s.pos = B := by omega
      rw [heq,Nat.mod_self,if_pos rfl]
      refine ⟨⟨⟨done ++ pending,[0],by rw [hmsg],?_,rfl,?_,?_⟩,Nat.succ_pos _,by dsimp only; omega⟩,?_⟩
      · rw [List.length_append,hlen,heq]
        exact Nat.dvd_add hdvd (dvd_refl B)
      · exact bytes_overwrite s.buf (fun _ => 0) (a := 0) (le_refl 1)
      · rw [absorb_dvd hdvd,absorb_block (by omega) (hlen.trans heq),← hbuf,heq,step_bytes,hstate]
      · unfold remaining
        dsimp only
        split <;> split <;> omega

/-- The padding loop ends with the message, the bit 1 and the zeros split at the
length field. -/
theorem padLoop_spec {k : ℕ} (hB : B = 2 ^ k) (hf : 0 < field) (hfB : field < B)
    {s : PadState} (h : Split transform iv (m ++ [0x80]) s)
    (hpos : s.pos = m.length % B + 1) :
    ∃ t, Loop.run (padStep transform field) (2 * B) s = some t ∧ t.pos = B - field ∧
      Split transform iv (m ++ 0x80 :: List.replicate (zeroCount B field m.length) 0) t := by
  have hstep : ∀ t t', (∃ msg, Split transform iv msg t) → padStep transform field t = .inl t' →
      (∃ msg, Split transform iv msg t') ∧ remaining B field t'.pos < remaining B field t.pos := by
    rintro t t' ⟨msg,ht⟩ hpad
    obtain ⟨ht',hrem⟩ := padStep_split hB hf hfB ht hpad
    exact ⟨⟨_,ht'⟩,by omega⟩
  have hfuel : remaining B field s.pos < 2 * B := by
    have := h.pos_pos
    unfold remaining
    split <;> omega
  obtain ⟨t,ht⟩ := Loop.run_terminates (fun t : PadState => remaining B field t.pos) hstep ⟨_,h⟩ hfuel
  refine ⟨t,ht,?_⟩
  refine Loop.run_rule (I := fun t => ∃ n, n + remaining B field t.pos = zeroCount B field m.length ∧
    Split transform iv (m ++ 0x80 :: List.replicate n 0) t)
    (Q := fun t => t.pos = B - field ∧
      Split transform iv (m ++ 0x80 :: List.replicate (zeroCount B field m.length) 0) t) ?_ ?_ ?_ ht
  · rintro t t' ⟨n,hn,hsplit⟩ hpad
    obtain ⟨hsplit',hrem⟩ := padStep_split hB hf hfB hsplit hpad
    refine ⟨n + 1,by omega,?_⟩
    rw [List.append_assoc,List.cons_append,← List.replicate_succ'] at hsplit'
    exact hsplit'
  · rintro t t' ⟨n,hn,hsplit⟩ hpad
    unfold padStep at hpad
    split at hpad
    · cases hpad
    case isFalse heq =>
      have hend : t.pos = B - field := not_not.mp heq
      obtain rfl : t = t' := Sum.inr.inj hpad
      have hzero : remaining B field t.pos = 0 := by
        unfold remaining
        rw [if_pos (by omega)]
        omega
      rw [hzero,Nat.add_zero] at hn
      rw [← hn]
      exact ⟨hend,hsplit⟩
  · refine ⟨0,?_,h⟩
    rw [zeroCount_eq hf hfB,hpos,Nat.zero_add]

end Padding

section Final
variable {B field : ℕ} {transform : Words → Vector UInt8 B → Words} {iv : Words} {m : List UInt8}

/-- The last block: what is pending, completed by the length field. -/
theorem Split.absorb_last {msg : List UInt8} {s : PadState} (h : Split transform iv msg s)
    (hB : 0 < B) (hend : s.pos + field = B) (lengthField : ℕ → UInt8) :
    transform s.state (block B (overwrite s.buf s.pos field lengthField)) =
      absorb (step transform) B iv (msg ++ bytes lengthField field) := by
  obtain ⟨⟨done,pending,hmsg,hdvd,hlen,hbuf,hstate⟩,_,_⟩ := h
  have hlast := bytes_overwrite s.buf lengthField (a := s.pos) (le_refl field)
  rw [hend,hbuf] at hlast
  rw [hmsg,List.append_assoc,absorb_dvd hdvd,absorb_block hB (by simp [hlen,hend]),← hlast,step_bytes,
    hstate]

theorem bytes_storeWords (width count : ℕ) (hw : 0 < width) (s : Words) :
    bytes (storeWords width s) (width * count) = output (bigEndian width) count s := by
  induction count with
  | zero => rfl
  | succ count ih =>
    rw [Nat.mul_succ,bytes_add,ih,output,output,List.range_succ,List.flatMap_append]
    congr 1
    rw [List.flatMap_singleton,bytes,bigEndian]
    apply List.map_congr_left
    intro i hi
    have hlt := List.mem_range.mp hi
    rw [shift,storeWords,Nat.add_mul_div_left _ _ hw,Nat.div_eq_of_lt hlt,Nat.zero_add,
      Nat.add_mul_mod_self_left,Nat.mod_eq_of_lt hlt]

theorem shaFinal_spec {k : ℕ} (hB : B = 2 ^ k) (hf : 0 < field) (hfB : field < B)
    {lengthField : ℕ → ℕ → UInt8} {standardField : ℕ → List UInt8} {width count : ℕ}
    (hw : 0 < width) (hfield : bytes (lengthField m.length) field = standardField (8 * m.length))
    {ctx : HashContext} (h : Holds transform iv ctx m) :
    (shaFinal transform field lengthField width count ctx).map
        (fun ctx => bytes ctx.buf (width * count)) =
      some (output (bigEndian width) count
        (absorb (step transform) B iv (pad B field standardField m))) := by
  have hpos : 0 < B := by omega
  obtain ⟨t,ht,hend,hsplit⟩ := padLoop_spec hB hf hfB (h.split hpos) rfl
  have hsum : t.pos + field = B := by omega
  have hlast := hsplit.absorb_last hpos hsum (lengthField m.length)
  rw [hend,hfield] at hlast
  unfold shaFinal
  dsimp only
  rw [and_blockSize hB,h.bytecount,ht]
  dsimp only [Option.map_some]
  rw [hlast]
  have hstore := bytes_overwrite (overwrite t.buf (B - field) field (lengthField m.length))
    (storeWords width (absorb (step transform) B iv (pad B field standardField m))) (a := 0)
    (le_refl (width * count))
  rw [Nat.zero_add,bytes_storeWords width count hw] at hstore
  exact congrArg some hstore

theorem bitcount64_eq {len : ℕ} (h : len < 2 ^ 61) : bytes (bitcount64 len) 8 = bigEndian 8 (8 * len) := by
  rw [bytes,bigEndian]
  apply List.map_congr_left
  intro i _
  rw [bitcount64,qword_of_lt (by omega),mul_comm]

theorem byteOf_zero {v i : ℕ} (h : v < 256 ^ i) : byteOf v i = 0 := by
  rw [byteOf,Nat.div_eq_of_lt h]
  rfl

theorem bitcount128_eq {len : ℕ} (h : len < 2 ^ 61) :
    bytes (bitcount128 len) 16 = bigEndian 16 (8 * len) := by
  rw [bytes,bigEndian]
  apply List.map_congr_left
  intro i hi
  have hlt := List.mem_range.mp hi
  unfold bitcount128
  split
  case isTrue hhigh =>
    rw [Nat.div_eq_of_lt h,byteOf_zero (Nat.pos_of_ne_zero (by simp))]
    have hpow : 256 ^ 8 ≤ 256 ^ (16 - 1 - i) := Nat.pow_le_pow_right (by norm_num) (by omega)
    have hsmall : 8 * len < 256 ^ 8 := by
      norm_num
      omega
    rw [byteOf_zero (lt_of_lt_of_le hsmall hpow)]
  case isFalse => rw [qword_of_lt (by omega),mul_comm]

/-- Zeros that still fit the block. -/
theorem Split.zeros {msg : List UInt8} {s : PadState} (h : Split transform iv msg s) {n : ℕ}
    (hn : s.pos + n ≤ B) : Split transform iv (msg ++ List.replicate n 0)
      ⟨s.pos + n,overwrite s.buf s.pos n (fun _ => 0),s.state⟩ := by
  obtain ⟨⟨done,pending,hmsg,hdvd,hlen,hbuf,hstate⟩,hpos,_⟩ := h
  refine ⟨⟨done,pending ++ List.replicate n 0,?_,hdvd,by simp [hlen],?_,hstate⟩,Nat.add_pos_left hpos n,hn⟩
  · rw [hmsg,List.append_assoc]
  · rw [bytes_overwrite _ _ (le_refl n),hbuf,bytes_const]

/-- Zeros at the start of the next block, once the current one is full. -/
theorem Split.next {msg : List UInt8} {s : PadState} (h : Split transform iv msg s)
    (hfull : s.pos = B) {n : ℕ} (hn : 0 < n) (hn' : n ≤ B) :
    Split transform iv (msg ++ List.replicate n 0)
      ⟨n,overwrite s.buf 0 n (fun _ => 0),transform s.state (block B s.buf)⟩ := by
  obtain ⟨⟨done,pending,hmsg,hdvd,hlen,hbuf,hstate⟩,_,_⟩ := h
  refine ⟨⟨done ++ pending,List.replicate n 0,by rw [hmsg],?_,by simp,?_,?_⟩,hn,hn'⟩
  · rw [List.length_append,hlen,hfull]
    exact Nat.dvd_add hdvd (dvd_refl B)
  · have hzero := bytes_overwrite s.buf (fun _ => 0) (a := 0) (le_refl n)
    rw [Nat.zero_add,bytes_const] at hzero
    exact hzero
  · rw [absorb_dvd hdvd,absorb_block (by omega) (hlen.trans hfull),← hbuf,hfull,step_bytes,hstate]

/-- The padding of MD5 goes into one block or two, as the room behind the message
decides. -/
theorem md5_padded {ctx : HashContext} {iv : Words} {m : List UInt8}
    (h : Holds md5Transform iv ctx m) (marked : ℕ → UInt8)
    (hmarked : marked = overwrite ctx.buf (m.length % 64) 1 (fun _ => 0x80)) :
    Split md5Transform iv (m ++ 0x80 :: List.replicate (zeroCount 64 8 m.length) 0)
      (if 64 - 1 - m.length % 64 < 8 then
        ⟨64 - 8,overwrite (overwrite marked (m.length % 64 + 1) (64 - 1 - m.length % 64) (fun _ => 0))
          0 (64 - 8) (fun _ => 0),md5Transform ctx.state (block 64 (overwrite marked
            (m.length % 64 + 1) (64 - 1 - m.length % 64) (fun _ => 0)))⟩
      else ⟨64 - 8,overwrite marked (m.length % 64 + 1) (64 - 1 - m.length % 64 - 8) (fun _ => 0),
        ctx.state⟩) := by
  have hsplit := h.split (by norm_num)
  rw [← hmarked] at hsplit
  have hlt := Nat.mod_lt m.length (show 0 < 64 by norm_num)
  rw [zeroCount_eq (by norm_num) (by norm_num),remaining]
  by_cases hroom : 64 - 1 - m.length % 64 < 8
  · rw [if_pos hroom,if_neg (by omega)]
    have hfull := hsplit.zeros (n := 64 - 1 - m.length % 64) (by dsimp only; omega)
    have hnext := hfull.next (n := 64 - 8) (by dsimp only; omega) (by norm_num) (by norm_num)
    rw [List.append_assoc,List.replicate_append_replicate,List.append_assoc,List.singleton_append,
      show 64 - 1 - m.length % 64 + (64 - 8) = 64 + (64 - 8) - (m.length % 64 + 1) by omega] at hnext
    exact hnext
  · rw [if_neg hroom,if_pos (by omega)]
    have hzeros := hsplit.zeros (n := 64 - 1 - m.length % 64 - 8) (by dsimp only; omega)
    rw [List.append_assoc,List.singleton_append,
      show 64 - 1 - m.length % 64 - 8 = 64 - 8 - (m.length % 64 + 1) by omega] at hzeros
    dsimp only at hzeros
    rw [show m.length % 64 + 1 + (64 - 8 - (m.length % 64 + 1)) = 64 - 8 by omega] at hzeros
    rw [show 64 - 1 - m.length % 64 - 8 = 64 - 8 - (m.length % 64 + 1) by omega]
    exact hzeros

theorem bytes_littleEndian (s : Words) :
    bytes (fun i => byteOf (s[i / 4]?.getD 0).toNat (i % 4)) 16 = output (littleEndian 4) 4 s := rfl

theorem md5Final_spec {ctx : HashContext} {iv : Words} {m : List UInt8} (hlen : m.length < 2 ^ 61)
    (h : Holds md5Transform iv ctx m) :
    bytes (md5Final ctx).buf 16 = output (littleEndian 4) 4
      (absorb (step md5Transform) 64 iv (pad 64 8 (littleEndian 8) m)) := by
  have hcount : ctx.bytecount &&& (64 - 1) = m.length % 64 := by
    rw [h.bytecount]
    exact and_blockSize (k := 6) rfl _
  have hbits : qword (ctx.bytecount * 8) = 8 * m.length := by
    rw [h.bytecount,qword_of_lt (by omega),mul_comm]
  have hpadded := md5_padded h _ rfl
  unfold md5Final
  rw [hcount,hbits]
  dsimp only
  split
  case isTrue hroom =>
    rw [if_pos hroom] at hpadded
    have hlast := hpadded.absorb_last (by norm_num) (show 64 - 8 + 8 = 64 from rfl) (fun i => byteOf (8 * m.length) i)
    dsimp only at hlast ⊢
    rw [hlast]
    exact (bytes_overwrite _ _ (a := 0) (le_refl 16)).trans (bytes_littleEndian _)
  case isFalse hroom =>
    rw [if_neg hroom] at hpadded
    have hlast := hpadded.absorb_last (by norm_num) (show 64 - 8 + 8 = 64 from rfl) (fun i => byteOf (8 * m.length) i)
    dsimp only at hlast ⊢
    rw [hlast]
    exact (bytes_overwrite _ _ (a := 0) (le_refl 16)).trans (bytes_littleEndian _)

end Final

section Algorithms

theorem bulk_sha1 (cpu : Cpu) : Bulk (sha1Transform cpu)
    (match cpu.sha1 with
      | some body => acceleratedBlocks body
      | none => wholeBlocks (sha1Transform cpu)) := by
  cases hc : cpu.sha1 with
  | none => exact bulk_wholeBlocks _ (by norm_num)
  | some body =>
    have heq : sha1Transform cpu = x86Transform body := by
      funext s data
      rw [sha1Transform,hc,x86Transform]
    rw [heq]
    exact bulk_acceleratedBlocks body (by norm_num)

theorem bulk_sha256 (cpu : Cpu) : Bulk (sha256Transform cpu)
    (match cpu.sha256 with
      | some body => acceleratedBlocks body
      | none => wholeBlocks (sha256Transform cpu)) := by
  cases hc : cpu.sha256 with
  | none => exact bulk_wholeBlocks _ (by norm_num)
  | some body =>
    have heq : sha256Transform cpu = x86Transform body := by
      funext s data
      rw [sha256Transform,hc,x86Transform]
    rw [heq]
    exact bulk_acceleratedBlocks body (by norm_num)

/-- The message that a list of chunks spells. -/
def message (chunks : List Chunk) : List UInt8 := chunks.flatMap fun c => bytes c.data c.len

/-- After any chunks the context of an algorithm stands for their message. -/
theorem written_holds {B k : ℕ} {transform : Words → Vector UInt8 B → Words} (hB : B = 2 ^ k)
    {bulk : Words → (ℕ → UInt8) → ℕ → Words × (ℕ → UInt8) × ℕ} (hbulk : Bulk transform bulk)
    {copied : ℕ → ℕ → ℕ} (hcopied : ∀ len room, len < room → len ≤ copied len room)
    (iv : Words) {chunks : List Chunk} (hlen : (message chunks).length < 2 ^ 61) :
    Holds transform iv (chunks.foldl (hashWrite transform bulk copied) (initContext iv))
      (message chunks) := by
  have hwrite := foldl_holds (fun ctx m h c hc => hashWrite_holds hB hbulk hcopied h c hc) chunks
    (holds_initContext iv : Holds transform iv (initContext iv) []) (by
      rw [List.nil_append]
      exact hlen.trans (by norm_num))
  rw [List.nil_append] at hwrite
  exact hwrite

end Algorithms

/-- Whatever the chunks and whichever transforms the processor offers, each digest is
the iteration of its block transform over the padded message. -/
theorem hash_chunks (cpu : Cpu) (chunks : List Chunk) (hlen : (message chunks).length < 2 ^ 61) :
    md5.hash chunks = some (standardMd5 (message chunks)) ∧
      (sha1 cpu).hash chunks = some (standardSha1 cpu (message chunks)) ∧
      (sha256 cpu).hash chunks = some (standardSha256 cpu (message chunks)) ∧
      sha512.hash chunks = some (standardSha512 (message chunks)) := by
  refine ⟨?_,?_,?_,?_⟩
  · have h := written_holds (k := 6) rfl (bulk_wholeBlocks md5Transform (by norm_num))
      (fun _ _ => le_of_lt) md5Init.state hlen
    exact congrArg some (md5Final_spec hlen h)
  · have h := written_holds (k := 6) rfl (bulk_sha1 cpu) (fun _ _ _ => le_refl _)
      sha1Init.state hlen
    exact shaFinal_spec (k := 6) rfl (by norm_num) (by norm_num) (show 0 < 4 by norm_num)
      (bitcount64_eq hlen) h
  · have h := written_holds (k := 6) rfl (bulk_sha256 cpu) (fun _ _ _ => le_refl _)
      sha256Init.state hlen
    exact shaFinal_spec (k := 6) rfl (by norm_num) (by norm_num) (show 0 < 4 by norm_num)
      (bitcount64_eq hlen) h
  · have h := written_holds (k := 7) rfl (bulk_wholeBlocks sha512Transform (by norm_num))
      (fun _ _ _ => le_refl _) sha512Init.state hlen
    exact shaFinal_spec (k := 7) rfl (by norm_num) (by norm_num) (show 0 < 8 by norm_num)
      (bitcount128_eq hlen) h

/-- The message "abc" in two chunks with an empty one between them. -/
def abcChunks : List Chunk := [⟨fun _ => 0x61,1⟩,⟨fun _ => 0xff,0⟩,⟨fun i => 0x62 + i.toUInt8,2⟩]

theorem hash_chunks_abc :
    message abcChunks = [0x61,0x62,0x63] ∧
      (sha256 ⟨none,none⟩).hash abcChunks = some (standardSha256 ⟨none,none⟩ [0x61,0x62,0x63]) :=
  ⟨rfl,(hash_chunks ⟨none,none⟩ abcChunks (by decide)).2.2.1⟩

end SecureWipeOut.Hash
