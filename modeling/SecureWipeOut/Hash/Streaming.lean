import SecureWipeOut.Lib.MerkleDamgard
import SecureWipeOut.Hash.Context

/-! # Buffered writing is iteration over the message

After any sequence of writes the chaining words are those of the whole blocks
written so far, and the buffer starts with the bytes behind them. What the buffer
holds beyond those bytes does not matter.
-/
namespace SecureWipeOut.Hash
open ByteStore CInt MerkleDamgard

section Bytes
variable {p q : ℕ → UInt8} {n k : ℕ}

@[simp] theorem length_bytes (p : ℕ → UInt8) (n : ℕ) : (bytes p n).length = n := by simp [bytes]

theorem getD_bytes {i : ℕ} (h : i < n) : (bytes p n).getD i 0 = p i := by
  simp [bytes,h]

theorem bytes_congr (h : ∀ i < n, p i = q i) : bytes p n = bytes q n := by
  unfold bytes
  apply List.map_congr_left
  intro i hi
  exact h i (List.mem_range.mp hi)

theorem bytes_add (p : ℕ → UInt8) (n k : ℕ) : bytes p (n + k) = bytes p n ++ bytes (shift p n) k := by
  simp [bytes,shift,List.range_add,Function.comp_def,add_comm]

theorem take_bytes (h : k ≤ n) : (bytes p n).take k = bytes p k := by
  rw [← Nat.add_sub_cancel' h,bytes_add,List.take_append_of_le_length (by simp),
    List.take_of_length_le (by simp)]

theorem drop_bytes (h : k ≤ n) : (bytes p n).drop k = bytes (shift p k) (n - k) := by
  conv_lhs => rw [← Nat.add_sub_cancel' h,bytes_add]
  rw [List.drop_append_of_le_length (by simp),List.drop_of_length_le (by simp),List.nil_append]

/-- Copying behind the first bytes of a buffer appends to them. -/
theorem bytes_overwrite (buf data : ℕ → UInt8) {a len : ℕ} (h : k ≤ len) :
    bytes (overwrite buf a len data) (a + k) = bytes buf a ++ bytes data k := by
  rw [bytes_add]
  congr 1
  · exact bytes_congr fun i hi => overwrite_outside _ _ (Or.inl hi)
  · apply bytes_congr
    intro i hi
    rw [shift,overwrite_inside _ _ (by omega) (by omega)]
    congr 1
    omega

theorem bytes_const (v : UInt8) (n : ℕ) : bytes (fun _ => v) n = List.replicate n v := by
  simp [bytes]

end Bytes

section Blocks
variable {B : ℕ} (transform : Words → Vector UInt8 B → Words)

/-- The transform as a step over lists of one block. -/
def step (s : Words) (xs : List UInt8) : Words :=
  transform s (Vector.ofFn fun i => xs.getD i 0)

theorem step_bytes (s : Words) (p : ℕ → UInt8) : step transform s (bytes p B) =
    transform s (block B p) := by
  unfold step block
  congr 2
  funext i
  exact getD_bytes i.isLt

/-- Processing the whole blocks at a position, and stopping at the rest. -/
def Bulk (bulk : Words → (ℕ → UInt8) → ℕ → Words × (ℕ → UInt8) × ℕ) : Prop :=
  ∀ s p len, (bulk s p len).1 = absorb (step transform) B s (bytes p len) ∧
    bytes (bulk s p len).2.1 (bulk s p len).2.2 = tail B (bytes p len)

theorem bulk_wholeBlocks (hB : 0 < B) : Bulk transform (wholeBlocks transform) := by
  intro s p len
  fun_induction wholeBlocks transform s p len with
  | case1 s p len h ih =>
    have hlen : B ≤ (bytes p len).length := by simpa using h.2
    obtain ⟨hs,ht⟩ := ih
    rw [absorb_long hB hlen,take_bytes h.2,drop_bytes h.2,step_bytes,← tail_long hlen,drop_bytes h.2]
    exact ⟨hs,ht⟩
  | case2 s p len h =>
    have hlen : (bytes p len).length < B := by
      rw [length_bytes]
      omega
    rw [absorb_short hlen,tail_short hlen]
    exact ⟨rfl,rfl⟩

end Blocks

section Accelerated
variable {n : ℕ} (body : X86Block n)

theorem pack_unpack (hn : n ≤ 8) (s : Words) (w : Vector UInt32 n) : pack n (unpack s w) = w := by
  ext i hi
  simp [pack,unpack,show i < 8 by omega]

theorem unpack_unpack (s : Words) (w w' : Vector UInt32 n) :
    unpack (unpack s w) w' = unpack s w' := by
  ext i hi
  by_cases h : i < n
  · simp [unpack,h]
  · simp [unpack,h]

def x86Step (w : Vector UInt32 n) (xs : List UInt8) : Vector UInt32 n :=
  body w (Vector.ofFn fun i => xs.getD i 0)

theorem x86Loop_eq (w : Vector UInt32 n) (p : ℕ → UInt8) (len : ℕ) :
    x86Loop body w p len = absorb (x86Step body) 64 w (bytes p len) := by
  fun_induction x86Loop body w p len with
  | case1 w p len h ih =>
    have hblock : x86Step body w (bytes p 64) = body w (block 64 p) := by
      unfold x86Step block
      congr 2
      funext i
      exact getD_bytes i.isLt
    rw [absorb_long (by norm_num) (by simpa using h),take_bytes h,drop_bytes h,hblock,ih]
    rfl
  | case2 w p len h => rw [absorb_short (by simpa using h)]

/-- The transform of a single block through the accelerated loop. -/
def x86Transform (s : Words) (data : Vector UInt8 64) : Words :=
  transformX86 body s (fun i => data[i]?.getD 0) 64

theorem step_x86Transform (s : Words) (xs : List UInt8) :
    step (x86Transform body) s xs = unpack s (x86Step body (pack n s) xs) := by
  have hdata : ∀ v : Vector UInt8 64,
      (Vector.ofFn fun i : Fin 64 => (bytes (fun i => v[i]?.getD 0) 64).getD i 0) = v := by
    intro v
    ext i hi
    rw [Vector.getElem_ofFn,getD_bytes hi]
    simp [hi]
  rw [step,x86Transform,transformX86,x86Loop_eq,absorb_block (by norm_num) (length_bytes _ _),
    x86Step,hdata,x86Step]

/-- Many blocks in one accelerated call are many calls of one block. -/
theorem bulk_acceleratedBlocks (hn : n ≤ 8) :
    Bulk (x86Transform body) (acceleratedBlocks body) := by
  intro s p len
  unfold acceleratedBlocks
  split
  case isFalse h =>
    have hlen : (bytes p len).length < 64 := by simpa using h
    rw [absorb_short hlen,tail_short hlen]
    exact ⟨rfl,rfl⟩
  case isTrue h =>
    have hle : len / 64 * 64 ≤ len := Nat.div_mul_le_self len 64
    have hmod : len - len / 64 * 64 = len % 64 := by omega
    have hsplit : bytes p len = bytes p (len / 64 * 64) ++ bytes (shift p (len / 64 * 64)) (len % 64) := by
      rw [← bytes_add]
      congr 1
      omega
    have hrest : (bytes (shift p (len / 64 * 64)) (len % 64)).length < 64 := by
      rw [length_bytes]
      exact Nat.mod_lt _ (by norm_num)
    have hwhole : tail 64 (bytes p (len / 64 * 64)) = [] := by
      apply List.eq_nil_of_length_eq_zero
      simp
    have hcall : transformX86 body s p (len / 64 * 64) =
        absorb (step (x86Transform body)) 64 s (bytes p (len / 64 * 64)) := by
      have hcomm : ∀ w xs, step (x86Transform body) (unpack s w) xs = unpack s (x86Step body w xs) := by
        intro w xs
        rw [step_x86Transform,pack_unpack hn,unpack_unpack]
      have hpos : 64 ≤ (bytes p (len / 64 * 64)).length := by
        rw [length_bytes]
        omega
      rw [transformX86,x86Loop_eq,absorb_long (by norm_num) hpos,absorb_long (by norm_num) hpos,
        step_x86Transform,absorb_map (unpack s) hcomm]
    dsimp only
    rw [hmod]
    refine ⟨?_,?_⟩
    · rw [hcall,hsplit,absorb_append,hwhole,List.nil_append,absorb_short hrest]
    · rw [hsplit,tail_append,hwhole,List.nil_append,tail_short hrest]

end Accelerated

section Holds
variable {B : ℕ} (transform : Words → Vector UInt8 B → Words) (iv : Words)

/-- The context stands for the message written so far. -/
structure Holds (ctx : HashContext) (m : List UInt8) : Prop where
  bytecount : ctx.bytecount = m.length
  state : ctx.state = absorb (step transform) B iv m
  buffered : bytes ctx.buf (m.length % B) = tail B m

variable {transform iv} {bulk : Words → (ℕ → UInt8) → ℕ → Words × (ℕ → UInt8) × ℕ}

theorem holds_initContext (iv : Words) : Holds transform iv (initContext iv) [] := by
  refine ⟨rfl,?_,rfl⟩
  rcases Nat.eq_zero_or_pos B with rfl | hB
  · rw [absorb,if_neg (by omega)]
    rfl
  · rw [absorb_short (by simpa using hB)]
    rfl

theorem and_blockSize {B k : ℕ} (hB : B = 2 ^ k) (x : ℕ) : x &&& (B - 1) = x % B := by
  rw [hB]
  exact Nat.and_two_pow_sub_one_eq_mod x k

/-- The whole blocks and the rest of a chunk that begins at a block boundary. -/
theorem writeRest_holds (hbulk : Bulk transform bulk) {ctx : HashContext}
    {m : List UInt8} {p : ℕ → UInt8} {len : ℕ} (hm : m.length % B = 0)
    (hc : ctx.bytecount = m.length + len) (hs : ctx.state = absorb (step transform) B iv m) :
    Holds transform iv (writeRest bulk ctx p len) (m ++ bytes p len) := by
  obtain ⟨hstate,hrest⟩ := hbulk ctx.state p len
  have hnil : tail B m = [] := by
    apply List.eq_nil_of_length_eq_zero
    rw [length_tail,hm]
  have htail : tail B (m ++ bytes p len) = tail B (bytes p len) := by
    rw [tail_append,hnil,List.nil_append]
  have hlen : (bulk ctx.state p len).2.2 = (m ++ bytes p len).length % B := by
    have := congrArg List.length hrest
    rw [length_bytes,length_tail] at this
    rw [this,← length_tail (B := B) (m ++ bytes p len),htail,length_tail]
  refine ⟨?_,?_,?_⟩
  · rw [List.length_append,length_bytes]
    exact hc
  · rw [absorb_append,hnil,List.nil_append,← hs]
    exact hstate
  · rw [htail,← hrest,← hlen]
    have := bytes_overwrite ctx.buf (bulk ctx.state p len).2.1 (a := 0) (le_refl (bulk ctx.state p len).2.2)
    rw [Nat.zero_add] at this
    exact this

/-- A write extends the message by the chunk, provided the copy into a buffer it does
not fill takes at least the chunk and no more than fits. -/
theorem hashWrite_holds {k : ℕ} (hB : B = 2 ^ k) (hbulk : Bulk transform bulk)
    {copied : ℕ → ℕ → ℕ} (hcopied : ∀ len room, len < room → len ≤ copied len room)
    {ctx : HashContext} {m : List UInt8} (h : Holds transform iv ctx m) (c : Chunk)
    (hlen : m.length + c.len < 2 ^ 64) :
    Holds transform iv (hashWrite transform bulk copied ctx c) (m ++ bytes c.data c.len) := by
  have hpos : 0 < B := hB ▸ Nat.two_pow_pos k
  have hlt := Nat.mod_lt m.length hpos
  unfold hashWrite
  dsimp only
  rw [and_blockSize hB,h.bytecount,qword_of_lt hlen]
  by_cases hz : m.length % B = 0
  · rw [if_neg (not_not.mpr hz)]
    exact writeRest_holds hbulk hz rfl h.state
  · rw [if_pos hz]
    by_cases hshort : c.len < B - m.length % B
    · rw [if_pos hshort]
      have hrest : (tail B m ++ bytes c.data c.len).length < B := by
        rw [List.length_append,length_tail,length_bytes]
        omega
      have hmod : (m ++ bytes c.data c.len).length % B = m.length % B + c.len := by
        rw [← length_tail,tail_append,tail_short hrest,List.length_append,length_tail,length_bytes]
      refine ⟨?_,?_,?_⟩
      · rw [List.length_append,length_bytes]
      · rw [absorb_append,absorb_short hrest]
        exact h.state
      · rw [hmod,bytes_overwrite _ _ (hcopied _ _ hshort),h.buffered,tail_append,tail_short hrest]
    · rw [if_neg hshort]
      set room := B - m.length % B with hroom
      have hsplit : bytes c.data c.len =
          bytes c.data room ++ bytes (shift c.data room) (c.len - room) := by
        rw [← bytes_add]
        congr 1
        omega
      have hfull : bytes (overwrite ctx.buf (m.length % B) room c.data) B =
          tail B m ++ bytes c.data room := by
        have := bytes_overwrite ctx.buf c.data (a := m.length % B) (le_refl room)
        rwa [show m.length % B + room = B by omega,h.buffered] at this
      have hblock : (tail B m ++ bytes c.data room).length = B := by
        rw [← hfull,length_bytes]
      rw [hsplit,← List.append_assoc]
      apply writeRest_holds hbulk
      · rw [← length_tail,tail_append,length_tail,hblock,Nat.mod_self]
      · dsimp only
        rw [List.length_append,length_bytes]
        omega
      · rw [absorb_append,absorb_block hpos hblock,← hfull,step_bytes,← h.state]

theorem foldl_holds {write : HashContext → Chunk → HashContext}
    (hwrite : ∀ ctx m, Holds transform iv ctx m → ∀ c : Chunk, m.length + c.len < 2 ^ 64 →
      Holds transform iv (write ctx c) (m ++ bytes c.data c.len))
    (chunks : List Chunk) {ctx : HashContext} {m : List UInt8} (h : Holds transform iv ctx m)
    (hlen : (m ++ chunks.flatMap fun c => bytes c.data c.len).length < 2 ^ 64) :
    Holds transform iv (chunks.foldl write ctx) (m ++ chunks.flatMap fun c => bytes c.data c.len) := by
  induction chunks generalizing ctx m with
  | nil => simpa using h
  | cons c rest ih =>
    rw [List.flatMap_cons,← List.append_assoc] at hlen ⊢
    have hfit : m.length + c.len < 2 ^ 64 := by
      rw [List.length_append,List.length_append,length_bytes] at hlen
      omega
    exact ih (hwrite ctx m h c hfit) hlen

end Holds

end SecureWipeOut.Hash
