import SecureWipeOut.Hash.Context

/-! # What the writers access

The writers once more, with a fault where a copy or a transform would read behind the
caller's chunk or a copy would write behind the buffer of the context. Where there is no
fault they do what they did; an over-read that is not looked at later shows only here.
-/
namespace SecureWipeOut.Hash
open ByteStore CInt

/-- The size of the buffer of a context. -/
def maxBlocksize : ℕ := 128

section checked

/-- A copy of n bytes at off in the chunk to the buffer. -/
def memcpyChecked (buf : ℕ → UInt8) (dst : ℕ) (c : Chunk) (off n : ℕ) : Option (ℕ → UInt8) :=
  if off + n ≤ c.len ∧ dst + n ≤ maxBlocksize then some (overwrite buf dst n (shift c.data off))
  else none

/-- The block a transform reads at off in the chunk. -/
def blockChecked (B : ℕ) (c : Chunk) (off : ℕ) : Option (Vector UInt8 B) :=
  if off + B ≤ c.len then some (block B (shift c.data off)) else none

/-- The loop over whole blocks; the pointer into the chunk is an offset here. -/
def wholeBlocksChecked {B : ℕ} (transform : Words → Vector UInt8 B → Words) (s : Words) (c : Chunk)
    (off len : ℕ) : Option (Words × ℕ × ℕ) :=
  if 0 < B ∧ B ≤ len then
    match blockChecked B c off with
    | none => none
    | some data => wholeBlocksChecked transform (transform s data) c (off + B) (len - B)
  else some (s,off,len)
  termination_by len

/-- An accelerated transform loads the 64 bytes of a block in each pass of its loop. -/
def x86LoopChecked {n : ℕ} (body : X86Block n) (w : Vector UInt32 n) (c : Chunk) (off length : ℕ) :
    Option (Vector UInt32 n) :=
  if 64 ≤ length then
    match blockChecked 64 c off with
    | none => none
    | some data => x86LoopChecked body (body w data) c (off + 64) (length - 64)
  else some w
  termination_by length

def acceleratedBlocksChecked {n : ℕ} (body : X86Block n) (s : Words) (c : Chunk) (off len : ℕ) :
    Option (Words × ℕ × ℕ) :=
  if 64 ≤ len then
    let num := len / 64 * 64
    (x86LoopChecked body (pack n s) c off num).map fun w => (unpack s w,off + num,len - num)
  else some (s,off,len)

variable (bulk : Words → Chunk → ℕ → ℕ → Option (Words × ℕ × ℕ))

def writeRestChecked (ctx : HashContext) (c : Chunk) (off len : ℕ) : Option HashContext :=
  (bulk ctx.state c off len).bind fun r =>
    (memcpyChecked ctx.buf 0 c r.2.1 r.2.2).map fun buf => { ctx with state := r.1, buf := buf }

/-- The transform between the two copies reads a block of the buffer itself. -/
def hashWriteChecked {B : ℕ} (transform : Words → Vector UInt8 B → Words) (copied : ℕ → ℕ → ℕ)
    (ctx : HashContext) (c : Chunk) : Option HashContext :=
  let num := ctx.bytecount &&& (B - 1)
  let ctx := { ctx with bytecount := qword (ctx.bytecount + c.len) }
  if num ≠ 0 then
    let room := B - num
    if c.len < room then
      (memcpyChecked ctx.buf num c 0 (copied c.len room)).map fun buf => { ctx with buf := buf }
    else
      (memcpyChecked ctx.buf num c 0 room).bind fun buf =>
        writeRestChecked bulk { ctx with buf := buf, state := transform ctx.state (block B buf) }
          c room (c.len - room)
  else writeRestChecked bulk ctx c 0 c.len

end checked

section writers
variable (cpu : Cpu)

def sha1WriteChecked : HashContext → Chunk → Option HashContext :=
  hashWriteChecked
    (match cpu.sha1 with
      | some body => acceleratedBlocksChecked body
      | none => wholeBlocksChecked (sha1Transform cpu)) (sha1Transform cpu) (fun len _ => len)

def sha256WriteChecked : HashContext → Chunk → Option HashContext :=
  hashWriteChecked
    (match cpu.sha256 with
      | some body => acceleratedBlocksChecked body
      | none => wholeBlocksChecked (sha256Transform cpu)) (sha256Transform cpu) (fun len _ => len)

def sha512WriteChecked : HashContext → Chunk → Option HashContext :=
  hashWriteChecked (wholeBlocksChecked sha512Transform) sha512Transform (fun len _ => len)

def md5WriteChecked : HashContext → Chunk → Option HashContext :=
  hashWriteChecked (wholeBlocksChecked md5Transform) md5Transform (fun _ room => room)

end writers

section bulk
variable {B : ℕ} {c : Chunk} {off len : ℕ}

theorem shift_shift (p : ℕ → UInt8) (a b : ℕ) : shift (shift p a) b = shift p (a + b) := by
  funext i
  exact congrArg p (by omega)

/-- A checked loop stays within the chunk, does what the other one does and leaves less
than a block. -/
def Agrees (B : ℕ) (checked : Words → Chunk → ℕ → ℕ → Option (Words × ℕ × ℕ))
    (bulk : Words → (ℕ → UInt8) → ℕ → Words × (ℕ → UInt8) × ℕ) : Prop :=
  ∀ s c off len, off + len ≤ c.len → ∃ s' off' len', checked s c off len = some (s',off',len') ∧
    bulk s (shift c.data off) len = (s',shift c.data off',len') ∧ off' + len' = off + len ∧ len' < B

theorem blockChecked_of_le (h : off + B ≤ c.len) :
    blockChecked B c off = some (block B (shift c.data off)) := if_pos h

theorem agrees_wholeBlocks (hB : 0 < B) (transform : Words → Vector UInt8 B → Words) :
    Agrees B (wholeBlocksChecked transform) (wholeBlocks transform) := by
  intro s c off len h
  fun_induction wholeBlocksChecked transform s c off len with
  | case1 s off len hlen hnone =>
    rw [blockChecked_of_le (by omega)] at hnone
    cases hnone
  | case2 s off len hlen data hdata ih =>
    rw [blockChecked_of_le (by omega)] at hdata
    obtain rfl := Option.some_inj.mp hdata
    obtain ⟨s',off',len',hchecked,hbulk,hsum,hlt⟩ := ih (by omega)
    refine ⟨s',off',len',hchecked,?_,by omega,hlt⟩
    rw [wholeBlocks,if_pos hlen,shift_shift,hbulk]
  | case3 s off len hlen =>
    refine ⟨s,off,len,rfl,?_,rfl,by omega⟩
    rw [wholeBlocks,if_neg hlen]

theorem x86LoopChecked_eq {n : ℕ} (body : X86Block n) (w : Vector UInt32 n) (h : off + len ≤ c.len) :
    x86LoopChecked body w c off len = some (x86Loop body w (shift c.data off) len) := by
  fun_induction x86LoopChecked body w c off len with
  | case1 w off len hlen hnone =>
    rw [blockChecked_of_le (by omega)] at hnone
    cases hnone
  | case2 w off len hlen data hdata ih =>
    rw [blockChecked_of_le (by omega)] at hdata
    obtain rfl := Option.some_inj.mp hdata
    have hnext : (fun i => shift c.data off (i + 64)) = shift c.data (off + 64) :=
      shift_shift c.data off 64
    rw [x86Loop,if_pos hlen,hnext]
    exact ih (by omega)
  | case3 w off len hlen => rw [x86Loop,if_neg hlen]

theorem agrees_acceleratedBlocks {n : ℕ} (body : X86Block n) :
    Agrees 64 (acceleratedBlocksChecked body) (acceleratedBlocks body) := by
  intro s c off len h
  unfold acceleratedBlocksChecked acceleratedBlocks
  by_cases hlen : 64 ≤ len
  · have hle : len / 64 * 64 ≤ len := Nat.div_mul_le_self len 64
    rw [if_pos hlen,if_pos hlen]
    dsimp only
    rw [x86LoopChecked_eq body _ (by omega),shift_shift]
    exact ⟨_,_,_,rfl,rfl,by omega,by omega⟩
  · rw [if_neg hlen,if_neg hlen]
    exact ⟨_,_,_,rfl,rfl,rfl,by omega⟩

end bulk

section bounds
variable {B k : ℕ} {transform : Words → Vector UInt8 B → Words} {copied : ℕ → ℕ → ℕ}
  {checked : Words → Chunk → ℕ → ℕ → Option (Words × ℕ × ℕ)}
  {bulk : Words → (ℕ → UInt8) → ℕ → Words × (ℕ → UInt8) × ℕ}

theorem writeRestChecked_eq (hbulk : Agrees B checked bulk) (hB : B ≤ maxBlocksize)
    (ctx : HashContext) {c : Chunk} {off len : ℕ} (h : off + len ≤ c.len) :
    writeRestChecked checked ctx c off len = some (writeRest bulk ctx (shift c.data off) len) := by
  obtain ⟨s',off',len',hchecked,hrest,hsum,hlt⟩ := hbulk ctx.state c off len h
  have hcopy : memcpyChecked ctx.buf 0 c off' len' =
      some (overwrite ctx.buf 0 len' (shift c.data off')) := if_pos ⟨by omega,by omega⟩
  rw [writeRestChecked,hchecked,Option.bind_some]
  dsimp only
  rw [hcopy,writeRest,hrest]
  rfl

/-- A write faults exactly when it copies more than the chunk has into a buffer that it
does not fill. -/
theorem hashWriteChecked_eq (hbulk : Agrees B checked bulk) (hB : B = 2 ^ k) (hmax : B ≤ maxBlocksize)
    (hroom : ∀ len room, len < room → copied len room ≤ room) (ctx : HashContext) (c : Chunk) :
    hashWriteChecked checked transform copied ctx c =
      if ctx.bytecount % B ≠ 0 ∧ c.len < B - ctx.bytecount % B ∧
          c.len < copied c.len (B - ctx.bytecount % B) then none
      else some (hashWrite transform bulk copied ctx c) := by
  have hnum : ctx.bytecount &&& (B - 1) = ctx.bytecount % B := by
    rw [hB]
    exact Nat.and_two_pow_sub_one_eq_mod _ _
  have hpos : 0 < B := hB ▸ Nat.two_pow_pos k
  have hlt := Nat.mod_lt ctx.bytecount hpos
  rw [hashWriteChecked,hashWrite,hnum]
  dsimp only
  generalize ctx.bytecount % B = num at hlt
  by_cases hzero : num ≠ 0
  · simp only [if_pos hzero]
    by_cases hshort : c.len < B - num
    · have hle := hroom c.len (B - num) hshort
      simp only [if_pos hshort]
      by_cases hover : c.len < copied c.len (B - num)
      · have hcopy : memcpyChecked ctx.buf num c 0 (copied c.len (B - num)) = none :=
          if_neg (by omega)
        rw [if_pos ⟨hzero,hshort,hover⟩,hcopy,Option.map_none]
      · have hcopy : memcpyChecked ctx.buf num c 0 (copied c.len (B - num)) =
            some (overwrite ctx.buf num (copied c.len (B - num)) c.data) :=
          if_pos ⟨by omega,by omega⟩
        rw [if_neg (by omega),hcopy,Option.map_some]
    · have hcopy : memcpyChecked ctx.buf num c 0 (B - num) =
          some (overwrite ctx.buf num (B - num) c.data) := if_pos ⟨by omega,by omega⟩
      simp only [if_neg hshort]
      rw [if_neg (by omega),hcopy,Option.bind_some,writeRestChecked_eq hbulk hmax _ (by omega)]
  · simp only [if_neg hzero]
    rw [if_neg (by omega),writeRestChecked_eq hbulk hmax _ (by omega)]
    rfl

/-- A writer that copies no more than the chunk has never faults. -/
theorem hashWriteChecked_len (hbulk : Agrees B checked bulk) (hB : B = 2 ^ k)
    (hmax : B ≤ maxBlocksize) (ctx : HashContext) (c : Chunk) :
    hashWriteChecked checked transform (fun len _ => len) ctx c =
      some (hashWrite transform bulk (fun len _ => len) ctx c) := by
  have hle : ∀ len room : ℕ, len < room → len ≤ room := fun _ _ => le_of_lt
  rw [hashWriteChecked_eq hbulk hB hmax hle,if_neg (by omega)]

theorem bytecount_hashWrite (ctx : HashContext) (c : Chunk) :
    (hashWrite transform bulk copied ctx c).bytecount = qword (ctx.bytecount + c.len) := by
  rw [hashWrite]
  dsimp only
  split
  · split <;> rfl
  · rfl

/-- The count of a context that is reached, up to what the code uses of it. -/
theorem bytecount_writes (hB : B = 2 ^ k) (hk : k ≤ 64) (ctx : HashContext) (chunks : List Chunk) :
    (chunks.foldl (hashWrite transform bulk copied) ctx).bytecount % B =
      (ctx.bytecount + (chunks.map Chunk.len).sum) % B := by
  induction chunks generalizing ctx with
  | nil => simp
  | cons c chunks ih =>
    have hdvd : B ∣ 2 ^ 64 := hB ▸ Nat.pow_dvd_pow 2 hk
    have hcount : (qword (ctx.bytecount + c.len) + (chunks.map Chunk.len).sum) % B =
        (ctx.bytecount + c.len + (chunks.map Chunk.len).sum) % B := by
      rw [Nat.add_mod,qword,Nat.mod_mod_of_dvd _ hdvd,← Nat.add_mod]
    rw [List.foldl_cons,ih,bytecount_hashWrite,hcount,List.map_cons,List.sum_cons]
    congr 1
    omega

end bounds

section reachable
variable (cpu : Cpu)

theorem sha1WriteChecked_eq (ctx : HashContext) (c : Chunk) :
    sha1WriteChecked cpu ctx c = some (sha1Write cpu ctx c) := by
  refine hashWriteChecked_len (k := 6) ?_ rfl (by decide) ctx c
  cases cpu.sha1 with
  | none => exact agrees_wholeBlocks (by norm_num) _
  | some body => exact agrees_acceleratedBlocks body

theorem sha256WriteChecked_eq (ctx : HashContext) (c : Chunk) :
    sha256WriteChecked cpu ctx c = some (sha256Write cpu ctx c) := by
  refine hashWriteChecked_len (k := 6) ?_ rfl (by decide) ctx c
  cases cpu.sha256 with
  | none => exact agrees_wholeBlocks (by norm_num) _
  | some body => exact agrees_acceleratedBlocks body

theorem sha512WriteChecked_eq (ctx : HashContext) (c : Chunk) :
    sha512WriteChecked ctx c = some (sha512Write ctx c) :=
  hashWriteChecked_len (k := 7) (agrees_wholeBlocks (by norm_num) _) rfl (by decide) ctx c

theorem md5WriteChecked_eq (ctx : HashContext) (c : Chunk) :
    md5WriteChecked ctx c =
      if ctx.bytecount % 64 ≠ 0 ∧ c.len < 64 - ctx.bytecount % 64 then none
      else some (md5Write ctx c) := by
  have hle : ∀ len room : ℕ, len < room → room ≤ room := fun _ _ _ => le_rfl
  rw [md5WriteChecked,hashWriteChecked_eq (k := 6) (agrees_wholeBlocks (by norm_num) _) rfl
    (by decide) hle]
  simp only [and_self]
  rfl

/-- In every context that any chunks lead to, no writer reads behind its chunk or writes
behind the buffer, except that md5_write does where the chunk does not fill a buffer that
is not empty. -/
theorem writers_inBounds_iff (chunks : List Chunk) (c : Chunk) :
    (sha1WriteChecked cpu (chunks.foldl (sha1Write cpu) sha1Init) c).isSome ∧
      (sha256WriteChecked cpu (chunks.foldl (sha256Write cpu) sha256Init) c).isSome ∧
      (sha512WriteChecked (chunks.foldl sha512Write sha512Init) c).isSome ∧
      ((md5WriteChecked (chunks.foldl md5Write md5Init) c).isSome ↔
        (chunks.map Chunk.len).sum % 64 = 0 ∨ 64 ≤ (chunks.map Chunk.len).sum % 64 + c.len) := by
  rw [sha1WriteChecked_eq,sha256WriteChecked_eq,sha512WriteChecked_eq,md5WriteChecked_eq]
  refine ⟨rfl,rfl,rfl,?_⟩
  have hcount : (chunks.foldl md5Write md5Init).bytecount % 64 =
      (chunks.map Chunk.len).sum % 64 := by
    refine (bytecount_writes (B := 64) (k := 6) rfl (by norm_num) md5Init chunks).trans ?_
    exact congrArg (· % 64) (Nat.zero_add _)
  have hlt := Nat.mod_lt (chunks.map Chunk.len).sum (show 0 < 64 by norm_num)
  rw [hcount]
  split
  · simp only [Option.isSome_none,Bool.false_eq_true,false_iff]
    omega
  · simp only [Option.isSome_some,true_iff]
    omega

/-- One byte after one byte: 63 bytes are copied. -/
theorem md5Write_overReads :
    (md5WriteChecked ([⟨fun _ => 0,1⟩].foldl md5Write md5Init) ⟨fun _ => 0,1⟩).isSome = false := by
  rw [md5WriteChecked_eq]
  have hcount : ([(⟨fun _ => 0,1⟩ : Chunk)].foldl md5Write md5Init).bytecount = 1 := by
    rw [List.foldl_cons,List.foldl_nil,md5Write,bytecount_hashWrite]
    rfl
  rw [hcount]
  rfl

end reachable
end SecureWipeOut.Hash
