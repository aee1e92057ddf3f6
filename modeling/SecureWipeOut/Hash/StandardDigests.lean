import SecureWipeOut.Hash.AcceleratedSha256
import SecureWipeOut.Hash.Digest

/-! # The digests of the standards

The digests as the standards define them, from the padded message to the bytes of the last
chaining words, and the constants they start from. What the code computes for a message does
not depend on how the message is cut into chunks nor on the instructions of the processor.
-/
namespace SecureWipeOut.Hash
open ShaInstructions DigestStandards MerkleDamgard

section blocks

theorem toList_ofFn_getD {xs : List UInt8} {n : ℕ} (h : xs.length = n) :
    (Vector.ofFn fun i : Fin n => xs.getD i 0).toList = xs := by
  refine List.ext_getElem (by simp [h]) fun i hi hi' => ?_
  simp [hi']

/-- A transform that computes a compression function does so block by block. -/
theorem lowBits_absorb {n : ℕ} {transform : Words → Vector UInt8 64 → Words}
    {compress : Vector (BitVec 32) n → List UInt8 → Vector (BitVec 32) n}
    (h : ∀ s data, lowBits n (transform s data) = compress (lowBits n s) data.toList)
    (s : Words) (xs : List UInt8) :
    lowBits n (absorb (step transform) 64 s xs) = absorb compress 64 (lowBits n s) xs := by
  refine (absorb_map_blocks (lowBits n) (fun t ys hlen => ?_) s xs).symm
  rw [step,h,toList_ofFn_getD hlen]

theorem ofBitVec_lowBits (n : ℕ) (s : Words) : (lowBits n s).map UInt32.ofBitVec = pack n s := by
  rw [lowBits,Vector.map_map]
  exact Vector.map_id _

theorem ofBitVec_absorb {n : ℕ} {transform : Words → Vector UInt8 64 → Words}
    {compress : Vector (BitVec 32) n → List UInt8 → Vector (BitVec 32) n}
    (h : ∀ s data, lowBits n (transform s data) = compress (lowBits n s) data.toList)
    (s : Words) (xs : List UInt8) :
    (absorb compress 64 ((pack n s).map UInt32.toBitVec) xs).map UInt32.ofBitVec =
      pack n (absorb (step transform) 64 s xs) :=
  (congrArg (Vector.map UInt32.ofBitVec) (lowBits_absorb h s xs).symm).trans (ofBitVec_lowBits n _)

/-- The loop with the blocks of an accelerated transform, by the compression function. -/
theorem x86Loop_absorb {n : ℕ} {body : X86Block n}
    {compress : Vector (BitVec 32) n → List UInt8 → Vector (BitVec 32) n}
    (h : ∀ w data, (body w data).map UInt32.toBitVec =
      compress (w.map UInt32.toBitVec) data.toList) (w : Vector UInt32 n) (p : ℕ → UInt8)
    (length : ℕ) : x86Loop body w p length =
      (absorb compress 64 (w.map UInt32.toBitVec) (bytes p length)).map UInt32.ofBitVec := by
  have hmap := absorb_map_blocks (f := compress) (g := x86Step body) (B := 64)
    (Vector.map UInt32.toBitVec) (fun t xs hlen => by
      rw [x86Step,h,toList_ofFn_getD hlen]) w (bytes p length)
  rw [hmap,← x86Loop_eq,Vector.map_map]
  exact (Vector.map_id _).symm

/-- An accelerated transform and the loop of the portable one over the same memory leave the
same words, whatever the registers held before. -/
theorem accelerated_agree (r1 r1' : Sha1Reg → M128) (r2 r2' : Sha256Reg → M128) (s : Words)
    (p : ℕ → UInt8) (length : ℕ) :
    sha1TransformX86 r1 s p length = transformX86 (sha1BlockX86 r1') s p length ∧
      sha256TransformX86 r2 s p length = transformX86 (sha256BlockX86 r2') s p length ∧
      sha1TransformX86 r1 s p length =
        unpack s (pack 5 (wholeBlocks sha1TransformCc s p length).1) ∧
      sha256TransformX86 r2 s p length =
        unpack s (pack 8 (wholeBlocks sha256TransformCc s p length).1) := by
  have hsha1 := (bulk_wholeBlocks sha1TransformCc (by norm_num) s p length).1
  have hsha256 := (bulk_wholeBlocks sha256TransformCc (by norm_num) s p length).1
  refine ⟨?_,?_,?_,?_⟩
  · rw [sha1TransformX86_absorb,transformX86,x86Loop_absorb (sha1BlockX86_compress r1')]
  · rw [sha256TransformX86_absorb,transformX86,x86Loop_absorb (sha256BlockX86_compress r2')]
  · rw [sha1TransformX86_absorb,hsha1,ofBitVec_absorb sha1TransformCc_lowBits]
  · rw [sha256TransformX86_absorb,hsha256,ofBitVec_absorb sha256TransformCc_lowBits]

end blocks

section standards

/-- The first w bits of the fractional parts of the square roots of the first eight primes. -/
noncomputable def sha2H (w : ℕ) : Vector (BitVec w) 8 :=
  Vector.ofFn fun t => BitVec.ofNat w (Nat.sqrt (Nat.nth Nat.Prime t * 2 ^ (2 * w)))

def md5H : Vector (BitVec 32) 4 := #v[0x67452301,0xefcdab89,0x98badcfe,0x10325476]
def sha1H : Vector (BitVec 32) 5 := #v[0x67452301,0xefcdab89,0x98badcfe,0x10325476,0xc3d2e1f0]

/-- The bytes of the words of a digest. -/
def digestBytes {w n : ℕ} (encode : ℕ → List UInt8) (v : Vector (BitVec w) n) : List UInt8 :=
  v.toList.flatMap fun x => encode x.toNat

noncomputable def md5Digest (m : List UInt8) : List UInt8 :=
  digestBytes (littleEndian 4) (absorb md5Compress 64 md5H (pad 64 8 (littleEndian 8) m))
def sha1Digest (m : List UInt8) : List UInt8 :=
  digestBytes (bigEndian 4) (absorb sha1Compress 64 sha1H (pad 64 8 (bigEndian 8) m))
noncomputable def sha256Digest (m : List UInt8) : List UInt8 :=
  digestBytes (bigEndian 4)
    (absorb sha256Functions.compress 64 (sha2H 32) (pad 64 8 (bigEndian 8) m))
noncomputable def sha512Digest (m : List UInt8) : List UInt8 :=
  digestBytes (bigEndian 8)
    (absorb sha512Functions.compress 128 (sha2H 64) (pad 128 16 (bigEndian 16) m))

end standards

section constants

/-- p is the prime with number t, and k has the digits of its square root. -/
def SquareRootDigits (w t p k : ℕ) : Bool :=
  decide (p < 441) && isPrime p && (List.range p).countP isPrime == t &&
    decide (k * k ≤ p * 2 ^ (2 * w)) && decide (p * 2 ^ (2 * w) < (k + 1) * (k + 1))

theorem sha2H_eq {w t p k : ℕ} (ht : t < 8) (h : SquareRootDigits w t p k = true) :
    (sha2H w)[t] = BitVec.ofNat w k := by
  simp only [SquareRootDigits,Bool.and_eq_true,decide_eq_true_eq] at h
  obtain ⟨⟨⟨⟨hlt,hprime⟩,hcount⟩,hle⟩,hgt⟩ := h
  rw [sha2H,Vector.getElem_ofFn,nth_prime hlt (by rw [hprime,hcount]; rfl),
    ← Nat.eq_sqrt.mpr ⟨hle,hgt⟩]

/-- The initial words of a context with the integer parts of the roots in front. -/
def rootDigits (w : ℕ) (words : List ℕ) (t : ℕ) : Bool :=
  SquareRootDigits w t (primes.getD t 0) (Nat.sqrt (primes.getD t 0) * 2 ^ w + words.getD t 0)

theorem sha256Init_digits : ((List.range 8).all
    (rootDigits 32 (sha256Init.state.toList.map UInt64.toNat))) = true := by
  decide +kernel

theorem sha512Init_digits : ((List.range 8).all
    (rootDigits 64 (sha512Init.state.toList.map UInt64.toNat))) = true := by
  decide +kernel

/-- The words a context starts from are those of the standards. -/
theorem sha2H_getElem {w : ℕ} {s : Words} (h : ((List.range 8).all
    (rootDigits w (s.toList.map UInt64.toNat))) = true) {t : ℕ} (ht : t < 8) :
    (sha2H w)[t] = BitVec.ofNat w s[t].toNat := by
  have hdigits := List.all_eq_true.mp h t (List.mem_range.mpr ht)
  rw [sha2H_eq ht hdigits,ofNat_mul_add]
  simp [ht]

theorem lowBits_md5Init : lowBits 4 md5Init.state = md5H := by
  refine Vector.ext fun t ht => ?_
  rw [lowBits,pack,Vector.getElem_map,Vector.getElem_ofFn]
  interval_cases t <;> rfl

theorem lowBits_sha1Init : lowBits 5 sha1Init.state = sha1H := by
  refine Vector.ext fun t ht => ?_
  rw [lowBits,pack,Vector.getElem_map,Vector.getElem_ofFn]
  interval_cases t <;> rfl

theorem lowBits_sha256Init : lowBits 8 sha256Init.state = sha2H 32 := by
  refine Vector.ext fun t ht => ?_
  rw [sha2H_getElem sha256Init_digits ht,lowBits,pack,Vector.getElem_map,Vector.getElem_ofFn]
  simp only [ht,getElem?_pos,Option.getD_some]
  apply BitVec.eq_of_toNat_eq
  simp

theorem toBitVec_sha512Init : sha512Init.state.map UInt64.toBitVec = sha2H 64 := by
  refine Vector.ext fun t ht => ?_
  rw [sha2H_getElem sha512Init_digits ht,Vector.getElem_map]
  simp

end constants

section output
variable {s : Words}

theorem byteOf_mod {v i n : ℕ} (h : i < n) : byteOf (v % 256 ^ n) i = byteOf v i := by
  obtain ⟨k,rfl⟩ : ∃ k, n = i + (k + 1) := ⟨n - i - 1,by omega⟩
  have hmod : v % 256 ^ (i + (k + 1)) / 256 ^ i % 256 = v / 256 ^ i % 256 := by
    rw [pow_add,Nat.mod_mul_right_div_self,Nat.mod_mod_of_dvd _ (dvd_pow_self 256 k.succ_ne_zero)]
  apply UInt8.toNat.inj
  simpa [byteOf] using hmod

theorem bigEndian_mod (n v : ℕ) : bigEndian n (v % 256 ^ n) = bigEndian n v :=
  List.map_congr_left fun i hi => byteOf_mod (by have := List.mem_range.mp hi; omega)

theorem littleEndian_mod (n v : ℕ) : littleEndian n (v % 256 ^ n) = littleEndian n v :=
  List.map_congr_left fun _ hi => byteOf_mod (List.mem_range.mp hi)

/-- The bytes of the low halves are all that is stored of the words. -/
theorem output_lowBits {n : ℕ} {encode : ℕ → List UInt8} (h : ∀ v, encode (v % 256 ^ 4) = encode v)
    (s : Words) : output encode n s = digestBytes encode (lowBits n s) := by
  have hlist : (lowBits n s).toList =
      (List.range n).map fun k => ((s[k]?.getD 0).toUInt32).toBitVec := by
    refine List.ext_getElem (by simp) fun i hi hi' => ?_
    simp [lowBits,pack]
  rw [digestBytes,hlist,List.flatMap_map,output]
  refine List.flatMap_congr fun k _ => ?_
  rw [← h]
  simp

theorem output_words (encode : ℕ → List UInt8) (s : Words) :
    output encode 8 s = digestBytes encode (s.map UInt64.toBitVec) := by
  have hlist : (s.map UInt64.toBitVec).toList =
      (List.range 8).map fun k => (s[k]?.getD 0).toBitVec := by
    refine List.ext_getElem (by simp) fun i hi hi' => ?_
    have h8 : i < 8 := by simpa using hi'
    simp [h8]
  rw [digestBytes,hlist,List.flatMap_map,output]
  exact List.flatMap_congr fun k _ => by simp

end output

section hash
variable {r1 : Sha1Reg → M128} {r2 : Sha256Reg → M128}

/-- The processor by the two flags that are set when the program starts. -/
def detected (cpuHasSha1Accel cpuHasSha256Accel : Bool) (r1 : Sha1Reg → M128)
    (r2 : Sha256Reg → M128) : Cpu where
  sha1 := if cpuHasSha1Accel then some (sha1BlockX86 r1) else none
  sha256 := if cpuHasSha256Accel then some (sha256BlockX86 r2) else none

theorem lowBits_unpack {n : ℕ} (hn : n ≤ 8) (s : Words) (w : Vector UInt32 n) :
    lowBits n (unpack s w) = w.map UInt32.toBitVec := by
  rw [lowBits,pack_unpack hn]

theorem x86Transform_lowBits {n : ℕ} (hn : n ≤ 8) {body : X86Block n}
    {compress : Vector (BitVec 32) n → List UInt8 → Vector (BitVec 32) n}
    (h : ∀ w data, (body w data).map UInt32.toBitVec =
      compress (w.map UInt32.toBitVec) data.toList) (s : Words) (data : Vector UInt8 64) :
    lowBits n (x86Transform body s data) = compress (lowBits n s) data.toList := by
  have hbytes : bytes (fun i => data[i]?.getD 0) 64 = data.toList := by
    refine List.ext_getElem (by simp) fun i hi hi' => ?_
    have h64 : i < 64 := by simpa using hi'
    simp [bytes,h64]
  rw [x86Transform,transformX86,lowBits_unpack hn,x86Loop_absorb h,hbytes,Vector.map_map,
    absorb_block (by norm_num) (by simp)]
  exact Vector.map_id _

theorem sha1Transform_lowBits (b1 b2 : Bool) (s : Words) (data : Vector UInt8 64) :
    lowBits 5 (sha1Transform (detected b1 b2 r1 r2) s data) =
      sha1Compress (lowBits 5 s) data.toList := by
  cases b1 with
  | true => exact x86Transform_lowBits (by norm_num) (sha1BlockX86_compress r1) s data
  | false => exact sha1TransformCc_lowBits s data

theorem sha256Transform_lowBits (b1 b2 : Bool) (s : Words) (data : Vector UInt8 64) :
    lowBits 8 (sha256Transform (detected b1 b2 r1 r2) s data) =
      sha256Functions.compress (lowBits 8 s) data.toList := by
  cases b2 with
  | true => exact x86Transform_lowBits (by norm_num) (sha256BlockX86_compress r2) s data
  | false => exact sha256TransformCc_lowBits s data

theorem standardMd5_eq (m : List UInt8) : standardMd5 m = md5Digest m := by
  rw [standardMd5,output_lowBits (littleEndian_mod 4),lowBits_absorb md5Transform_lowBits,
    lowBits_md5Init]
  rfl

theorem standardSha1_eq (b1 b2 : Bool) (m : List UInt8) :
    standardSha1 (detected b1 b2 r1 r2) m = sha1Digest m := by
  rw [standardSha1,output_lowBits (bigEndian_mod 4),lowBits_absorb (sha1Transform_lowBits b1 b2),
    lowBits_sha1Init]
  rfl

theorem standardSha256_eq (b1 b2 : Bool) (m : List UInt8) :
    standardSha256 (detected b1 b2 r1 r2) m = sha256Digest m := by
  rw [standardSha256,output_lowBits (bigEndian_mod 4),
    lowBits_absorb (sha256Transform_lowBits b1 b2),lowBits_sha256Init]
  rfl

theorem standardSha512_eq (m : List UInt8) : standardSha512 m = sha512Digest m := by
  have hmap := absorb_map_blocks (f := sha512Functions.compress) (g := step sha512Transform)
    (B := 128) (Vector.map UInt64.toBitVec) (fun t xs hlen => by
      rw [step,sha512Transform_bits,toList_ofFn_getD hlen]) sha512Init.state
      (pad 128 16 (bigEndian 16) m)
  rw [standardSha512,output_words,← hmap,toBitVec_sha512Init]
  rfl

/-- The tables hash_init, hash_write, hash_final and hash_count. -/
def hashTable (cpu : Cpu) : Vector Algorithm 4 := #v[md5,sha1 cpu,sha256 cpu,sha512]

noncomputable def standardTable : Vector (List UInt8 → List UInt8) 4 :=
  #v[md5Digest,sha1Digest,sha256Digest,sha512Digest]

/-- Whatever the chunks, and whether the processor helps or not, every algorithm of the table
computes the digest of the standard. -/
theorem hashTable_standard (r1 : Sha1Reg → M128) (r2 : Sha256Reg → M128) (b1 b2 : Bool)
    {chunks : List Chunk} (hlen : (message chunks).length < 2 ^ 61) (i : Fin 4) :
    ((hashTable (detected b1 b2 r1 r2)).get i).hash chunks =
      some (standardTable.get i (message chunks)) := by
  obtain ⟨i,hi⟩ := i
  interval_cases i
  · have h := written_holds (k := 6) rfl (bulk_wholeBlocks md5Transform (by norm_num))
      (fun _ _ => le_of_lt) md5Init.state hlen
    exact congrArg some ((md5Final_spec hlen h).trans (standardMd5_eq _))
  · have h := written_holds (k := 6) rfl (bulk_sha1 (detected b1 b2 r1 r2)) (fun _ _ _ => le_refl _)
      sha1Init.state hlen
    exact (shaFinal_spec (k := 6) rfl (by norm_num) (by norm_num) (show 0 < 4 by norm_num)
      (bitcount64_eq hlen) h).trans (congrArg some (standardSha1_eq b1 b2 _))
  · have h := written_holds (k := 6) rfl (bulk_sha256 (detected b1 b2 r1 r2))
      (fun _ _ _ => le_refl _) sha256Init.state hlen
    exact (shaFinal_spec (k := 6) rfl (by norm_num) (by norm_num) (show 0 < 4 by norm_num)
      (bitcount64_eq hlen) h).trans (congrArg some (standardSha256_eq b1 b2 _))
  · have h := written_holds (k := 7) rfl (bulk_wholeBlocks sha512Transform (by norm_num))
      (fun _ _ _ => le_refl _) sha512Init.state hlen
    exact (shaFinal_spec (k := 7) rfl (by norm_num) (by norm_num) (show 0 < 8 by norm_num)
      (bitcount128_eq hlen) h).trans (congrArg some (standardSha512_eq _))

end hash

section files

/-- What comes between two writes of HashFile: the check for a cancellation and a read. -/
inductive ReadResult where
  | cancelled
  | failed
  | got (c : Chunk)

def ReadResult.size : ReadResult → ℕ
  | .got c => c.len
  | _ => 0

def hashFileLoop (a : Algorithm) : HashContext → List ReadResult → Option HashContext
  | ctx, .got c :: reads => if c.len = 0 then some ctx else hashFileLoop a (a.write ctx c) reads
  | _, _ => none

/-- The digest, where the function returns TRUE. -/
def hashFile (cpu : Cpu) (type : ℕ) (opened : Bool) (reads : List ReadResult) :
    Option (List UInt8) :=
  if h : type < 4 then
    if opened then
      let a := (hashTable cpu).get ⟨type,h⟩
      ((hashFileLoop a a.init reads).bind a.final).map fun ctx => bytes ctx.buf a.hashSize
    else none
  else none

variable {a : Algorithm} {reads : List ReadResult}

/-- Reads that return the chunks and then nothing, which is the end of the file. -/
def ReadsOf (chunks : List Chunk) (reads : List ReadResult) : Prop :=
  (∀ c ∈ chunks, c.len ≠ 0) ∧ ∃ p rest, reads = chunks.map .got ++ .got ⟨p,0⟩ :: rest

theorem ReadsOf.cons {chunks : List Chunk} {c : Chunk} (hc : c.len ≠ 0) (h : ReadsOf chunks reads) :
    ReadsOf (c :: chunks) (.got c :: reads) := by
  obtain ⟨hlen,p,rest,rfl⟩ := h
  exact ⟨List.forall_mem_cons.mpr ⟨hc,hlen⟩,p,rest,rfl⟩

theorem ReadsOf.length_le {chunks : List Chunk} (h : ReadsOf chunks reads) :
    (message chunks).length ≤ (reads.map ReadResult.size).sum := by
  obtain ⟨-,p,rest,rfl⟩ := h
  have hsum : (message chunks).length = ((chunks.map ReadResult.got).map ReadResult.size).sum := by
    rw [message,List.length_flatMap,List.map_map]
    exact congrArg List.sum (List.map_congr_left fun c _ => length_bytes c.data c.len)
  rw [List.map_append,List.sum_append,hsum]
  exact Nat.le_add_right _ _

/-- The loop is left by the first read that returns nothing. -/
theorem hashFileLoop_some {ctx ctx' : HashContext} (h : hashFileLoop a ctx reads = some ctx') :
    ∃ chunks, ReadsOf chunks reads ∧ ctx' = chunks.foldl a.write ctx := by
  induction reads generalizing ctx with
  | nil => cases h
  | cons r reads ih =>
    cases r with
    | cancelled => cases h
    | failed => cases h
    | got c =>
      rw [hashFileLoop] at h
      split at h
      case isTrue h0 =>
        obtain ⟨p,len⟩ := c
        obtain rfl : len = 0 := h0
        exact ⟨[],⟨List.forall_mem_nil _,p,reads,rfl⟩,(Option.some.inj h).symm⟩
      case isFalse h0 =>
        obtain ⟨chunks,hreads,hctx⟩ := ih h
        exact ⟨c :: chunks,hreads.cons h0,hctx⟩

theorem hashFileLoop_reads {chunks : List Chunk} (h : ReadsOf chunks reads) (ctx : HashContext) :
    hashFileLoop a ctx reads = some (chunks.foldl a.write ctx) := by
  obtain ⟨hlen,p,rest,rfl⟩ := h
  revert hlen
  induction chunks generalizing ctx with
  | nil => exact fun _ => if_pos rfl
  | cons c chunks ih =>
    intro hlen
    obtain ⟨hc,hlen⟩ := List.forall_mem_cons.mp hlen
    exact (if_neg hc).trans (ih (a.write ctx c) hlen)

/-- HashFile succeeds exactly when every read up to the end of the file does, and the digest is
that of the standard for what was read, with and without the instructions of the processor. -/
theorem hashFile_standard (b1 b2 : Bool) (r1 : Sha1Reg → M128) (r2 : Sha256Reg → M128) (type : ℕ)
    (opened : Bool) (reads : List ReadResult)
    (hlen : (reads.map ReadResult.size).sum < 2 ^ 61) (digest : List UInt8) :
    hashFile (detected b1 b2 r1 r2) type opened reads = some digest ↔
      ∃ htype : type < 4, opened = true ∧ ∃ chunks, ReadsOf chunks reads ∧
        digest = standardTable.get ⟨type,htype⟩ (message chunks) := by
  have hhash := fun chunks (h : ReadsOf chunks reads) (htype : type < 4) =>
    hashTable_standard r1 r2 b1 b2 (h.length_le.trans_lt hlen) ⟨type,htype⟩
  unfold hashFile
  constructor
  · intro h
    split at h
    case isFalse => cases h
    case isTrue htype =>
      split at h
      case isFalse => cases h
      case isTrue hopened =>
        dsimp only at h
        obtain ⟨last,hlast,hdigest⟩ := Option.map_eq_some_iff.mp h
        obtain ⟨ctx,hloop,hfinal⟩ := Option.bind_eq_some_iff.mp hlast
        obtain ⟨chunks,hreads,rfl⟩ := hashFileLoop_some hloop
        have hd := hhash chunks hreads htype
        rw [Algorithm.hash,hfinal] at hd
        exact ⟨htype,hopened,chunks,hreads,hdigest.symm.trans (Option.some.inj hd)⟩
  · rintro ⟨htype,rfl,chunks,hreads,rfl⟩
    rw [dif_pos htype,if_pos rfl]
    dsimp only
    rw [hashFileLoop_reads hreads]
    exact hhash chunks hreads htype

/-- The message "abc" from a file that is read in two pieces. -/
def abcReads : List ReadResult :=
  [.got ⟨fun _ => 0x61,1⟩,.got ⟨fun i => 0x62 + i.toUInt8,2⟩,.got ⟨fun _ => 0,0⟩]

theorem hashFile_standard_abc :
    hashFile (detected true true (fun _ => ⟨0,0,0,0⟩) fun _ => ⟨0,0,0,0⟩) 2 true abcReads =
      some (sha256Digest [0x61,0x62,0x63]) := by
  refine (hashFile_standard true true _ _ 2 true abcReads (by decide) _).mpr ?_
  exact ⟨by decide,rfl,[⟨fun _ => 0x61,1⟩,⟨fun i => 0x62 + i.toUInt8,2⟩],⟨by simp,_,_,rfl⟩,rfl⟩

end files

end SecureWipeOut.Hash
