import SecureWipeOut.Hash.Streaming
import SecureWipeOut.Lib.ShaInstructions

/-! # SHA-1 with the instructions of the processor

The accelerated transform instruction by instruction. The registers of four words of the
schedule are used in turn, and so are the two for the variable e, so that the code is twenty
groups of one shape. A group does four rounds and prepares words for the next three.
-/
namespace SecureWipeOut.Hash
open ShaInstructions DigestStandards MerkleDamgard

section code
variable {ρ : Type} [DecidableEq ρ]

/-- The loop of an accelerated transform over the blocks. -/
def codeLoop (body : List (Instr ρ)) (r : ρ → M128) (p : ℕ → UInt8) (length : ℕ) : ρ → M128 :=
  if 64 ≤ length then codeLoop body (run p body r) (shift p 64) (length - 64) else r
  termination_by length

/-- What the body does with the chaining words in the registers, the loop does with them for
every whole block. -/
theorem codeLoop_holds {n : ℕ} {body : List (Instr ρ)}
    {compress : Vector (BitVec 32) n → List UInt8 → Vector (BitVec 32) n}
    {I : Vector (BitVec 32) n → (ρ → M128) → Prop}
    (hbody : ∀ v r p, I v r → I (compress v (bytes p 64)) (run p body r))
    {v : Vector (BitVec 32) n} {r : ρ → M128} (h : I v r) (p : ℕ → UInt8) (length : ℕ) :
    I (absorb compress 64 v (bytes p length)) (codeLoop body r p length) := by
  fun_induction codeLoop body r p length generalizing v with
  | case1 r p length hlen ih =>
    rw [absorb_long (by norm_num) (by simpa using hlen),take_bytes hlen,drop_bytes hlen]
    exact ih (hbody v r p h)
  | case2 r p length hlen => rwa [absorb_short (by simpa using hlen)]

end code

section sha1

local instance sha1RegisterWords : NeZero 5 := ⟨by decide⟩

inductive Sha1Reg where
  | abcd
  | e0
  | e1
  | msg0
  | msg1
  | msg2
  | msg3
  | abcdSave
  | e0Save
  deriving DecidableEq

def sha1Mask : M128 := setEpi64x 0x0001020304050607 0x08090a0b0c0d0e0f

/-- The body of the loop, with a line or two for every four rounds. -/
def sha1Body : List (Instr Sha1Reg) :=
  [
   .mov .abcdSave .abcd,.mov .e0Save .e0,
   .loaduSi128 .msg0 0,.shuffleEpi8 .msg0 .msg0 sha1Mask,.addEpi32 .e0 .e0 .msg0,.mov .e1 .abcd,
   .sha1rnds4 .abcd .abcd .e0 0,
   .loaduSi128 .msg1 16,.shuffleEpi8 .msg1 .msg1 sha1Mask,.sha1nexte .e1 .e1 .msg1,.mov .e0 .abcd,
   .sha1rnds4 .abcd .abcd .e1 0,.sha1msg1 .msg0 .msg0 .msg1,
   .loaduSi128 .msg2 32,.shuffleEpi8 .msg2 .msg2 sha1Mask,.sha1nexte .e0 .e0 .msg2,.mov .e1 .abcd,
   .sha1rnds4 .abcd .abcd .e0 0,.sha1msg1 .msg1 .msg1 .msg2,.xorSi128 .msg0 .msg0 .msg2,
   .loaduSi128 .msg3 48,.shuffleEpi8 .msg3 .msg3 sha1Mask,.sha1nexte .e1 .e1 .msg3,.mov .e0 .abcd,
   .sha1msg2 .msg0 .msg0 .msg3,.sha1rnds4 .abcd .abcd .e1 0,.sha1msg1 .msg2 .msg2 .msg3,
   .xorSi128 .msg1 .msg1 .msg3,
   .sha1nexte .e0 .e0 .msg0,.mov .e1 .abcd,.sha1msg2 .msg1 .msg1 .msg0,.sha1rnds4 .abcd .abcd .e0 0,
   .sha1msg1 .msg3 .msg3 .msg0,.xorSi128 .msg2 .msg2 .msg0,
   .sha1nexte .e1 .e1 .msg1,.mov .e0 .abcd,.sha1msg2 .msg2 .msg2 .msg1,.sha1rnds4 .abcd .abcd .e1 1,
   .sha1msg1 .msg0 .msg0 .msg1,.xorSi128 .msg3 .msg3 .msg1,
   .sha1nexte .e0 .e0 .msg2,.mov .e1 .abcd,.sha1msg2 .msg3 .msg3 .msg2,.sha1rnds4 .abcd .abcd .e0 1,
   .sha1msg1 .msg1 .msg1 .msg2,.xorSi128 .msg0 .msg0 .msg2,
   .sha1nexte .e1 .e1 .msg3,.mov .e0 .abcd,.sha1msg2 .msg0 .msg0 .msg3,.sha1rnds4 .abcd .abcd .e1 1,
   .sha1msg1 .msg2 .msg2 .msg3,.xorSi128 .msg1 .msg1 .msg3,
   .sha1nexte .e0 .e0 .msg0,.mov .e1 .abcd,.sha1msg2 .msg1 .msg1 .msg0,.sha1rnds4 .abcd .abcd .e0 1,
   .sha1msg1 .msg3 .msg3 .msg0,.xorSi128 .msg2 .msg2 .msg0,
   .sha1nexte .e1 .e1 .msg1,.mov .e0 .abcd,.sha1msg2 .msg2 .msg2 .msg1,.sha1rnds4 .abcd .abcd .e1 1,
   .sha1msg1 .msg0 .msg0 .msg1,.xorSi128 .msg3 .msg3 .msg1,
   .sha1nexte .e0 .e0 .msg2,.mov .e1 .abcd,.sha1msg2 .msg3 .msg3 .msg2,.sha1rnds4 .abcd .abcd .e0 2,
   .sha1msg1 .msg1 .msg1 .msg2,.xorSi128 .msg0 .msg0 .msg2,
   .sha1nexte .e1 .e1 .msg3,.mov .e0 .abcd,.sha1msg2 .msg0 .msg0 .msg3,.sha1rnds4 .abcd .abcd .e1 2,
   .sha1msg1 .msg2 .msg2 .msg3,.xorSi128 .msg1 .msg1 .msg3,
   .sha1nexte .e0 .e0 .msg0,.mov .e1 .abcd,.sha1msg2 .msg1 .msg1 .msg0,.sha1rnds4 .abcd .abcd .e0 2,
   .sha1msg1 .msg3 .msg3 .msg0,.xorSi128 .msg2 .msg2 .msg0,
   .sha1nexte .e1 .e1 .msg1,.mov .e0 .abcd,.sha1msg2 .msg2 .msg2 .msg1,.sha1rnds4 .abcd .abcd .e1 2,
   .sha1msg1 .msg0 .msg0 .msg1,.xorSi128 .msg3 .msg3 .msg1,
   .sha1nexte .e0 .e0 .msg2,.mov .e1 .abcd,.sha1msg2 .msg3 .msg3 .msg2,.sha1rnds4 .abcd .abcd .e0 2,
   .sha1msg1 .msg1 .msg1 .msg2,.xorSi128 .msg0 .msg0 .msg2,
   .sha1nexte .e1 .e1 .msg3,.mov .e0 .abcd,.sha1msg2 .msg0 .msg0 .msg3,.sha1rnds4 .abcd .abcd .e1 3,
   .sha1msg1 .msg2 .msg2 .msg3,.xorSi128 .msg1 .msg1 .msg3,
   .sha1nexte .e0 .e0 .msg0,.mov .e1 .abcd,.sha1msg2 .msg1 .msg1 .msg0,.sha1rnds4 .abcd .abcd .e0 3,
   .sha1msg1 .msg3 .msg3 .msg0,.xorSi128 .msg2 .msg2 .msg0,
   .sha1nexte .e1 .e1 .msg1,.mov .e0 .abcd,.sha1msg2 .msg2 .msg2 .msg1,.sha1rnds4 .abcd .abcd .e1 3,
   .xorSi128 .msg3 .msg3 .msg1,
   .sha1nexte .e0 .e0 .msg2,.mov .e1 .abcd,.sha1msg2 .msg3 .msg3 .msg2,.sha1rnds4 .abcd .abcd .e0 3,
   .sha1nexte .e1 .e1 .msg3,.mov .e0 .abcd,.sha1rnds4 .abcd .abcd .e1 3,
   .sha1nexte .e0 .e0 .e0Save,.addEpi32 .abcd .abcd .abcdSave]

/-- The registers before the loop. What the others hold does not matter. -/
def sha1Load (w : Vector UInt32 5) (r : Sha1Reg → M128) : Sha1Reg → M128 :=
  let r := Function.update r .abcd
    ⟨(w.get 0).toBitVec,(w.get 1).toBitVec,(w.get 2).toBitVec,(w.get 3).toBitVec⟩
  let r := Function.update r .e0 ⟨0,0,0,(w.get 4).toBitVec⟩
  Function.update r .abcd (shuffleEpi32 (r .abcd) 0x1B)

def sha1Store (r : Sha1Reg → M128) : Vector UInt32 5 :=
  let abcd := shuffleEpi32 (r .abcd) 0x1B
  #v[⟨abcd.x0⟩,⟨abcd.x1⟩,⟨abcd.x2⟩,⟨abcd.x3⟩,⟨(r .e0).x3⟩]

def sha1TransformX86 (r : Sha1Reg → M128) (s : Words) (p : ℕ → UInt8) (length : ℕ) : Words :=
  unpack s (sha1Store (codeLoop sha1Body (sha1Load (pack 5 s) r) p length))

/-- One pass of the loop on the packed words. -/
def sha1BlockX86 (r : Sha1Reg → M128) : X86Block 5 := fun w data =>
  sha1Store (run (fun i => data[i]?.getD 0) sha1Body (sha1Load w r))

/-- The register with the words of group k, and the one with the variable e. -/
def sha1Msg (k : ℕ) : Sha1Reg :=
  match k % 4 with
  | 0 => .msg0
  | 1 => .msg1
  | 2 => .msg2
  | _ => .msg3

def sha1E (k : ℕ) : Sha1Reg := if k % 2 = 0 then .e0 else .e1

/-- The rounds 4k to 4k + 3. -/
def sha1Group (k : ℕ) : List (Instr Sha1Reg) :=
  optional (k < 4) [.loaduSi128 (sha1Msg k) (16 * k),.shuffleEpi8 (sha1Msg k) (sha1Msg k) sha1Mask] ++
  [if k = 0 then .addEpi32 (sha1E k) (sha1E k) (sha1Msg k)
    else .sha1nexte (sha1E k) (sha1E k) (sha1Msg k),.mov (sha1E (k + 1)) .abcd] ++
  optional (3 ≤ k ∧ k ≤ 18) [.sha1msg2 (sha1Msg (k + 1)) (sha1Msg (k + 1)) (sha1Msg k)] ++
  [.sha1rnds4 .abcd .abcd (sha1E k) (k / 5)] ++
  optional (1 ≤ k ∧ k ≤ 16) [.sha1msg1 (sha1Msg (k + 3)) (sha1Msg (k + 3)) (sha1Msg k)] ++
  optional (2 ≤ k ∧ k ≤ 17) [.xorSi128 (sha1Msg (k + 2)) (sha1Msg (k + 2)) (sha1Msg k)]

theorem sha1Body_eq : sha1Body = [.mov .abcdSave .abcd,.mov .e0Save .e0] ++
    (List.range 20).flatMap sha1Group ++
    [.sha1nexte .e0 .e0 .e0Save,.addEpi32 .abcd .abcd .abcdSave] := by
  decide +kernel

/-- The words of a group: loaded in the first four, prepared before in the others. -/
def sha1Cur (p : ℕ → UInt8) (r : Sha1Reg → M128) (k : ℕ) : M128 :=
  if k < 4 then shuffleEpi8 (ofBytes fun i => (p (16 * k + i)).toBitVec) sha1Mask
  else r (sha1Msg k)

/-- What a group leaves in the registers that the later ones read. -/
theorem run_sha1Group (p : ℕ → UInt8) (r : Sha1Reg → M128) {k : ℕ} (hk : k < 20) :
    run p (sha1Group k) r .abcd = sha1rnds4 (r .abcd) (if k = 0 then
      addEpi32 (r (sha1E k)) (sha1Cur p r k) else sha1nexte (r (sha1E k)) (sha1Cur p r k)) (k / 5) ∧
    run p (sha1Group k) r (sha1E (k + 1)) = r .abcd ∧
    run p (sha1Group k) r (sha1Msg k) = sha1Cur p r k ∧
    run p (sha1Group k) r (sha1Msg (k + 1)) = (if 3 ≤ k ∧ k ≤ 18 then
      sha1msg2 (r (sha1Msg (k + 1))) (sha1Cur p r k) else r (sha1Msg (k + 1))) ∧
    run p (sha1Group k) r (sha1Msg (k + 2)) = (if 2 ≤ k ∧ k ≤ 17 then
      xorSi128 (r (sha1Msg (k + 2))) (sha1Cur p r k) else r (sha1Msg (k + 2))) ∧
    run p (sha1Group k) r (sha1Msg (k + 3)) = (if 1 ≤ k ∧ k ≤ 16 then
      sha1msg1 (r (sha1Msg (k + 3))) (sha1Cur p r k) else r (sha1Msg (k + 3))) ∧
    run p (sha1Group k) r .abcdSave = r .abcdSave ∧ run p (sha1Group k) r .e0Save = r .e0Save := by
  interval_cases k <;> exact ⟨rfl,rfl,rfl,rfl,rfl,rfl,rfl,rfl⟩

variable {p : ℕ → UInt8} {m : ℕ → BitVec 32} {h : Vector (BitVec 32) 5} {k : ℕ}
  {r : Sha1Reg → M128}

theorem sha1Load_words {data : List UInt8} (hdata : ∀ i < 64, data[i]? = some (p i)) (hk : k < 4) :
    shuffleEpi8 (ofBytes fun i => (p (16 * k + i)).toBitVec) sha1Mask =
      sha1Words (word 32 bigEndianValue data) k := by
  have hmask : ∀ i < 16, (sha1Mask.byte i).msb = false ∧ (sha1Mask.byte i).toNat % 16 = 15 - i := by
    decide
  have hword : ∀ j < 4, sha1W (word 32 bigEndianValue data) (4 * k + j) =
      (p (16 * k + 4 * j)).toBitVec ++ (p (16 * k + 4 * j + 1)).toBitVec ++
        (p (16 * k + 4 * j + 2)).toBitVec ++ (p (16 * k + 4 * j + 3)).toBitVec := by
    intro j hj
    rw [sha1W,if_pos (by omega),word_eq_append (p := p) fun i hi => hdata _ (by omega),Nat.mul_add,
      ← Nat.mul_assoc]
  rw [shuffleEpi8_ofBytes _ hmask]
  exact M128.ext (hword 3 (by norm_num)).symm (hword 2 (by norm_num)).symm
    (hword 1 (by norm_num)).symm (hword 0 (by norm_num)).symm

/-- The variables before group k. -/
def sha1Before (m : ℕ → BitVec 32) (h : Vector (BitVec 32) 5) (k : ℕ) : Vector (BitVec 32) 5 :=
  (List.range k).foldl (fourRounds (DigestStandards.sha1Round m)) h

theorem sha1Before_succ : sha1Before m h (k + 1) =
    fourRounds (DigestStandards.sha1Round m) (sha1Before m h k) k := by
  rw [sha1Before,List.range_succ,List.foldl_concat]
  rfl

/-- The registers before group k: the variables, the words of the group, and what is ready of
the words of the next two. -/
structure Sha1At (m : ℕ → BitVec 32) (h : Vector (BitVec 32) 5) (k : ℕ) (r : Sha1Reg → M128) :
    Prop where
  abcd : r .abcd = abcdOf (sha1Before m h k)
  first : k = 0 → r (sha1E k) = ⟨0,0,0,h.get 4⟩
  rotated : k ≠ 0 → (r (sha1E k)).x3.rotateLeft 30 = (sha1Before m h k).get 4
  words : 4 ≤ k → k ≤ 19 → r (sha1Msg k) = sha1Words m k
  last : ∀ n, k = n + 1 → r (sha1Msg (k + 3)) = sha1Words m n
  second : ∀ n, k = n + 2 → k ≤ 17 →
    r (sha1Msg (k + 2)) = sha1msg1 (sha1Words m n) (sha1Words m (n + 1))
  third : ∀ n, k = n + 3 → k ≤ 18 → r (sha1Msg (k + 1)) =
    xorSi128 (sha1msg1 (sha1Words m n) (sha1Words m (n + 1))) (sha1Words m (n + 2))
  abcdSave : r .abcdSave = abcdOf h
  e0Save : r .e0Save = ⟨0,0,0,h.get 4⟩

theorem sha1Msg_add_four (k : ℕ) : sha1Msg (k + 4) = sha1Msg k := by
  rw [sha1Msg,sha1Msg,Nat.add_mod_right]

/-- The operand that carries the variable e and the words of the group. -/
theorem Sha1At.operand (hr : Sha1At m h k r) (b : M128) :
    (if k = 0 then addEpi32 (r (sha1E k)) b else sha1nexte (r (sha1E k)) b) =
      withE ((sha1Before m h k).get 4) b := by
  by_cases hk : k = 0
  · rw [if_pos hk,hr.first hk,addEpi32_top]
    subst hk
    rfl
  · rw [if_neg hk,sha1nexte_eq,hr.rotated hk]

theorem sha1Group_step (hk : k < 20) (hcur : sha1Cur p r k = sha1Words m k) (hr : Sha1At m h k r) :
    Sha1At m h (k + 1) (run p (sha1Group k) r) := by
  obtain ⟨habcd,he,hwords,hnext,hsecond,hthird,hsave,hesave⟩ := run_sha1Group p r hk
  rw [hcur] at habcd hwords hnext hsecond hthird
  exact {
    abcd := by
      rw [habcd,hr.operand,hr.abcd,sha1rnds4_rounds,sha1Before_succ]
    first := fun h0 => absurd h0 k.succ_ne_zero
    rotated := fun _ => by
      rw [he,hr.abcd,sha1Before_succ,fourRounds_e]
      rfl
    words := fun h4 h19 => by
      obtain ⟨n,rfl⟩ : ∃ n, k = n + 3 := ⟨k - 3,by omega⟩
      rw [hnext,if_pos (by omega),hr.third n rfl (by omega)]
      exact sha1Words_next n
    last := fun n hn => by
      obtain rfl : k = n := by omega
      rw [show k + 1 + 3 = k + 4 by ring,sha1Msg_add_four,hwords]
    second := fun n hn hle => by
      obtain rfl : k = n + 1 := by omega
      rw [show n + 1 + 1 + 2 = n + 1 + 3 by ring,hthird,if_pos (by omega),hr.last n rfl]
    third := fun n hn hle => by
      obtain rfl : k = n + 2 := by omega
      rw [show n + 2 + 1 + 1 = n + 2 + 2 by ring,hsecond,if_pos (by omega),hr.second n rfl (by omega)]
    abcdSave := hsave.trans hr.abcdSave
    e0Save := hesave.trans hr.e0Save }

/-- The registers between two passes of the loop. -/
def Sha1Holds (v : Vector (BitVec 32) 5) (r : Sha1Reg → M128) : Prop :=
  r .abcd = abcdOf v ∧ r .e0 = ⟨0,0,0,v.get 4⟩

theorem sha1At_start (hr : Sha1Holds h r) :
    Sha1At m h 0 (run p [.mov .abcdSave .abcd,.mov .e0Save .e0] r) where
  abcd := hr.1
  first _ := hr.2
  rotated h0 := absurd rfl h0
  words h4 := absurd h4 (by norm_num)
  last n hn := absurd hn n.succ_ne_zero.symm
  second n hn := absurd hn (by omega)
  third n hn := absurd hn (by omega)
  abcdSave := hr.1
  e0Save := hr.2

theorem sha1Combine (hr : Sha1At m h 20 r) :
    Sha1Holds (h.zipWith (· + ·) (sha1Before m h 20))
      (run p [.sha1nexte .e0 .e0 .e0Save,.addEpi32 .abcd .abcd .abcdSave] r) := by
  have hcomm : ∀ a b : BitVec 32, a + b = b + a := BitVec.add_comm
  have hget : ∀ i : Fin 5, (h.zipWith (· + ·) (sha1Before m h 20)).get i =
      h.get i + (sha1Before m h 20).get i := fun i => Vector.getElem_zipWith i.isLt
  have hrotated : (r .e0).x3.rotateLeft 30 = (sha1Before m h 20).get 4 := hr.rotated (by norm_num)
  have habcd : addEpi32 (r .abcd) (r .abcdSave) =
      abcdOf (h.zipWith (· + ·) (sha1Before m h 20)) := by
    rw [hr.abcd,hr.abcdSave]
    simp only [abcdOf,hget]
    exact M128.ext (hcomm _ _) (hcomm _ _) (hcomm _ _) (hcomm _ _)
  have he : sha1nexte (r .e0) (r .e0Save) =
      ⟨0,0,0,(h.zipWith (· + ·) (sha1Before m h 20)).get 4⟩ := by
    rw [sha1nexte_eq,hrotated,hr.e0Save,hget]
    rfl
  exact ⟨habcd,he⟩

theorem sha1Body_step {data : List UInt8} (hdata : ∀ i < 64, data[i]? = some (p i))
    (hr : Sha1Holds h r) : Sha1Holds (sha1Compress h data) (run p sha1Body r) := by
  have hgroup : ∀ k < 20, ∀ r, Sha1At (word 32 bigEndianValue data) h k r →
      Sha1At (word 32 bigEndianValue data) h (k + 1) (run p (sha1Group k) r) := by
    intro k hk r hr
    refine sha1Group_step hk ?_ hr
    by_cases h4 : k < 4
    · exact (if_pos h4).trans (sha1Load_words hdata h4)
    · exact (if_neg h4).trans (hr.words (by omega) (by omega))
  have hall : sha1Before (word 32 bigEndianValue data) h 20 =
      (List.range 80).foldl (DigestStandards.sha1Round (word 32 bigEndianValue data)) h :=
    (foldl_fourRounds _ h 20).symm
  have hcombine := sha1Combine (p := p) (run_groups hgroup (sha1At_start (p := p) hr))
  rw [hall] at hcombine
  rw [sha1Body_eq,run_append,run_append]
  exact hcombine

theorem sha1Load_holds (w : Vector UInt32 5) (r : Sha1Reg → M128) :
    Sha1Holds (w.map UInt32.toBitVec) (sha1Load w r) := by
  have hget : ∀ i : Fin 5, (w.map UInt32.toBitVec).get i = (w.get i).toBitVec :=
    fun i => Vector.getElem_map _ i.isLt
  refine ⟨?_,?_⟩
  · simp only [abcdOf,hget]
    rfl
  · rw [hget]
    rfl

theorem sha1Store_holds {v : Vector (BitVec 32) 5} (hr : Sha1Holds v r) :
    (sha1Store r).map UInt32.toBitVec = v := by
  obtain ⟨habcd,he⟩ := hr
  refine Vector.ext fun i hi => ?_
  rw [sha1Store,habcd,he,Vector.getElem_map]
  interval_cases i <;> rfl

/-- One pass of the loop is the compression function. -/
theorem sha1BlockX86_compress (r : Sha1Reg → M128) (w : Vector UInt32 5) (data : Vector UInt8 64) :
    (sha1BlockX86 r w data).map UInt32.toBitVec =
      sha1Compress (w.map UInt32.toBitVec) data.toList := by
  refine sha1Store_holds (sha1Body_step (fun i hi => ?_) (sha1Load_holds w r))
  simp [hi]

/-- The loop is the compression function on every whole block. -/
theorem sha1TransformX86_absorb (r : Sha1Reg → M128) (s : Words) (p : ℕ → UInt8) (length : ℕ) :
    sha1TransformX86 r s p length =
      unpack s ((absorb sha1Compress 64 ((pack 5 s).map UInt32.toBitVec)
        (bytes p length)).map UInt32.ofBitVec) := by
  have hstep : ∀ v r p, Sha1Holds v r →
      Sha1Holds (sha1Compress v (bytes p 64)) (run p sha1Body r) := by
    intro v r p hr
    refine sha1Body_step (fun i hi => ?_) hr
    simp [bytes,hi]
  have hstore := sha1Store_holds (codeLoop_holds hstep (sha1Load_holds (pack 5 s) r) p length)
  rw [← hstore,sha1TransformX86,Vector.map_map]
  exact congrArg (unpack s) (Vector.map_id _).symm

end sha1

end SecureWipeOut.Hash
