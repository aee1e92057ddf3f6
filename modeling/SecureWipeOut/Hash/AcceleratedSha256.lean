import SecureWipeOut.Hash.AcceleratedSha1
import SecureWipeOut.Hash.TransformStandards

/-! # SHA-256 with the instructions of the processor

The registers of the words are used in turn as those of SHA-1 are. The two halves of the
variables change places in the middle of a group, after its first two rounds.
-/
namespace SecureWipeOut.Hash
open ShaInstructions DigestStandards MerkleDamgard

local instance sha256RegisterWords : NeZero 8 := ⟨by decide⟩

inductive Sha256Reg where
  | state0
  | state1
  | msg
  | tmp
  | msg0
  | msg1
  | msg2
  | msg3
  | abefSave
  | cdghSave
  deriving DecidableEq

def sha256Mask : M128 := setEpi64x 0x0c0d0e0f08090a0b 0x0405060700010203

/-- The body of the loop, with the constants of every four rounds in two halves. -/
def sha256Body : List (Instr Sha256Reg) :=
  [
   .mov .abefSave .state0,.mov .cdghSave .state1,
   .loaduSi128 .msg 0,.shuffleEpi8 .msg0 .msg sha256Mask,
   .addConst .msg .msg0 (setEpi64x 0xE9B5DBA5B5C0FBCF 0x71374491428A2F98),
   .sha256rnds2 .state1 .state1 .state0 .msg,.shuffleEpi32 .msg .msg 0x0E,
   .sha256rnds2 .state0 .state0 .state1 .msg,
   .loaduSi128 .msg1 16,.shuffleEpi8 .msg1 .msg1 sha256Mask,
   .addConst .msg .msg1 (setEpi64x 0xAB1C5ED5923F82A4 0x59F111F13956C25B),
   .sha256rnds2 .state1 .state1 .state0 .msg,.shuffleEpi32 .msg .msg 0x0E,
   .sha256rnds2 .state0 .state0 .state1 .msg,.sha256msg1 .msg0 .msg0 .msg1,
   .loaduSi128 .msg2 32,.shuffleEpi8 .msg2 .msg2 sha256Mask,
   .addConst .msg .msg2 (setEpi64x 0x550C7DC3243185BE 0x12835B01D807AA98),
   .sha256rnds2 .state1 .state1 .state0 .msg,.shuffleEpi32 .msg .msg 0x0E,
   .sha256rnds2 .state0 .state0 .state1 .msg,.sha256msg1 .msg1 .msg1 .msg2,
   .loaduSi128 .msg3 48,.shuffleEpi8 .msg3 .msg3 sha256Mask,
   .addConst .msg .msg3 (setEpi64x 0xC19BF1749BDC06A7 0x80DEB1FE72BE5D74),
   .sha256rnds2 .state1 .state1 .state0 .msg,.alignrEpi8 .tmp .msg3 .msg2 4,
   .addEpi32 .msg0 .msg0 .tmp,.sha256msg2 .msg0 .msg0 .msg3,.shuffleEpi32 .msg .msg 0x0E,
   .sha256rnds2 .state0 .state0 .state1 .msg,.sha256msg1 .msg2 .msg2 .msg3,
   .addConst .msg .msg0 (setEpi64x 0x240CA1CC0FC19DC6 0xEFBE4786E49B69C1),
   .sha256rnds2 .state1 .state1 .state0 .msg,.alignrEpi8 .tmp .msg0 .msg3 4,
   .addEpi32 .msg1 .msg1 .tmp,.sha256msg2 .msg1 .msg1 .msg0,.shuffleEpi32 .msg .msg 0x0E,
   .sha256rnds2 .state0 .state0 .state1 .msg,.sha256msg1 .msg3 .msg3 .msg0,
   .addConst .msg .msg1 (setEpi64x 0x76F988DA5CB0A9DC 0x4A7484AA2DE92C6F),
   .sha256rnds2 .state1 .state1 .state0 .msg,.alignrEpi8 .tmp .msg1 .msg0 4,
   .addEpi32 .msg2 .msg2 .tmp,.sha256msg2 .msg2 .msg2 .msg1,.shuffleEpi32 .msg .msg 0x0E,
   .sha256rnds2 .state0 .state0 .state1 .msg,.sha256msg1 .msg0 .msg0 .msg1,
   .addConst .msg .msg2 (setEpi64x 0xBF597FC7B00327C8 0xA831C66D983E5152),
   .sha256rnds2 .state1 .state1 .state0 .msg,.alignrEpi8 .tmp .msg2 .msg1 4,
   .addEpi32 .msg3 .msg3 .tmp,.sha256msg2 .msg3 .msg3 .msg2,.shuffleEpi32 .msg .msg 0x0E,
   .sha256rnds2 .state0 .state0 .state1 .msg,.sha256msg1 .msg1 .msg1 .msg2,
   .addConst .msg .msg3 (setEpi64x 0x1429296706CA6351 0xD5A79147C6E00BF3),
   .sha256rnds2 .state1 .state1 .state0 .msg,.alignrEpi8 .tmp .msg3 .msg2 4,
   .addEpi32 .msg0 .msg0 .tmp,.sha256msg2 .msg0 .msg0 .msg3,.shuffleEpi32 .msg .msg 0x0E,
   .sha256rnds2 .state0 .state0 .state1 .msg,.sha256msg1 .msg2 .msg2 .msg3,
   .addConst .msg .msg0 (setEpi64x 0x53380D134D2C6DFC 0x2E1B213827B70A85),
   .sha256rnds2 .state1 .state1 .state0 .msg,.alignrEpi8 .tmp .msg0 .msg3 4,
   .addEpi32 .msg1 .msg1 .tmp,.sha256msg2 .msg1 .msg1 .msg0,.shuffleEpi32 .msg .msg 0x0E,
   .sha256rnds2 .state0 .state0 .state1 .msg,.sha256msg1 .msg3 .msg3 .msg0,
   .addConst .msg .msg1 (setEpi64x 0x92722C8581C2C92E 0x766A0ABB650A7354),
   .sha256rnds2 .state1 .state1 .state0 .msg,.alignrEpi8 .tmp .msg1 .msg0 4,
   .addEpi32 .msg2 .msg2 .tmp,.sha256msg2 .msg2 .msg2 .msg1,.shuffleEpi32 .msg .msg 0x0E,
   .sha256rnds2 .state0 .state0 .state1 .msg,.sha256msg1 .msg0 .msg0 .msg1,
   .addConst .msg .msg2 (setEpi64x 0xC76C51A3C24B8B70 0xA81A664BA2BFE8A1),
   .sha256rnds2 .state1 .state1 .state0 .msg,.alignrEpi8 .tmp .msg2 .msg1 4,
   .addEpi32 .msg3 .msg3 .tmp,.sha256msg2 .msg3 .msg3 .msg2,.shuffleEpi32 .msg .msg 0x0E,
   .sha256rnds2 .state0 .state0 .state1 .msg,.sha256msg1 .msg1 .msg1 .msg2,
   .addConst .msg .msg3 (setEpi64x 0x106AA070F40E3585 0xD6990624D192E819),
   .sha256rnds2 .state1 .state1 .state0 .msg,.alignrEpi8 .tmp .msg3 .msg2 4,
   .addEpi32 .msg0 .msg0 .tmp,.sha256msg2 .msg0 .msg0 .msg3,.shuffleEpi32 .msg .msg 0x0E,
   .sha256rnds2 .state0 .state0 .state1 .msg,.sha256msg1 .msg2 .msg2 .msg3,
   .addConst .msg .msg0 (setEpi64x 0x34B0BCB52748774C 0x1E376C0819A4C116),
   .sha256rnds2 .state1 .state1 .state0 .msg,.alignrEpi8 .tmp .msg0 .msg3 4,
   .addEpi32 .msg1 .msg1 .tmp,.sha256msg2 .msg1 .msg1 .msg0,.shuffleEpi32 .msg .msg 0x0E,
   .sha256rnds2 .state0 .state0 .state1 .msg,.sha256msg1 .msg3 .msg3 .msg0,
   .addConst .msg .msg1 (setEpi64x 0x682E6FF35B9CCA4F 0x4ED8AA4A391C0CB3),
   .sha256rnds2 .state1 .state1 .state0 .msg,.alignrEpi8 .tmp .msg1 .msg0 4,
   .addEpi32 .msg2 .msg2 .tmp,.sha256msg2 .msg2 .msg2 .msg1,.shuffleEpi32 .msg .msg 0x0E,
   .sha256rnds2 .state0 .state0 .state1 .msg,
   .addConst .msg .msg2 (setEpi64x 0x8CC7020884C87814 0x78A5636F748F82EE),
   .sha256rnds2 .state1 .state1 .state0 .msg,.alignrEpi8 .tmp .msg2 .msg1 4,
   .addEpi32 .msg3 .msg3 .tmp,.sha256msg2 .msg3 .msg3 .msg2,.shuffleEpi32 .msg .msg 0x0E,
   .sha256rnds2 .state0 .state0 .state1 .msg,
   .addConst .msg .msg3 (setEpi64x 0xC67178F2BEF9A3F7 0xA4506CEB90BEFFFA),
   .sha256rnds2 .state1 .state1 .state0 .msg,.shuffleEpi32 .msg .msg 0x0E,
   .sha256rnds2 .state0 .state0 .state1 .msg,
   .addEpi32 .state0 .state0 .abefSave,.addEpi32 .state1 .state1 .cdghSave]

/-- The registers before the loop. What the others hold does not matter. -/
def sha256Load (w : Vector UInt32 8) (r : Sha256Reg → M128) : Sha256Reg → M128 :=
  let r := Function.update r .tmp
    ⟨(w.get 0).toBitVec,(w.get 1).toBitVec,(w.get 2).toBitVec,(w.get 3).toBitVec⟩
  let r := Function.update r .state1
    ⟨(w.get 4).toBitVec,(w.get 5).toBitVec,(w.get 6).toBitVec,(w.get 7).toBitVec⟩
  run (fun _ => 0)
    [.shuffleEpi32 .tmp .tmp 0xB1,.shuffleEpi32 .state1 .state1 0x1B,
     .alignrEpi8 .state0 .tmp .state1 8,.blendEpi16 .state1 .state1 .tmp 0xF0] r

/-- The two halves of the variables sorted out behind the loop. -/
def sha256Unload (r : Sha256Reg → M128) : Sha256Reg → M128 :=
  run (fun _ => 0)
    [.shuffleEpi32 .tmp .state0 0x1B,.shuffleEpi32 .state1 .state1 0xB1,
     .blendEpi16 .state0 .tmp .state1 0xF0,.alignrEpi8 .state1 .state1 .tmp 8] r

/-- The array of words that two registers are stored to. -/
def storeuSi128 (a b : M128) : Vector UInt32 8 :=
  #v[⟨a.x0⟩,⟨a.x1⟩,⟨a.x2⟩,⟨a.x3⟩,⟨b.x0⟩,⟨b.x1⟩,⟨b.x2⟩,⟨b.x3⟩]

def sha256Store (r : Sha256Reg → M128) : Vector UInt32 8 :=
  storeuSi128 (sha256Unload r .state0) (sha256Unload r .state1)

def sha256TransformX86 (r : Sha256Reg → M128) (s : Words) (p : ℕ → UInt8) (length : ℕ) : Words :=
  unpack s (sha256Store (codeLoop sha256Body (sha256Load (pack 8 s) r) p length))

/-- One pass of the loop on the packed words. -/
def sha256BlockX86 (r : Sha256Reg → M128) : X86Block 8 := fun w data =>
  sha256Store (run (fun i => data[i]?.getD 0) sha256Body (sha256Load w r))

/-- The register with the words of group k. -/
def sha256Msg (k : ℕ) : Sha256Reg :=
  match k % 4 with
  | 0 => .msg0
  | 1 => .msg1
  | 2 => .msg2
  | _ => .msg3

/-- The constants of group k. -/
def k256Quad (k : ℕ) : M128 :=
  ⟨(k256[4 * k]?.getD 0).toBitVec,(k256[4 * k + 1]?.getD 0).toBitVec,
    (k256[4 * k + 2]?.getD 0).toBitVec,(k256[4 * k + 3]?.getD 0).toBitVec⟩

/-- The rounds 4k to 4k + 3. -/
def sha256Group (k : ℕ) : List (Instr Sha256Reg) :=
  optional (k < 4) [.loaduSi128 (if k = 0 then .msg else sha256Msg k) (16 * k),
    .shuffleEpi8 (sha256Msg k) (if k = 0 then .msg else sha256Msg k) sha256Mask] ++
  [.addConst .msg (sha256Msg k) (k256Quad k),.sha256rnds2 .state1 .state1 .state0 .msg] ++
  optional (3 ≤ k ∧ k ≤ 14) [.alignrEpi8 .tmp (sha256Msg k) (sha256Msg (k + 3)) 4,
    .addEpi32 (sha256Msg (k + 1)) (sha256Msg (k + 1)) .tmp,
    .sha256msg2 (sha256Msg (k + 1)) (sha256Msg (k + 1)) (sha256Msg k)] ++
  [.shuffleEpi32 .msg .msg 0x0E,.sha256rnds2 .state0 .state0 .state1 .msg] ++
  optional (1 ≤ k ∧ k ≤ 12) [.sha256msg1 (sha256Msg (k + 3)) (sha256Msg (k + 3)) (sha256Msg k)]

theorem sha256Body_eq : sha256Body = [.mov .abefSave .state0,.mov .cdghSave .state1] ++
    (List.range 16).flatMap sha256Group ++
    [.addEpi32 .state0 .state0 .abefSave,.addEpi32 .state1 .state1 .cdghSave] := by
  decide +kernel

/-- The words of a group: loaded in the first four, prepared before in the others. -/
def sha256Cur (p : ℕ → UInt8) (r : Sha256Reg → M128) (k : ℕ) : M128 :=
  if k < 4 then shuffleEpi8 (ofBytes fun i => (p (16 * k + i)).toBitVec) sha256Mask
  else r (sha256Msg k)

/-- What a group leaves in the registers that the later ones read. -/
theorem run_sha256Group (p : ℕ → UInt8) (r : Sha256Reg → M128) {k : ℕ} (hk : k < 16) :
    run p (sha256Group k) r .state1 = sha256rnds2 (r .state1) (r .state0)
      (addEpi32 (sha256Cur p r k) (k256Quad k)) ∧
    run p (sha256Group k) r .state0 = sha256rnds2 (r .state0) (run p (sha256Group k) r .state1)
      (shuffleEpi32 (addEpi32 (sha256Cur p r k) (k256Quad k)) 0x0E) ∧
    run p (sha256Group k) r (sha256Msg k) = sha256Cur p r k ∧
    run p (sha256Group k) r (sha256Msg (k + 1)) = (if 3 ≤ k ∧ k ≤ 14 then
      sha256msg2 (addEpi32 (r (sha256Msg (k + 1)))
        (alignrEpi8 (sha256Cur p r k) (r (sha256Msg (k + 3))) 4)) (sha256Cur p r k)
      else r (sha256Msg (k + 1))) ∧
    run p (sha256Group k) r (sha256Msg (k + 2)) = r (sha256Msg (k + 2)) ∧
    run p (sha256Group k) r (sha256Msg (k + 3)) = (if 1 ≤ k ∧ k ≤ 12 then
      sha256msg1 (r (sha256Msg (k + 3))) (sha256Cur p r k) else r (sha256Msg (k + 3))) ∧
    run p (sha256Group k) r .abefSave = r .abefSave ∧
    run p (sha256Group k) r .cdghSave = r .cdghSave := by
  interval_cases k <;> exact ⟨rfl,rfl,rfl,rfl,rfl,rfl,rfl,rfl⟩

variable {p : ℕ → UInt8} {m : ℕ → BitVec 32} {h : Vector (BitVec 32) 8} {k : ℕ}
  {r : Sha256Reg → M128}

theorem sha256Load_words {data : List UInt8} (hdata : ∀ i < 64, data[i]? = some (p i)) (hk : k < 4) :
    shuffleEpi8 (ofBytes fun i => (p (16 * k + i)).toBitVec) sha256Mask =
      sha256Words (word 32 bigEndianValue data) k := by
  have hmask : ∀ i < 16, (sha256Mask.byte i).msb = false ∧
      (sha256Mask.byte i).toNat % 16 = 4 * (i / 4) + (3 - i % 4) := by
    decide
  have hword : ∀ j < 4, sha256Functions.W (word 32 bigEndianValue data) (4 * k + j) =
      (p (16 * k + 4 * j)).toBitVec ++ (p (16 * k + 4 * j + 1)).toBitVec ++
        (p (16 * k + 4 * j + 2)).toBitVec ++ (p (16 * k + 4 * j + 3)).toBitVec := by
    intro j hj
    rw [Sha2.W,if_pos (by omega),word_eq_append (p := p) fun i hi => hdata _ (by omega),Nat.mul_add,
      ← Nat.mul_assoc]
  rw [shuffleEpi8_ofBytes _ hmask]
  exact M128.ext (hword 0 (by norm_num)).symm (hword 1 (by norm_num)).symm
    (hword 2 (by norm_num)).symm (hword 3 (by norm_num)).symm

/-- The words of a group with the constants of the standard. -/
theorem addEpi32_k256Quad (hk : k < 16) {j : ℕ} (hj : j < 4) :
    (addEpi32 (sha256Words m k) (k256Quad k)).lane j =
      sha256Functions.W m (4 * k + j) + sha2K 32 (4 * k + j) := by
  have hconst : ∀ t, t < 64 → (k256[t]?.getD 0).toBitVec = sha2K 32 t := by
    intro t ht
    rw [← toBitVec_k256 ⟨t,ht⟩,Vector.getElem?_eq_getElem ht]
    rfl
  rw [← hconst _ (by omega)]
  interval_cases j <;> rfl

/-- The variables before group k. -/
noncomputable def sha256Before (m : ℕ → BitVec 32) (h : Vector (BitVec 32) 8) (k : ℕ) :
    Vector (BitVec 32) 8 :=
  (List.range k).foldl (fourRounds (sha256Functions.round m)) h

theorem sha256Before_succ : sha256Before m h (k + 1) =
    fourRounds (sha256Functions.round m) (sha256Before m h k) k := by
  rw [sha256Before,List.range_succ,List.foldl_concat]
  rfl

/-- The registers before group k: the variables, the words of the group, and what is ready of
the words of the next two. -/
structure Sha256At (m : ℕ → BitVec 32) (h : Vector (BitVec 32) 8) (k : ℕ) (r : Sha256Reg → M128) :
    Prop where
  state0 : r .state0 = abefOf (sha256Before m h k)
  state1 : r .state1 = cdghOf (sha256Before m h k)
  words : 4 ≤ k → k ≤ 15 → r (sha256Msg k) = sha256Words m k
  last : ∀ n, k = n + 1 → r (sha256Msg (k + 3)) = sha256Words m n
  second : ∀ n, k = n + 2 → k ≤ 13 →
    r (sha256Msg (k + 2)) = sha256msg1 (sha256Words m n) (sha256Words m (n + 1))
  third : ∀ n, k = n + 3 → k ≤ 14 →
    r (sha256Msg (k + 1)) = sha256msg1 (sha256Words m n) (sha256Words m (n + 1))
  abefSave : r .abefSave = abefOf h
  cdghSave : r .cdghSave = cdghOf h

theorem sha256Msg_add_four (k : ℕ) : sha256Msg (k + 4) = sha256Msg k := by
  rw [sha256Msg,sha256Msg,Nat.add_mod_right]

theorem sha256Group_step (hk : k < 16) (hcur : sha256Cur p r k = sha256Words m k)
    (hr : Sha256At m h k r) : Sha256At m h (k + 1) (run p (sha256Group k) r) := by
  obtain ⟨hstate1,hstate0,hwords,hnext,hsecond,hthird,hsave,hcsave⟩ := run_sha256Group p r hk
  have hlane := fun j (hj : j < 4) => addEpi32_k256Quad (m := m) hk hj
  rw [hcur] at hstate1 hstate0 hwords hnext hthird
  obtain ⟨hfirst,hfirst'⟩ := sha256rnds2_rounds (sha256Before m h k) (t := 4 * k)
    (hlane 0 (by norm_num)) (hlane 1 (by norm_num))
  obtain ⟨hlater,hlater'⟩ := sha256rnds2_rounds (t := 4 * k + 2)
    (sha256Functions.round m (sha256Functions.round m (sha256Before m h k) (4 * k)) (4 * k + 1))
    (k := shuffleEpi32 (addEpi32 (sha256Words m k) (k256Quad k)) 0x0E)
    (hlane 2 (by norm_num)) (hlane 3 (by norm_num))
  rw [hr.state1,hr.state0,hfirst] at hstate1
  rw [hr.state0,hstate1,← hfirst',hlater] at hstate0
  exact {
    state0 := hstate0.trans (congrArg abefOf sha256Before_succ.symm)
    state1 := (hstate1.trans hlater'.symm).trans (congrArg cdghOf sha256Before_succ.symm)
    words := fun h4 h15 => by
      obtain ⟨n,rfl⟩ : ∃ n, k = n + 3 := ⟨k - 3,by omega⟩
      rw [hnext,if_pos (by omega),hr.third n rfl (by omega),hr.last (n + 2) rfl]
      exact sha256Words_next n
    last := fun n hn => by
      obtain rfl : k = n := by omega
      rw [show k + 1 + 3 = k + 4 by ring,sha256Msg_add_four,hwords]
    second := fun n hn hle => by
      obtain rfl : k = n + 1 := by omega
      rw [show n + 1 + 1 + 2 = n + 1 + 3 by ring,hthird,if_pos (by omega),hr.last n rfl]
    third := fun n hn hle => by
      obtain rfl : k = n + 2 := by omega
      rw [show n + 2 + 1 + 1 = n + 2 + 2 by ring,hsecond,hr.second n rfl (by omega)]
    abefSave := hsave.trans hr.abefSave
    cdghSave := hcsave.trans hr.cdghSave }

/-- The registers between two passes of the loop. -/
def Sha256Holds (v : Vector (BitVec 32) 8) (r : Sha256Reg → M128) : Prop :=
  r .state0 = abefOf v ∧ r .state1 = cdghOf v

theorem sha256At_start (hr : Sha256Holds h r) :
    Sha256At m h 0 (run p [.mov .abefSave .state0,.mov .cdghSave .state1] r) where
  state0 := hr.1
  state1 := hr.2
  words h4 := absurd h4 (by norm_num)
  last n hn := absurd hn n.succ_ne_zero.symm
  second n hn := absurd hn (by omega)
  third n hn := absurd hn (by omega)
  abefSave := hr.1
  cdghSave := hr.2

theorem sha256Combine (hr : Sha256At m h 16 r) :
    Sha256Holds (h.zipWith (· + ·) (sha256Before m h 16))
      (run p [.addEpi32 .state0 .state0 .abefSave,.addEpi32 .state1 .state1 .cdghSave] r) := by
  have hcomm : ∀ a b : BitVec 32, a + b = b + a := BitVec.add_comm
  have hget : ∀ i : Fin 8, (h.zipWith (· + ·) (sha256Before m h 16)).get i =
      h.get i + (sha256Before m h 16).get i := fun i => Vector.getElem_zipWith i.isLt
  have habef : addEpi32 (r .state0) (r .abefSave) =
      abefOf (h.zipWith (· + ·) (sha256Before m h 16)) := by
    rw [hr.state0,hr.abefSave]
    simp only [abefOf,hget]
    exact M128.ext (hcomm _ _) (hcomm _ _) (hcomm _ _) (hcomm _ _)
  have hcdgh : addEpi32 (r .state1) (r .cdghSave) =
      cdghOf (h.zipWith (· + ·) (sha256Before m h 16)) := by
    rw [hr.state1,hr.cdghSave]
    simp only [cdghOf,hget]
    exact M128.ext (hcomm _ _) (hcomm _ _) (hcomm _ _) (hcomm _ _)
  exact ⟨habef,hcdgh⟩

theorem sha256Body_step {data : List UInt8} (hdata : ∀ i < 64, data[i]? = some (p i))
    (hr : Sha256Holds h r) : Sha256Holds (sha256Functions.compress h data) (run p sha256Body r) := by
  have hgroup : ∀ k < 16, ∀ r, Sha256At (word 32 bigEndianValue data) h k r →
      Sha256At (word 32 bigEndianValue data) h (k + 1) (run p (sha256Group k) r) := by
    intro k hk r hr
    refine sha256Group_step hk ?_ hr
    by_cases h4 : k < 4
    · exact (if_pos h4).trans (sha256Load_words hdata h4)
    · exact (if_neg h4).trans (hr.words (by omega) (by omega))
  have hall : sha256Before (word 32 bigEndianValue data) h 16 =
      (List.range 64).foldl (sha256Functions.round (word 32 bigEndianValue data)) h :=
    (foldl_fourRounds _ h 16).symm
  have hcombine := sha256Combine (p := p) (run_groups hgroup (sha256At_start (p := p) hr))
  rw [hall] at hcombine
  rw [sha256Body_eq,run_append,run_append]
  exact hcombine

theorem sha256Load_holds (w : Vector UInt32 8) (r : Sha256Reg → M128) :
    Sha256Holds (w.map UInt32.toBitVec) (sha256Load w r) := by
  have hget : ∀ i : Fin 8, (w.map UInt32.toBitVec).get i = (w.get i).toBitVec :=
    fun i => Vector.getElem_map _ i.isLt
  refine ⟨(alignrEpi8_eight _ _).trans ?_,(blendEpi16_upper _ _).trans ?_⟩
  · simp only [abefOf,hget]
    rfl
  · simp only [cdghOf,hget]
    rfl

theorem sha256Store_holds {v : Vector (BitVec 32) 8} (hr : Sha256Holds v r) :
    (sha256Store r).map UInt32.toBitVec = v := by
  have hlower : sha256Unload r .state0 = ⟨v.get 0,v.get 1,v.get 2,v.get 3⟩ := by
    refine (blendEpi16_upper (shuffleEpi32 (r .state0) 0x1B) (shuffleEpi32 (r .state1) 0xB1)).trans ?_
    rw [hr.1,hr.2]
    rfl
  have hupper : sha256Unload r .state1 = ⟨v.get 4,v.get 5,v.get 6,v.get 7⟩ := by
    refine (alignrEpi8_eight (shuffleEpi32 (r .state1) 0xB1) (shuffleEpi32 (r .state0) 0x1B)).trans ?_
    rw [hr.1,hr.2]
    rfl
  have hstore : sha256Store r =
      storeuSi128 ⟨v.get 0,v.get 1,v.get 2,v.get 3⟩ ⟨v.get 4,v.get 5,v.get 6,v.get 7⟩ :=
    congrArg₂ storeuSi128 hlower hupper
  rw [hstore]
  refine Vector.ext fun i hi => ?_
  rw [Vector.getElem_map]
  interval_cases i <;> rfl

/-- One pass of the loop is the compression function. -/
theorem sha256BlockX86_compress (r : Sha256Reg → M128) (w : Vector UInt32 8)
    (data : Vector UInt8 64) : (sha256BlockX86 r w data).map UInt32.toBitVec =
      sha256Functions.compress (w.map UInt32.toBitVec) data.toList := by
  refine sha256Store_holds (sha256Body_step (fun i hi => ?_) (sha256Load_holds w r))
  simp [hi]

/-- The loop is the compression function on every whole block. -/
theorem sha256TransformX86_absorb (r : Sha256Reg → M128) (s : Words) (p : ℕ → UInt8) (length : ℕ) :
    sha256TransformX86 r s p length =
      unpack s ((absorb sha256Functions.compress 64 ((pack 8 s).map UInt32.toBitVec)
        (bytes p length)).map UInt32.ofBitVec) := by
  have hstep : ∀ v r p, Sha256Holds v r →
      Sha256Holds (sha256Functions.compress v (bytes p 64)) (run p sha256Body r) := by
    intro v r p hr
    refine sha256Body_step (fun i hi => ?_) hr
    simp [bytes,hi]
  have hstore := sha256Store_holds (codeLoop_holds hstep (sha256Load_holds (pack 8 s) r) p length)
  rw [← hstore,sha256TransformX86,Vector.map_map]
  exact congrArg (unpack s) (Vector.map_id _).symm

end SecureWipeOut.Hash
