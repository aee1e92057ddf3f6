import SecureWipeOut.Hash.StepLines

/-! # The lines as shifts of a tuple

After line i the variable whose name stands at a place of line i holds what the tuple of
`Hash.Transform` holds at that place. The names are back where they were at the end.
-/
namespace SecureWipeOut.Hash
open Loop

attribute [ext] Regs4 Regs5 Regs8

section sha1

def sha1LineAt (i : ℕ) : Sha1Line where
  a := name 5 i 0
  b := name 5 i 1
  c := name 5 i 2
  d := name 5 i 3
  e := name 5 i 4
  f := if i < 20 then .f1 else if i < 40 then .f2 else if i < 60 then .f3 else .f4
  k := if i < 20 then k1 else if i < 40 then k2 else if i < 60 then k3 else k4
  m := if h : i < 16 then .x ⟨i,h⟩ else .m i

theorem sha1Lines_eq : sha1Lines = (List.range 80).map sha1LineAt := rfl

theorem sha1LineAt_round (i : ℕ) (x y z : UInt32) :
    (sha1LineAt i).f.eval x y z + (sha1LineAt i).k = sha1Round i x y z := by
  unfold sha1LineAt sha1Round
  dsimp only
  split
  · rfl
  · split
    · rfl
    · split <;> rfl

theorem sha1LineAt_word (i : ℕ) (x : Vector UInt32 16) :
    (sha1LineAt i).m.eval x = (slot (sha1Schedule i x) i,sha1Schedule i x) := by
  unfold sha1LineAt
  dsimp only
  by_cases h : i < 16
  · rw [dif_pos h,sha1Schedule,if_pos h,Sha1Word.eval,← slot_eq_get]
  · rw [dif_neg h,sha1Schedule_of_le h,slot_setSlot_self]
    rfl

/-- The variables in the order of line i. -/
def InOrder5 (i : ℕ) (r : Reg → UInt32) (t : Regs5) : Prop :=
  r (name 5 i 0) = t.a ∧ r (name 5 i 1) = t.b ∧ r (name 5 i 2) = t.c ∧ r (name 5 i 3) = t.d ∧
    r (name 5 i 4) = t.e

theorem sha1Line_step {i : ℕ} (x : Vector UInt32 16) {r : Reg → UInt32} {t : Regs5}
    (h : InOrder5 i r t) :
    (Sha1Line.step (x,r) (sha1LineAt i)).1 = sha1Schedule i x ∧
      InOrder5 (i + 1) (Sha1Line.step (x,r) (sha1LineAt i)).2
        (sha1Step i (slot (sha1Schedule i x) i) t) := by
  obtain ⟨ha,hb,hc,hd,he⟩ := h
  have hne : ∀ k m, k < 5 → m < 5 → (name 5 i k = name 5 i m ↔ k = m) :=
    fun k m hk hm => name_inj (by norm_num) hk hm
  have hround := sha1LineAt_round i t.b t.c t.d
  rw [Sha1Line.step,sha1LineAt_word]
  refine ⟨rfl,?_⟩
  simp only [InOrder5,name_zero 4 i,name_succ 4 i,sha1Step]
  have hargs : (sha1LineAt i).a = name 5 i 0 ∧ (sha1LineAt i).b = name 5 i 1 ∧
      (sha1LineAt i).c = name 5 i 2 ∧ (sha1LineAt i).d = name 5 i 3 ∧
      (sha1LineAt i).e = name 5 i 4 := ⟨rfl,rfl,rfl,rfl,rfl⟩
  obtain ⟨h0,h1,h2,h3,h4⟩ := hargs
  rw [h0,h1,h2,h3,h4]
  simp (disch := decide) only [Function.update_apply,hne,ha,hb,hc,hd,he]
  simp [← hround]
  exact UInt32.add_assoc _ _ _

theorem sha1Lines_rounds (x : Vector UInt32 16) (r : Reg → UInt32) :
    sha1Rounds x (regs5 r) = regs5 (sha1Lines.foldl Sha1Line.step (x,r)).2 := by
  have h := lockstep
    (R := fun i (s : Vector UInt32 16 × (Reg → UInt32)) (s' : Vector UInt32 16 × Regs5) =>
      s.1 = s'.1 ∧ InOrder5 i s.2 s'.2)
    (a := (x,r)) (b := (x,regs5 r)) (n := 80)
    (f := fun s i => Sha1Line.step s (sha1LineAt i))
    (g := fun s i => (sha1Schedule i s.1,sha1Step i (slot (sha1Schedule i s.1) i) s.2))
    ⟨rfl,rfl,rfl,rfl,rfl,rfl⟩ ?_
  · rw [← List.foldl_map,← sha1Lines_eq] at h
    rw [sha1Rounds_slot]
    generalize (sha1Lines.foldl Sha1Line.step (x,r)) = p at h ⊢
    generalize ((List.range 80).foldl (fun (s : Vector UInt32 16 × Regs5) i =>
      (sha1Schedule i s.1,sha1Step i (slot (sha1Schedule i s.1) i) s.2))
      (x,regs5 r)) = q at h ⊢
    obtain ⟨-,ha,hb,hc,hd,he⟩ := h
    exact Regs5.ext ha.symm hb.symm hc.symm hd.symm he.symm
  · rintro i - ⟨x,r⟩ ⟨x',t⟩ ⟨rfl,h⟩
    exact sha1Line_step x h

end sha1

section sha2
variable {α : Type} [Add α] [XorOp α] [AndOp α] [OrOp α]

def sha2LineAt (i : ℕ) : Regs8 Reg :=
  ⟨name 8 i 0,name 8 i 1,name 8 i 2,name 8 i 3,name 8 i 4,name 8 i 5,name 8 i 6,name 8 i 7⟩

def InOrder8 (i : ℕ) (r : Reg → α) (t : Regs8 α) : Prop :=
  r (name 8 i 0) = t.a ∧ r (name 8 i 1) = t.b ∧ r (name 8 i 2) = t.c ∧ r (name 8 i 3) = t.d ∧
    r (name 8 i 4) = t.e ∧ r (name 8 i 5) = t.f ∧ r (name 8 i 6) = t.g ∧ r (name 8 i 7) = t.h

theorem sha2StepLine_step (bigS0 bigS1 kw : α → α) {i : ℕ} {r : Reg → α} {t : Regs8 α}
    (h : InOrder8 i r t) :
    InOrder8 (i + 1) (sha2StepLine bigS0 bigS1 kw (sha2LineAt i) r) (sha2Step bigS0 bigS1 kw t) := by
  obtain ⟨ha,hb,hc,hd,he,hf,hg,hh⟩ := h
  have hne : ∀ k m, k < 8 → m < 8 → (name 8 i k = name 8 i m ↔ k = m) :=
    fun k m hk hm => name_inj (by norm_num) hk hm
  simp only [InOrder8,name_zero 7 i,name_succ 7 i,sha2Step,sha2StepLine,sha2LineAt]
  simp (disch := decide) only [Function.update_apply,hne,ha,hb,hc,hd,he,hf,hg,hh]
  simp

/-- The lines of all passes in one list. -/
theorem sha256Lines_eq :
    ([0,16,32,48].flatMap fun j => (rx8 0 ++ rx8 8).map fun l => (j,l)) =
      (List.range 64).map fun i => (i / 16 * 16,⟨sha2LineAt i,i % 16⟩) := rfl

theorem sha512Lines_eq : [0,8,16,24,32,40,48,56,64,72].flatMap rx8 =
    (List.range 80).map fun i => ⟨sha2LineAt i,i⟩ := rfl

theorem sha256Passes_eq (s : Vector UInt32 16 × (Reg → UInt32)) :
    sha256Passes s = (List.range 64).foldl
      (fun s i => sha256StepLine (i / 16 * 16) s ⟨sha2LineAt i,i % 16⟩) s := by
  have hflat : sha256Passes s = (([0,16,32,48].flatMap fun j =>
      (rx8 0 ++ rx8 8).map fun l => (j,l)).foldl (fun s p => sha256StepLine p.1 s p.2) s) := by
    rw [List.foldl_flatMap,sha256Passes]
    simp only [List.foldl_map]
  rw [hflat,sha256Lines_eq,List.foldl_map]

theorem sha512Passes_eq (w : Array UInt64) (r : Reg → UInt64) :
    sha512Passes w r = (List.range 80).foldl (fun r i =>
      sha2StepLine bigS0w bigS1w (fun t => t + k512[i]?.getD 0 + w.getD i 0) (sha2LineAt i) r) r := by
  rw [sha512Passes,← List.foldl_flatMap,sha512Lines_eq,List.foldl_map]

theorem blk_eq (i : ℕ) (x : Vector UInt32 16) : blk (i / 16 * 16) (i % 16) x = sha256Schedule i x := by
  by_cases h : i < 16
  · rw [blk,if_pos (by omega),sha256Schedule,if_pos h]
  · have h0 : slot x (i % 16) = slot x i := slot_congr (by omega)
    have h2 : slot x (i % 16 + 16 - 2) = slot x (i - 2) := slot_congr (by omega)
    have h7 : slot x (i % 16 + 16 - 7) = slot x (i - 7) := slot_congr (by omega)
    have h15 : slot x (i % 16 + 16 - 15) = slot x (i - 15) := slot_congr (by omega)
    rw [blk,if_neg (by omega),sha256Schedule_of_le h,h0,h2,h7,h15]
    exact setSlot_congr (by omega) _

theorem sha256Passes_rounds (x : Vector UInt32 16) (r : Reg → UInt32) :
    sha256Rounds x (regs8 r) = regs8 (sha256Passes (x,r)).2 := by
  have h := lockstep_finRange
    (R := fun i (s : Vector UInt32 16 × (Reg → UInt32)) (s' : Vector UInt32 16 × Regs8 UInt32) =>
      s.1 = s'.1 ∧ InOrder8 i s.2 s'.2)
    (a := (x,r)) (b := (x,regs8 r)) (n := 64)
    (f := fun s i => sha256StepLine (i / 16 * 16) s ⟨sha2LineAt i,i % 16⟩)
    (g := fun s i => (sha256Schedule i s.1,
      sha2Step bigS0 bigS1 (fun t => t + k256.get i + slot (sha256Schedule i s.1) i) s.2))
    ⟨rfl,rfl,rfl,rfl,rfl,rfl,rfl,rfl,rfl⟩ ?_
  · rw [← sha256Passes_eq] at h
    rw [sha256Rounds_slot]
    generalize sha256Passes (x,r) = p at h ⊢
    generalize ((List.finRange 64).foldl (fun (s : Vector UInt32 16 × Regs8 UInt32) (i : Fin 64) =>
      (sha256Schedule i s.1,
        sha2Step bigS0 bigS1 (fun t => t + k256.get i + slot (sha256Schedule i s.1) i) s.2))
      (x,regs8 r)) = q at h ⊢
    obtain ⟨-,ha,hb,hc,hd,he,hf,hg,hh⟩ := h
    exact Regs8.ext ha.symm hb.symm hc.symm hd.symm he.symm hf.symm hg.symm hh.symm
  · rintro i ⟨x,r⟩ ⟨x',t⟩ ⟨rfl,h⟩
    have hk : k256[i.val % 16 + i.val / 16 * 16]?.getD 0 = k256.get i := by
      rw [show i.val % 16 + i.val / 16 * 16 = i.val by omega,Vector.getElem?_eq_getElem i.isLt]
      rfl
    have hi : ∀ x, slot x (i.val % 16) = slot x i := fun x => slot_congr (by omega)
    simp only [sha256StepLine,blk_eq,hk,hi,true_and]
    exact sha2StepLine_step _ _ _ h

theorem sha512Passes_rounds (w : Array UInt64) (r : Reg → UInt64) :
    sha512Rounds w (regs8 r) = regs8 (sha512Passes w r) := by
  have h := lockstep_finRange (R := InOrder8) (a := r)
    (b := regs8 r) (n := 80)
    (f := fun r i => sha2StepLine bigS0w bigS1w (fun t => t + k512[i]?.getD 0 + w.getD i 0)
      (sha2LineAt i) r)
    (g := fun r i => sha2Step bigS0w bigS1w (fun t => t + k512.get i + w.getD i 0) r)
    ⟨rfl,rfl,rfl,rfl,rfl,rfl,rfl,rfl⟩ ?_
  · rw [← sha512Passes_eq] at h
    rw [sha512Rounds_get]
    generalize sha512Passes w r = p at h ⊢
    generalize ((List.finRange 80).foldl (fun r (i : Fin 80) =>
      sha2Step bigS0w bigS1w (fun t => t + k512.get i + w.getD i 0) r)
      (regs8 r)) = q at h ⊢
    obtain ⟨ha,hb,hc,hd,he,hf,hg,hh⟩ := h
    exact Regs8.ext ha.symm hb.symm hc.symm hd.symm he.symm hf.symm hg.symm hh.symm
  · intro i r t h
    have hk : k512[i.val]?.getD 0 = k512.get i := by
      rw [Vector.getElem?_eq_getElem i.isLt]
      rfl
    simp only [hk]
    exact sha2StepLine_step _ _ _ h

end sha2

section md5

def md5LineAt (i : ℕ) : Md5Line where
  f := (md5StepAt i).1
  w := name 4 i 0
  x := name 4 i 1
  y := name 4 i 2
  z := name 4 i 3
  data := (md5StepAt i).2.1
  t := (md5StepAt i).2.2.1
  s := (md5StepAt i).2.2.2

theorem md5Lines_eq : md5Lines = (List.range 64).map md5LineAt := rfl

def InOrder4 (i : ℕ) (r : Reg → UInt32) (t : Regs4) : Prop :=
  r (name 4 i 0) = t.a ∧ r (name 4 i 1) = t.b ∧ r (name 4 i 2) = t.c ∧ r (name 4 i 3) = t.d

theorem md5Line_step {i : ℕ} (x : Vector UInt32 16) {r : Reg → UInt32} {t : Regs4}
    (h : InOrder4 i r t) :
    InOrder4 (i + 1) (Md5Line.step x r (md5LineAt i)) (md5Step x t (md5StepAt i)) := by
  obtain ⟨ha,hb,hc,hd⟩ := h
  have hne : ∀ k m, k < 4 → m < 4 → (name 4 i k = name 4 i m ↔ k = m) :=
    fun k m hk hm => name_inj (by norm_num) hk hm
  simp only [InOrder4,name_zero 3 i,name_succ 3 i,md5Step_get,Md5Line.step,md5LineAt]
  simp (disch := decide) only [Function.update_apply,hne,ha,hb,hc,hd]
  simp [rol32]

theorem md5Lines_rounds (x : Vector UInt32 16) (r : Reg → UInt32) :
    md5Steps.foldl (md5Step x) (regs4 r) = regs4 (md5Lines.foldl (Md5Line.step x) r) := by
  have h := lockstep (R := InOrder4) (a := r) (b := regs4 r) (n := 64)
    (f := fun r i => Md5Line.step x r (md5LineAt i)) (g := fun t i => md5Step x t (md5StepAt i))
    ⟨rfl,rfl,rfl,rfl⟩ fun i _ r t h => md5Line_step x h
  have hlines : md5Lines.foldl (Md5Line.step x) r =
      (List.range 64).foldl (fun r i => Md5Line.step x r (md5LineAt i)) r := by
    rw [md5Lines_eq,List.foldl_map]
  have hsteps : ∀ t, md5Steps.foldl (md5Step x) t =
      (List.range 64).foldl (fun t i => md5Step x t (md5StepAt i)) t := by
    intro t
    rw [md5Steps_eq,List.foldl_map]
  rw [← hlines,← hsteps] at h
  generalize md5Lines.foldl (Md5Line.step x) r = p at h ⊢
  generalize md5Steps.foldl (md5Step x) (regs4 r) = q at h ⊢
  obtain ⟨ha,hb,hc,hd⟩ := h
  exact Regs4.ext ha.symm hb.symm hc.symm hd.symm

end md5

section transforms
variable (s : Words)

theorem sha1TransformLines_eq (data : Vector UInt8 64) :
    sha1TransformLines s data = sha1TransformCc s data :=
  congrArg (fun r : Regs5 => (#v[s[0] + r.a.toUInt64,s[1] + r.b.toUInt64,s[2] + r.c.toUInt64,
    s[3] + r.d.toUInt64,s[4] + r.e.toUInt64,s[5],s[6],s[7]] : Words))
    (sha1Lines_rounds (Vector.ofFn (readSwap32 data)) (locals32 s)).symm

theorem sha256TransformLines_eq (data : Vector UInt8 64) :
    sha256TransformLines s data = sha256TransformCc s data :=
  congrArg (fun r : Regs8 UInt32 => (#v[s[0] + r.a.toUInt64,s[1] + r.b.toUInt64,
    s[2] + r.c.toUInt64,s[3] + r.d.toUInt64,s[4] + r.e.toUInt64,s[5] + r.f.toUInt64,
    s[6] + r.g.toUInt64,s[7] + r.h.toUInt64] : Words))
    (sha256Passes_rounds (Vector.ofFn (readSwap32 data)) (locals32 s)).symm

theorem sha512TransformLines_eq (data : Vector UInt8 128) :
    sha512TransformLines s data = sha512Transform s data :=
  congrArg (fun r : Regs8 UInt64 => (#v[s[0] + r.a,s[1] + r.b,s[2] + r.c,s[3] + r.d,s[4] + r.e,
    s[5] + r.f,s[6] + r.g,s[7] + r.h] : Words))
    (sha512Passes_rounds (sha512Schedule data) (locals64 s)).symm

theorem md5TransformLines_eq (data : Vector UInt8 64) :
    md5TransformLines s data = md5Transform s data :=
  congrArg (fun r : Regs4 => (#v[s[0] + r.a.toUInt64,s[1] + r.b.toUInt64,s[2] + r.c.toUInt64,
    s[3] + r.d.toUInt64,s[4],s[5],s[6],s[7]] : Words))
    (md5Lines_rounds (Vector.ofFn (read32 data)) (locals32 s)).symm

end transforms

end SecureWipeOut.Hash
