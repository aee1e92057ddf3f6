import SecureWipeOut.Lib.Loop
import SecureWipeOut.Lib.MarkedWalk
import SecureWipeOut.Regex.Compile

/-! # The machine that runs programs of regular expressions

The machine keeps the list of its threads for one offset in the text and builds that for the next one.
Splits, jumps, assertions and saves are followed when a thread is added, each instruction
once for an offset, so that the threads of a list stand at characters and at the end. What it does
when it adds a thread or goes on to the next offset are steps of the program.
-/
namespace SecureWipeOut.Regex
open Relation CodeBlock MarkedWalk

/-- The threads of an offset, each with what it saved; an instruction visited for the offset sp bears sp + 1. -/
abbrev ThreadList := Walk ℕ Matches

section machine
variable (t : Text) (nmatches : ℕ) (p : Program)

def vmAddThread (sp : ℕ) : ℕ → ThreadList → ℕ → Matches → ThreadList
  | 0,list,_,_ => list
  | fuel + 1,list,pc,m =>
    if list.marks pc = sp + 1 then list
    else
      let list := list.mark pc (sp + 1)
      match p[pc]? with
      | none => list
      | some (.split first second) =>
        vmAddThread sp fuel (vmAddThread sp fuel list first m) second m
      | some (.jump target) => vmAddThread sp fuel list target m
      | some .assertBegin => if sp = 0 then vmAddThread sp fuel list (pc + 1) m else list
      | some .assertEnd => if t.bytes sp = 0 then vmAddThread sp fuel list (pc + 1) m else list
      | some (.save k) => vmAddThread sp fuel list (pc + 1) (m.save nmatches k sp)
      | some _ => list.found (pc,m)

/-- Whether an instruction takes the character; no thread stands at one of the others. -/
def Instr.takes : Instr → UInt8 → Bool
  | .character ch,c => c == ch
  | .anyCharacter,c => c != 0
  | .characterClass klass,c => klass.contains c
  | .characterClassNegated klass,c => !klass.contains c
  | _,_ => false

/-- The threads in their order, up to the first one that is at the end of the program. -/
def runThreads (sp : ℕ) : List (ℕ × Matches) → ThreadList → Option Matches → ThreadList × Option Matches
  | [],next,result => (next,result)
  | (pc,m) :: threads,next,result =>
    match p[pc]? with
    | none => runThreads sp threads next result
    | some .matched => (next,some m)
    | some instr =>
      if instr.takes (t.bytes sp) then
        runThreads sp threads (vmAddThread t nmatches p (sp + 1) p.length next (pc + 1) m) result
      else runThreads sp threads next result

structure VmState where
  sp : ℕ
  current : ThreadList
  next : ThreadList
  result : Option Matches

/-- One offset in the text; the two lists change places behind it. -/
def vmStep (s : VmState) : VmState ⊕ Option Matches :=
  let r := runThreads t nmatches p s.sp s.current.leaves s.next s.result
  if r.1.leaves = [] ∨ t.bytes s.sp = 0 then .inr r.2
  else .inl ⟨s.sp + 1,r.1,⟨s.current.marks,[]⟩,r.2⟩

def vmStart : VmState where
  sp := 0
  current := vmAddThread t nmatches p 0 p.length ⟨fun _ => 0,[]⟩ 0 fun _ => none
  next := ⟨fun _ => 0,[]⟩
  result := none

/-- What the match saved, where there is one. -/
def cregexProgramRun : Option (Option Matches) :=
  Loop.run (vmStep t nmatches p) (t.length + 1) (vmStart t nmatches p)

end machine

section adding
variable (t : Text) (nmatches : ℕ) (p : Program) (sp : ℕ)

/-- Where a thread stays: the instructions that are not followed when it is added. -/
def isLeaf (pc : ℕ) : Bool :=
  match p[pc]? with
  | some .matched => true
  | some (.character _) => true
  | some .anyCharacter => true
  | some (.characterClass _) => true
  | some (.characterClassNegated _) => true
  | _ => false

/-- Where an instruction is followed to. -/
def follow (q : ℕ × Matches) : List (ℕ × Matches) :=
  match p[q.1]? with
  | some (.split first second) => [(first,q.2),(second,q.2)]
  | some (.jump target) => [(target,q.2)]
  | some .assertBegin => if sp = 0 then [(q.1 + 1,q.2)] else []
  | some .assertEnd => if t.bytes sp = 0 then [(q.1 + 1,q.2)] else []
  | some (.save k) => [(q.1 + 1,q.2.save nmatches k sp)]
  | _ => []

theorem vmAddThread_eq (fuel : ℕ) (list : ThreadList) (pc : ℕ) (m : Matches) :
    vmAddThread t nmatches p sp fuel list pc m =
      walk (isLeaf p) (follow t nmatches p sp) (sp + 1) fuel list (pc,m) := by
  induction fuel generalizing list pc m with
  | zero => rfl
  | succ fuel ih =>
    rw [vmAddThread,walk]
    split
    · rfl
    cases hinstr : p[pc]? with
    | none => simp only [isLeaf,follow,hinstr,Bool.false_eq_true,if_false,List.foldl_nil]
    | some instr =>
      cases instr <;> simp only [isLeaf,follow,hinstr,Bool.false_eq_true,if_false,if_true,ih,
        List.foldl_cons,List.foldl_nil]
      all_goals split <;> rfl

theorem follow_steady : Steady (follow t nmatches p sp) := by
  intro a d d'
  unfold follow
  cases p[a]? with
  | none => rfl
  | some instr =>
    cases instr <;> try rfl
    all_goals
      dsimp only
      split <;> rfl

end adding

section steps
variable {t : Text} {nmatches : ℕ} {p : Program} {i : ℕ} {u v : ℕ × Matches}

theorem Text.bytes_eq_zero_iff (t : Text) (h : i ≤ t.length) : t.bytes i = 0 ↔ i = t.length := by
  constructor
  · intro hzero
    by_contra hne
    exact (t.inside i (by omega)).1 hzero
  · rintro rfl
    exact t.nul

/-- Following an instruction is a step of the program. -/
theorem step_iff_follow (hi : i ≤ t.length) (hu : isLeaf p u.1 = false) (s : ℕ × Data) :
    Step t nmatches p (u.1,(i,u.2)) s ↔
      ∃ v ∈ follow t nmatches p i u, s = (v.1,(i,v.2)) := by
  unfold isLeaf at hu
  unfold follow
  have hend := t.bytes_eq_zero_iff hi
  cases hinstr : p[u.1]? with
  | none =>
    refine iff_of_false ?_ (by simp)
    rintro ⟨instr,hcode,-⟩
    cases hinstr.symm.trans hcode
  | some instr =>
    rw [hinstr] at hu
    constructor
    · rintro ⟨instr',hcode,hgoes⟩
      obtain rfl := Option.some.inj (hinstr.symm.trans hcode)
      cases instr <;> simp_all [Instr.Goes]
    · rintro ⟨v,hv,rfl⟩
      refine ⟨instr,hinstr,?_⟩
      cases instr <;> simp_all [Instr.Goes,Prod.ext_iff]

/-- No step goes back in the text. -/
theorem Step.le {r s : ℕ × Data} (h : Step t nmatches p r s) : r.2.1 ≤ s.2.1 := by
  obtain ⟨instr,-,hgoes⟩ := h
  cases instr with
  | matched => cases hgoes
  | split _ _ => rcases hgoes with rfl | rfl <;> exact le_rfl
  | jump _ | save _ =>
    obtain rfl : s = _ := hgoes
    exact le_rfl
  | assertBegin | assertEnd =>
    obtain ⟨y,⟨-,rfl⟩,rfl⟩ := hgoes
    exact le_rfl
  | character _ | anyCharacter | characterClass _ | characterClassNegated _ =>
    obtain ⟨y,⟨-,-,rfl⟩,rfl⟩ := hgoes
    exact Nat.le_succ _

/-- The states that the program comes to from its first instruction, with the offset in front. -/
def Reaches (t : Text) (nmatches : ℕ) (p : Program) (i : ℕ) (u : ℕ × Matches) : Prop :=
  ReflTransGen (Step t nmatches p) (0,(0,fun _ => none)) (u.1,(i,u.2))

abbrev Follows (t : Text) (nmatches : ℕ) (p : Program) (i : ℕ) : ℕ × Matches → ℕ × Matches → Prop :=
  ReflTransGen (Inner (isLeaf p) (follow t nmatches p i))

/-- The instruction takes the character at the offset. -/
def Takes (t : Text) (p : Program) (i pc : ℕ) : Prop :=
  i < t.length ∧ ∃ instr, p[pc]? = some instr ∧ instr.takes (t.bytes i) = true

theorem Reaches.follows (hi : i ≤ t.length) (h : Reaches t nmatches p i u)
    (huv : Follows t nmatches p i u v) : Reaches t nmatches p i v := by
  induction huv with
  | refl => exact h
  | tail _ hstep ih =>
    exact ReflTransGen.tail ih ((step_iff_follow hi hstep.1 _).mpr ⟨_,hstep.2,rfl⟩)

/-- Where a thread stays, a step of the program takes a character. -/
theorem step_iff_takes (hu : isLeaf p u.1 = true) (s : ℕ × Data) :
    Step t nmatches p (u.1,(i,u.2)) s ↔ Takes t p i u.1 ∧ s = (u.1 + 1,(i + 1,u.2)) := by
  unfold isLeaf at hu
  cases hinstr : p[u.1]? with
  | none =>
    rw [hinstr] at hu
    cases hu
  | some instr =>
    rw [hinstr] at hu
    have hstep : Step t nmatches p (u.1,(i,u.2)) s ↔ instr.Goes t nmatches u.1 (i,u.2) s := by
      refine ⟨?_,fun hgoes => ⟨instr,hinstr,hgoes⟩⟩
      rintro ⟨instr',hcode,hgoes⟩
      obtain rfl := Option.some.inj (hinstr.symm.trans hcode)
      exact hgoes
    have htakes : Takes t p i u.1 ↔ i < t.length ∧ instr.takes (t.bytes i) = true := by
      refine ⟨?_,fun h => ⟨h.1,instr,hinstr,h.2⟩⟩
      rintro ⟨hlt,instr',hcode,htake⟩
      obtain rfl := Option.some.inj (hinstr.symm.trans hcode)
      exact ⟨hlt,htake⟩
    rw [hstep,htakes]
    cases instr with
    | matched => simp [Instr.Goes,Instr.takes]
    | anyCharacter =>
      simp only [Instr.Goes,Consumes,Instr.takes,bne_iff_ne]
      constructor
      · rintro ⟨y,⟨hlt,-,rfl⟩,rfl⟩
        exact ⟨⟨hlt,(t.inside _ hlt).1⟩,rfl⟩
      · rintro ⟨⟨hlt,-⟩,rfl⟩
        exact ⟨_,⟨hlt,trivial,rfl⟩,rfl⟩
    | character _ | characterClass _ | characterClassNegated _ =>
      simp only [Instr.Goes,Consumes,Instr.takes]
      constructor
      · rintro ⟨y,⟨hlt,htest,rfl⟩,rfl⟩
        exact ⟨⟨hlt,htest⟩,rfl⟩
      · rintro ⟨⟨hlt,htest⟩,rfl⟩
        exact ⟨_,⟨hlt,htest,rfl⟩,rfl⟩
    | split _ _ | jump _ | assertBegin | assertEnd | save _ => cases hu

theorem Reaches.takes (h : Reaches t nmatches p i u) (hleaf : isLeaf p u.1 = true)
    (htakes : Takes t p i u.1) : Reaches t nmatches p (i + 1) (u.1 + 1,u.2) :=
  ReflTransGen.tail h ((step_iff_takes hleaf _).mpr ⟨htakes,rfl⟩)

/-- From a thread of one offset to what is reached at the next one. -/
def Leads (t : Text) (nmatches : ℕ) (p : Program) (i : ℕ) (u v : ℕ × Matches) : Prop :=
  isLeaf p u.1 = true ∧ Reaches t nmatches p i u ∧ Takes t p i u.1 ∧
    Follows t nmatches p (i + 1) (u.1 + 1,u.2) v

theorem Leads.reaches (h : Leads t nmatches p i u v) : Reaches t nmatches p (i + 1) v := by
  obtain ⟨hleaf,hreach,htakes,hfollows⟩ := h
  exact (hreach.takes hleaf htakes).follows htakes.1 hfollows

/-- What is reached at an offset comes from a thread of the one in front of it. -/
theorem Reaches.cases (h : Reaches t nmatches p i u) :
    i ≤ t.length ∧ ((i = 0 ∧ Follows t nmatches p 0 (0,fun _ => none) u) ∨
      ∃ j q, i = j + 1 ∧ Leads t nmatches p j q u) := by
  have hall : ∀ s, ReflTransGen (Step t nmatches p) (0,(0,fun _ => none)) s → s.2.1 ≤ t.length ∧
      ((s.2.1 = 0 ∧ Follows t nmatches p 0 (0,fun _ => none) (s.1,s.2.2)) ∨
        ∃ j q, s.2.1 = j + 1 ∧ Leads t nmatches p j q (s.1,s.2.2)) := by
    intro s hs
    induction hs with
    | refl => exact ⟨Nat.zero_le _,Or.inl ⟨rfl,.refl⟩⟩
    | @tail r s hr hstep ih =>
      obtain ⟨hle,hfrom⟩ := ih
      cases hleaf : isLeaf p r.1 with
      | true =>
        obtain ⟨htakes,rfl⟩ := (step_iff_takes (u := (r.1,r.2.2)) hleaf s).mp hstep
        exact ⟨htakes.1,Or.inr ⟨r.2.1,(r.1,r.2.2),rfl,hleaf,hr,htakes,.refl⟩⟩
      | false =>
        obtain ⟨v,hv,rfl⟩ := (step_iff_follow (u := (r.1,r.2.2)) hle hleaf s).mp hstep
        refine ⟨hle,?_⟩
        rcases hfrom with ⟨hzero,hfollows⟩ | ⟨j,q,heq,hq,hreach,htakes,hfollows⟩
        · refine Or.inl ⟨hzero,hfollows.tail ⟨hleaf,?_⟩⟩
          rw [← hzero]
          exact hv
        · refine Or.inr ⟨j,q,heq,hq,hreach,htakes,hfollows.tail ⟨hleaf,?_⟩⟩
          rw [← heq]
          exact hv
  exact hall _ h

end steps

end SecureWipeOut.Regex
