import SecureWipeOut.Loc.LocFile
import Mathlib.Logic.Relation
import Mathlib.Order.WellFounded
import Mathlib.Data.Fintype.Order

/-! # Termination of localization loading

Which lines a section hands to the dispatcher does not depend on what the dispatcher
does, so a section refers to fixed other sections by its base commands. Loading ends
exactly when no chain of these references from the selected locale meets a cycle.
-/
namespace SecureWipeOut.Loc
open CText Loop Relation

section Lines
variable {σ : Type}

/-- The lines completed by the reading loop, and whether it came to its end. -/
def readLines (endOffset : ℕ) : ℕ → List Char → Reader → List Buf × Bool
  | _,[],rd => ([rd.terminate.line],true)
  | pos,c :: rest,rd =>
    let (line,rd) := rd.step c
    if endOffset < pos + 1 then (line.toList,true)
    else
      match rd.grow with
      | none => (line.toList,false)
      | some rd =>
        let (lines,ret) := readLines endOffset (pos + 1) rest rd
        (line.toList ++ lines,ret)

/-- The loop processes the lines it completes one after the other. -/
theorem readLoop_eq (process : Buf → σ → Option σ) (endOffset pos : ℕ) (rest : List Char) (rd : Reader)
    (st : σ) : readLoop process endOffset pos rest rd st =
      ((readLines endOffset pos rest rd).1.foldlM (fun st line => process line st) st).map
        fun st => ((readLines endOffset pos rest rd).2,st) := by
  induction rest generalizing pos rd st with
  | nil => simp [readLoop,readLines,List.foldlM]
  | cons c rest ih =>
    have hhead : ∀ line : Option Buf, (line.elim (some st) fun line => process line st) =
        line.toList.foldlM (fun st line => process line st) st := by
      intro line
      cases line <;> simp [List.foldlM]
    rw [readLoop,readLines]
    rcases rd.step c with ⟨line,rd'⟩
    dsimp only
    rw [hhead]
    split
    · rw [Option.map_eq_bind]
      rfl
    · cases rd'.grow with
      | none =>
        rw [Option.map_eq_bind]
        rfl
      | some rd'' =>
        dsimp only
        rw [List.foldlM_append,Option.bind_eq_bind,Option.map_bind]
        congr 1
        funext st'
        exact ih _ _ _

end Lines

section References
variable {env : Env}

/-- The locale that a line loads as a base. -/
def baseOf (env : Env) (line : Buf) : Option Locale :=
  (getLocDataLine line).bind fun lcmd =>
    if lcmd.command = .base then getLocaleFromName env (lcmd.txt.headD []) else none

def sectionLines (env : Env) (locale : Locale) : List Buf :=
  (readLines locale.endOffset locale.offset (env.file.drop locale.offset) (Reader.init env.garbage)).1

/-- The section of `l` has a base command for `l'`. -/
def Refers (env : Env) (l l' : Locale) : Prop := ∃ line ∈ sectionLines env l, baseOf env line = some l'

theorem Refers.mem {l l' : Locale} (h : Refers env l l') : l' ∈ env.locales := by
  obtain ⟨line,-,hb⟩ := h
  obtain ⟨lcmd,-,hb⟩ := Option.bind_eq_some_iff.mp hb
  split at hb
  · exact List.mem_of_find?_eq_some hb
  · cases hb

/-- Every chain of references from `l` has fewer than `n` members. -/
def Depth (env : Env) : ℕ → Locale → Prop
  | 0,_ => False
  | n + 1,l => ∀ l', Refers env l l' → Depth env n l'

theorem Depth.succ {n : ℕ} {l : Locale} (h : Depth env n l) : Depth env (n + 1) l := by
  induction n generalizing l with
  | zero => exact h.elim
  | succ n ih => exact fun l' hr => ih (h l' hr)

theorem Depth.mono {m n : ℕ} (hmn : m ≤ n) {l : Locale} (h : Depth env m l) : Depth env n l := by
  induction n, hmn using Nat.le_induction with
  | base => exact h
  | succ n _ ih => exact ih.succ

theorem Depth.transGen {n : ℕ} {l l' : Locale} (h : Depth env n l)
    (hr : TransGen (Refers env) l l') : ∃ m < n, Depth env m l' := by
  induction hr with
  | single hr =>
    cases n with
    | zero => exact h.elim
    | succ n => exact ⟨n,Nat.lt_succ_self n,h _ hr⟩
  | tail _ hr ih =>
    obtain ⟨m,hm,hd⟩ := ih
    cases m with
    | zero => exact hd.elim
    | succ m => exact ⟨m,by omega,hd _ hr⟩

theorem Depth.not_cyclic {n : ℕ} {l : Locale} (h : Depth env n l) : ¬ TransGen (Refers env) l l := by
  induction n using Nat.strong_induction_on generalizing l with
  | _ n ih =>
    intro hr
    obtain ⟨m,hm,hd⟩ := h.transGen hr
    exact ih m hm hd hr

/-- No chain of references from `l` meets a cycle. -/
def Acyclic (env : Env) (l : Locale) : Prop :=
  ∀ l', ReflTransGen (Refers env) l l' → ¬ TransGen (Refers env) l' l'

theorem Depth.acyclic {n : ℕ} {l : Locale} (h : Depth env n l) : Acyclic env l := by
  intro l' hr
  rcases reflTransGen_iff_eq_or_transGen.mp hr with rfl | hr
  · exact h.not_cyclic
  · obtain ⟨m,-,hd⟩ := h.transGen hr
    exact hd.not_cyclic

/-- Finitely many bounds have a common one. -/
theorem exists_depth {ls : List Buf}
    (h : ∀ line ∈ ls, ∀ l', baseOf env line = some l' → ∃ n, Depth env n l') :
    ∃ n, ∀ line ∈ ls, ∀ l', baseOf env line = some l' → Depth env n l' := by
  induction ls with
  | nil => exact ⟨0,by simp⟩
  | cons line ls ih =>
    obtain ⟨n,hn⟩ := ih fun l hl => h l (List.mem_cons_of_mem line hl)
    have hline : ∃ m, ∀ l', baseOf env line = some l' → Depth env m l' := by
      cases hb : baseOf env line with
      | none => exact ⟨0,by simp⟩
      | some l =>
        obtain ⟨m,hm⟩ := h line List.mem_cons_self l hb
        refine ⟨m,?_⟩
        rintro l' hl'
        obtain rfl := Option.some.inj hl'
        exact hm
    obtain ⟨m,hm⟩ := hline
    refine ⟨max m n,?_⟩
    intro x hx l' hl'
    rcases List.mem_cons.mp hx with rfl | hx
    · exact (hm l' hl').mono (le_max_left m n)
    · exact (hn x hx l' hl').mono (le_max_right m n)

/-- The locale list is finite, so chains that meet no cycle are bounded. -/
theorem Acyclic.depth {l : Locale} (h : Acyclic env l) : ∃ n, Depth env n l := by
  let Reach := {x // (x = l ∨ x ∈ env.locales) ∧ ReflTransGen (Refers env) l x}
  let back : Reach → Reach → Prop := fun x y => TransGen (Refers env) y.1 x.1
  have hfin : Finite Reach := by
    apply Finite.of_injective (β := {x // x ∈ l :: env.locales}) (fun x => ⟨x.1,by simpa using x.2.1⟩)
    intro x y hxy
    exact Subtype.ext (by simpa using hxy)
  have : IsTrans Reach back := ⟨fun _ _ _ hxy hyz => hyz.trans hxy⟩
  have : Std.Irrefl back := ⟨fun x => h x.1 x.2.2⟩
  have hwf : WellFounded back := Finite.wellFounded_of_trans_of_irrefl back
  have hall : ∀ x : Reach, ∃ n, Depth env n x.1 := by
    intro x
    induction x using hwf.induction with
    | _ x ih =>
      have hnext : ∀ line ∈ sectionLines env x.1, ∀ l', baseOf env line = some l' →
          ∃ n, Depth env n l' := by
        intro line hline l' hl'
        have href : Refers env x.1 l' := ⟨line,hline,hl'⟩
        exact ih ⟨l',Or.inr href.mem,x.2.2.tail href⟩ (.single href)
      obtain ⟨n,hn⟩ := exists_depth hnext
      exact ⟨n + 1,fun l' ⟨line,hline,hl'⟩ => hn line hline l' hl'⟩
  exact hall ⟨l,Or.inl rfl,.refl⟩

end References

section Loading
variable {env : Env}

theorem foldlM_isSome {α σ : Type} {f : σ → α → Option σ} {P : α → Prop}
    (h : ∀ st a, (f st a).isSome ↔ P a) (as : List α) (st : σ) :
    (as.foldlM f st).isSome ↔ ∀ a ∈ as, P a := by
  induction as generalizing st with
  | nil => simp [List.foldlM]
  | cons a as ih =>
    rw [List.foldlM_cons,Option.bind_eq_bind,List.forall_mem_cons,← h st a]
    cases f st a with
    | none => simp
    | some st' => simpa using ih st'

/-- A line is processed if the section it loads as a base, if any, is loaded. -/
theorem processLine_isSome {load : Locale → LocState → Option LocState} {P : Locale → Prop}
    (hload : ∀ l st, (load l st).isSome ↔ P l) (line : Buf) (st : LocState) :
    (processLine env false load line st).isSome ↔ ∀ l', baseOf env line = some l' → P l' := by
  unfold processLine baseOf
  cases getLocDataLine line with
  | none => simp
  | some lcmd =>
    obtain ⟨command,txt,num,unum⟩ := lcmd
    cases command with
    | base =>
      simp only [Option.bind_some,dispatchLocCmd,Bool.false_eq_true,if_false,if_true]
      cases getLocaleFromName env (txt.headD []) with
      | none => simp
      | some l => simpa using hload l st
    | _ => simp [dispatchLocCmd]

theorem loadSection_isSome (fuel : ℕ) (l : Locale) (st : LocState) :
    (loadSection env false fuel l st).isSome ↔ Depth env fuel l := by
  induction fuel generalizing l st with
  | zero => simp [loadSection,Depth]
  | succ fuel ih =>
    rw [loadSection,readLoop_eq,Option.isSome_map]
    have hload : ∀ l st, ((loadSection env false fuel l st).map (·.2)).isSome ↔ Depth env fuel l := by
      intro l st
      rw [Option.isSome_map]
      exact ih l st
    rw [foldlM_isSome fun st line => processLine_isSome hload line st]
    constructor
    · rintro h l' ⟨line,hline,hl'⟩
      exact h line hline l' hl'
    · intro h line hline l' hl'
      exact h l' ⟨line,hline,hl'⟩

/-- Base commands are not followed while the default table is filled. -/
theorem loadSection_default (fuel : ℕ) (l : Locale) (st : LocState) :
    (loadSection env true (fuel + 1) l st).isSome := by
  rw [loadSection,readLoop_eq,Option.isSome_map,foldlM_isSome (P := fun _ => True)]
  · simp
  · intro st line
    unfold processLine
    cases getLocDataLine line with
    | none => simp
    | some lcmd =>
      obtain ⟨command,txt,num,unum⟩ := lcmd
      cases command <;> simp [dispatchLocCmd]

theorem depth_of_getLocDataFile {first : Bool} {selected fuel : ℕ} {locale : Locale} {st : LocState}
    {r : Bool × LocState} (hsel : env.locales[selected]? = some locale) (h0 : selected ≠ 0)
    (h : getLocDataFile env fuel first selected st = some r) : Depth env fuel locale := by
  rw [getLocDataFile] at h
  cases hd : env.locales.head? with
  | none =>
    rw [List.head?_eq_none_iff] at hd
    simp [hd] at hsel
  | some default =>
    simp only [hd,hsel,if_neg h0] at h
    obtain ⟨st',-,hload⟩ := Option.bind_eq_some_iff.mp h
    exact (loadSection_isSome fuel locale _).mp (by rw [hload]; rfl)

/-- Loading ends for the default locale and, for any other, exactly if the references
from it meet no cycle. -/
theorem getLocDataFile_terminates_iff (env : Env) (first : Bool) {selected : ℕ} {locale : Locale}
    (hsel : env.locales[selected]? = some locale) (st : LocState) :
    (∃ fuel r, getLocDataFile env fuel first selected st = some r) ↔
      selected = 0 ∨ Acyclic env locale := by
  obtain ⟨default,hdefault⟩ : ∃ d, env.locales.head? = some d := by
    cases hl : env.locales with
    | nil => simp [hl] at hsel
    | cons d ls => exact ⟨d,rfl⟩
  have hpop : ∀ fuel, ∃ st', (if first then
      (loadSection env true (fuel + 1) default {st with dialog := []}).map (·.2) else some st) = some st' := by
    intro fuel
    cases first with
    | false => exact ⟨st,rfl⟩
    | true =>
      have hd : (loadSection env true (fuel + 1) default {st with dialog := []}).isSome :=
        loadSection_default ..
      obtain ⟨r,hr⟩ := Option.isSome_iff_exists.mp hd
      exact ⟨r.2,by simp [hr]⟩
  constructor
  · rintro ⟨fuel,r,h⟩
    by_cases h0 : selected = 0
    · exact Or.inl h0
    · exact Or.inr (depth_of_getLocDataFile hsel h0 h).acyclic
  · intro h
    have hfuel : ∃ fuel, selected = 0 ∨ Depth env (fuel + 1) locale := by
      rcases h with h0 | h
      · exact ⟨0,Or.inl h0⟩
      · obtain ⟨n,hn⟩ := h.depth
        exact ⟨n,Or.inr hn.succ⟩
    obtain ⟨fuel,hf⟩ := hfuel
    obtain ⟨st',hst'⟩ := hpop fuel
    refine ⟨fuel + 1,?_⟩
    simp only [getLocDataFile,hdefault,hsel]
    rw [hst',Option.bind_some]
    split
    · exact ⟨_,rfl⟩
    next h0 =>
      exact Option.isSome_iff_exists.mp ((loadSection_isSome _ _ _).mpr (hf.resolve_left h0))

/-- A file of two locales, the second of which names itself as its base. -/
def selfBased : Env where
  file := List.replicate 1020 '#' ++ "\r\nl \"en-US\" \"English\" 0x0409\r\nv 1.0\r\n".toList ++
    "l \"xx-XX\" \"X\" 0x0001\r\nv 1.0\r\nb \"xx-XX\"\r\n".toList
  locales := [⟨"en-US".toList,1050,1057⟩,⟨"xx-XX".toList,1079,1097⟩]
  controlId := fun _ => none
  garbage := fun _ => nul

theorem selfBased_refers : Refers selfBased ⟨"xx-XX".toList,1079,1097⟩ ⟨"xx-XX".toList,1079,1097⟩ :=
  ⟨"b \"xx-XX\"".toList,by decide +kernel,by decide +kernel⟩

theorem getLocDataFile_diverges : ¬ ∃ fuel r, getLocDataFile selfBased fuel true 1 ⟨[],[],0⟩ = some r := by
  rintro ⟨fuel,r,h⟩
  have hdepth : Depth selfBased fuel ⟨"xx-XX".toList,1079,1097⟩ :=
    depth_of_getLocDataFile rfl (by decide) h
  exact hdepth.not_cyclic (.single selfBased_refers)

/-- The same file without the base command. -/
def plainLocales : Env where
  file := List.replicate 1020 '#' ++ "\r\nl \"en-US\" \"English\" 0x0409\r\nv 1.0\r\n".toList ++
    "l \"xx-XX\" \"X\" 0x0001\r\nv 1.0\r\n".toList
  locales := [⟨"en-US".toList,1050,1057⟩,⟨"xx-XX".toList,1079,1086⟩]
  controlId := fun _ => none
  garbage := fun _ => nul

theorem getLocDataFile_terminates_plain :
    ∃ fuel r, getLocDataFile plainLocales fuel true 1 ⟨[],[],0⟩ = some r := by
  refine (getLocDataFile_terminates_iff plainLocales true
    (show plainLocales.locales[1]? = some ⟨"xx-XX".toList,1079,1086⟩ from rfl) ⟨[],[],0⟩).mpr (Or.inr ?_)
  have hnone : ∀ l', ¬ Refers plainLocales ⟨"xx-XX".toList,1079,1086⟩ l' := by
    rintro l' ⟨line,hline,hb⟩
    have hlines : sectionLines plainLocales ⟨"xx-XX".toList,1079,1086⟩ = ["v 1.0".toList] := by decide +kernel
    obtain rfl := List.mem_singleton.mp (hlines ▸ hline)
    have hbase : baseOf plainLocales "v 1.0".toList = none := by decide +kernel
    rw [hbase] at hb
    cases hb
  intro l' hr hcycle
  rcases ReflTransGen.cases_head hr with rfl | ⟨l,hl,-⟩
  · obtain ⟨l,hl,-⟩ := TransGen.head'_iff.mp hcycle
    exact hnone l hl
  · exact hnone l hl

end Loading

end SecureWipeOut.Loc
