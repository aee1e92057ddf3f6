import SecureWipeOut.Regex.Classes
import SecureWipeOut.Regex.ParseSafe
import SecureWipeOut.Regex.Search

/-! # Patterns from their text to their matches

A pattern that is spelled is parsed, compiled and searched as what it says. This is how the labels
of images are looked at for the distributions whose installers need the label of the medium.
-/
namespace SecureWipeOut.Regex
open Relation CodeBlock

section spelled
variable {pattern : List UInt8} {root : Node}

theorem parseContext_spelled (h : Spells .pattern pattern root) {size fuel : ℕ} (hroom : 2 * pattern.length ≤ size)
    (hsize : 0 < size) (hfuel : pattern.length < fuel) :
    ∃ output, parseContext size fuel 0 0 ⟨pattern,[],0⟩ = .ok ⟨[],[root],output⟩ := by
  have habove : Above [] [] ⟨pattern,[],0⟩ := ⟨rfl,fun n hn => absurd hn List.not_mem_nil⟩
  have hsafe := parseContext_safe fuel 0 ⟨pattern,[],0⟩ [] [] habove hfuel
    (by simpa [Context.used] using hroom) hsize
  have hreads : Reads size .pattern pattern root := h.reads
  have hends := hreads 0 [] [] [] (Or.inl ⟨rfl,rfl,rfl⟩) fuel 0
  rw [List.append_nil] at hends
  exact hends.resolve_left hsafe.room

/-- The parser reads every pattern that is spelled. -/
theorem cregexParse_of_spells (h : Spells .pattern pattern root) (hne : pattern ≠ []) :
    cregexParse pattern = .ok root := by
  have hpos := List.length_pos_iff.mpr hne
  obtain ⟨output,hok⟩ : ∃ output, parseContext (estimateNodes pattern) (pattern.length + 1) 0 0
      ⟨pattern,[],0⟩ = .ok ⟨[],[root],output⟩ :=
    parseContext_spelled h (Nat.mul_comm 2 _).le (Nat.mul_pos hpos Nat.two_pos) (Nat.lt_succ_self _)
  rw [cregexParse,hok]
  rfl

theorem cregexParse_valid (h : cregexParse pattern = .ok root) : root.Valid := by
  have hne : pattern ≠ [] := by
    rintro rfl
    cases h
  exact (cregexParse_nonempty hne).holds root h

theorem spells_sample : Spells .pattern [97,42,63,98,124,99]
    (.alternation (.concatenation (.quantifier 0 (-1) false (.character 97)) (.character 98)) (.character 99)) := by
  have hitem : ∀ c : UInt8, isAscii c → c ∉ specials → Spells .item [c] (.character c) := fun c => .character
  have ha := hitem 97 (by decide) (by decide)
  have hb := hitem 98 (by decide) (by decide)
  have hc := hitem 99 (by decide) (by decide)
  have hleft := (ha.lazy .star fun h => by cases h).concatenation (.single hb) (List.cons_ne_nil _ _)
  exact hleft.alternative (.sequence (.single hc))

end spelled

section derivatives

def ascii (s : String) : List UInt8 := s.toList.map fun c => c.toNat.toUInt8

def redhat8Derivative : List (List UInt8) := [
  ascii "^AlmaLinux-[8-9].*",
  ascii "^Fedora.*-3[3-9].*",
  ascii "^CentOS.*-[8-9].*",
  ascii "^Circle.*-[8-9].*",
  ascii "^OL-[8-9].*",
  ascii "^RHEL-[8-9].*",
  ascii "^Rocky-[8-9].*",
  ascii "^MIRACLE-LINUX-[8-9].*"]

/-- A pattern that is not parsed ends the search. -/
def rh8Derivative (label : Text) : List (List UInt8) → Bool
  | [] => false
  | pattern :: patterns =>
    match cregexParse pattern with
    | .error _ => false
    | .ok node =>
      match cregexProgramRun label vmMaxMatches (compileNode node) with
      | some (some _) => true
      | _ => rh8Derivative label patterns

end derivatives

section families

/-- The rest of a text. -/
def Text.rest (t : Text) (i : ℕ) : List UInt8 := (List.range' i (t.length - i)).map t.bytes

def literal (text : List UInt8) (node : Node) : Node :=
  text.foldr (fun c => .concatenation (.character c)) node

/-- Characters that all stand for themselves. -/
def isLiteral (text : List UInt8) : Bool := text.all fun c => 0 < c && c < 128 && !specials.contains c

/-- What a family of labels begins with, with anything between the two parts where there is a gap. -/
structure Family where
  head : List UInt8
  gap : Bool
  dash : List UInt8
  first : UInt8
  last : UInt8

def anything : Node := .quantifier 0 (-1) true .anyCharacter

def Family.version (f : Family) : Node :=
  literal f.dash (.concatenation (.characterClass [f.first,45,f.last,93]) anything)

def Family.node (f : Family) : Node :=
  .concatenation .anchorBegin (literal f.head (if f.gap then .concatenation anything f.version else f.version))

def Family.pattern (f : Family) : List UInt8 :=
  94 :: (f.head ++ ((if f.gap then [46,42] else []) ++ (f.dash ++ [91,f.first,45,f.last,93,46,42])))

def Family.Valid (f : Family) : Prop :=
  isLiteral f.head = true ∧ isLiteral f.dash = true ∧ isAscii f.first ∧ f.first ≠ 92 ∧ f.first ≠ 94 ∧ isAscii f.last ∧
    f.last ≠ 93 ∧ f.first ≤ f.last

/-- The labels of a family. -/
def Family.Labels (f : Family) (label : List UInt8) : Prop :=
  ∃ between version, (f.gap = false → between = []) ∧ f.first ≤ version ∧ version ≤ f.last ∧
    f.head ++ between ++ f.dash ++ [version] <+: label

variable {t : Text} {f : Family}

theorem spells_anything : Spells .item [46,42] anything :=
  .greedy .anyCharacter .star fun h => by cases h

theorem spells_literal {text more : List UInt8} {node : Node} (htext : isLiteral text = true)
    (h : Spells .sequence more node) (hne : more ≠ []) :
    Spells .sequence (text ++ more) (literal text node) := by
  induction text with
  | nil => exact h
  | cons c text ih =>
    rw [isLiteral,List.all_cons,Bool.and_eq_true] at htext
    obtain ⟨hc,htext⟩ := htext
    simp only [Bool.and_eq_true,decide_eq_true_eq,Bool.not_eq_true',List.contains_eq_mem,
      decide_eq_false_iff_not] at hc
    obtain ⟨hc,hplain⟩ := hc
    have hmore : text ++ more ≠ [] := by simp [hne]
    have hitem : Spells .item [c] (.character c) := .character hc hplain
    have hall : Spells .sequence ([c] ++ (text ++ more)) _ := hitem.concatenation (ih htext) hmore
    exact hall

theorem Family.Valid.spells (h : f.Valid) : Spells .pattern f.pattern f.node := by
  obtain ⟨hhead,hdash,hfirst,hfirst',hcaret,hlast,hlast',hle⟩ := h
  have hclass : ClassText true [f.first,45,f.last] [(f.first,f.last)] :=
    .range (.plain hfirst hfirst' fun _ => rfl) hlast hlast' hle .nil
  have hitem : Spells .item [91,f.first,45,f.last,93] (.characterClass [f.first,45,f.last,93]) :=
    .characterClass hclass fun heq => hcaret (Option.some.inj heq)
  have htail : Spells .sequence (f.dash ++ [91,f.first,45,f.last,93,46,42]) f.version :=
    spells_literal hdash (.concatenation hitem (.single spells_anything) (List.cons_ne_nil _ _)) (List.cons_ne_nil _ _)
  have hne : f.dash ++ [91,f.first,45,f.last,93,46,42] ≠ [] := by simp
  refine .sequence (.concatenation .anchorBegin (spells_literal hhead ?_ ?_) (by simp))
  · cases f.gap with
    | true => exact .concatenation spells_anything htail hne
    | false => exact htail
  · simp

theorem Text.rest_of_lt {i : ℕ} (h : i < t.length) : t.rest i = t.bytes i :: t.rest (i + 1) := by
  obtain ⟨n,hn⟩ := Nat.exists_eq_add_of_lt h
  have hlen : t.length - i = n + 1 := by omega
  have hlen' : t.length - (i + 1) = n := by omega
  rw [Text.rest,Text.rest,hlen,hlen',List.range'_succ,List.map_cons]

theorem Text.rest_length : t.rest t.length = [] := by
  rw [Text.rest,Nat.sub_self,List.range'_zero,List.map_nil]

theorem Text.cons_prefix_rest {i : ℕ} (hi : i ≤ t.length) (c : UInt8) (text : List UInt8) :
    c :: text <+: t.rest i ↔ (i < t.length ∧ t.bytes i = c) ∧ text <+: t.rest (i + 1) := by
  rcases Nat.lt_or_eq_of_le hi with hlt | rfl
  · rw [t.rest_of_lt hlt,List.cons_prefix_cons]
    exact ⟨fun h => ⟨⟨hlt,h.1.symm⟩,h.2⟩,fun h => ⟨h.1.2.symm,h.2⟩⟩
  · rw [t.rest_length,List.prefix_nil]
    exact ⟨fun h => absurd h (List.cons_ne_nil _ _),fun h => absurd h.1.1 (Nat.lt_irrefl _)⟩

theorem append_prefix_iff {text more l : List UInt8} :
    text ++ more <+: l ↔ text <+: l ∧ more <+: l.drop text.length := by
  constructor
  · rintro ⟨s,rfl⟩
    rw [List.append_assoc]
    exact ⟨List.prefix_append _ _,by rw [List.drop_left]; exact List.prefix_append _ _⟩
  · rintro ⟨⟨s,rfl⟩,h⟩
    rw [List.drop_left] at h
    exact (List.prefix_append_right_inj text).mpr h

theorem Text.rest_add {i : ℕ} (k : ℕ) (h : i + k ≤ t.length) : t.rest (i + k) = (t.rest i).drop k := by
  induction k generalizing i with
  | zero => rfl
  | succ k ih =>
    have hlt : i < t.length := by omega
    rw [t.rest_of_lt hlt,List.drop_succ_cons,← ih (by omega)]
    congr 1
    omega

theorem Text.length_rest (i : ℕ) : (t.rest i).length = t.length - i := by
  rw [Text.rest,List.length_map,List.length_range']

theorem spans_literal {text : List UInt8} {node : Node} {i j : ℕ} (hi : i ≤ t.length) :
    (literal text node).Spans t i j ↔ text <+: t.rest i ∧ node.Spans t (i + text.length) j := by
  induction text generalizing i with
  | nil => exact ⟨fun h => ⟨List.nil_prefix,h⟩,fun h => h.2⟩
  | cons c text ih =>
    have hlen : i + (c :: text).length = i + 1 + text.length := by
      rw [List.length_cons]
      omega
    rw [t.cons_prefix_rest hi,hlen]
    constructor
    · rintro ⟨k,⟨hlt,hbyte,rfl⟩,hrest⟩
      obtain ⟨hstarts,hspan⟩ := (ih hlt).mp hrest
      exact ⟨⟨⟨hlt,hbyte⟩,hstarts⟩,hspan⟩
    · rintro ⟨⟨⟨hlt,hbyte⟩,hstarts⟩,hspan⟩
      exact ⟨i + 1,⟨hlt,hbyte,rfl⟩,(ih hlt).mpr ⟨hstarts,hspan⟩⟩

theorem spans_anything {i j : ℕ} (hi : i ≤ t.length) : anything.Spans t i j ↔ i ≤ j ∧ j ≤ t.length := by
  constructor
  · intro h
    obtain ⟨y,rfl,hrun⟩ : ∃ y : Data, y.1 = j ∧ anything.Runs t 0 0 (i,fun _ => none) y :=
      Node.Spans.runs anything 0 (i,fun _ => none) j h
    obtain ⟨k,-,hiter⟩ := hrun
    obtain ⟨rfl,hk⟩ := iter_any_iff.mp hiter
    dsimp only at hk ⊢
    omega
  · rintro ⟨hij,hj⟩
    have hskip : iter (Consumes t fun _ => true) (j - i) (i,fun _ => none) (j,fun _ => none) := by
      refine iter_any_iff.mpr ⟨?_,Or.inr ?_⟩
      · rw [Nat.add_sub_cancel' hij]
      · dsimp only
        omega
    have hrun : anything.Runs t 0 0 (i,fun _ => none) (j,fun _ => none) :=
      ⟨j - i,⟨Nat.zero_le _,Or.inl rfl⟩,hskip⟩
    exact hrun.spans

/-- The version is found where the dash and one of its digits stand. -/
theorem spans_version (h : f.Valid) {i : ℕ} (hi : i ≤ t.length) : (∃ j, f.version.Spans t i j) ↔
    ∃ version, f.first ≤ version ∧ version ≤ f.last ∧ f.dash ++ [version] <+: t.rest i := by
  obtain ⟨-,-,hfirst,hfirst',-,hlast,hlast',hle⟩ := h
  have hclass : ClassText true [f.first,45,f.last] [(f.first,f.last)] :=
    .range (.plain hfirst hfirst' fun _ => rfl) hlast hlast' hle .nil
  have hcontains : ∀ c, (charClass [f.first,45,f.last,93]).contains c = true ↔ f.first ≤ c ∧ c ≤ f.last := by
    intro c
    have hall := charClass_contains hclass c
    simpa using hall
  constructor
  · rintro ⟨j,hspan⟩
    obtain ⟨hstarts,k,⟨hlt,hversion,rfl⟩,-⟩ := (spans_literal hi).mp hspan
    obtain ⟨hge,hle'⟩ := (hcontains _).mp hversion
    refine ⟨_,hge,hle',append_prefix_iff.mpr ⟨hstarts,?_⟩⟩
    rw [← t.rest_add _ hlt.le,t.cons_prefix_rest hlt.le]
    exact ⟨⟨hlt,rfl⟩,List.nil_prefix⟩
  · rintro ⟨version,hge,hle',hstarts⟩
    obtain ⟨hdash,hversion⟩ := append_prefix_iff.mp hstarts
    have hbound : i + f.dash.length ≤ t.length := by
      have hlen := hdash.length_le
      rw [t.length_rest] at hlen
      omega
    rw [← t.rest_add _ hbound,t.cons_prefix_rest hbound] at hversion
    obtain ⟨⟨hlt,rfl⟩,-⟩ := hversion
    refine ⟨i + f.dash.length + 1,(spans_literal hi).mpr ⟨hdash,_,⟨hlt,(hcontains _).mpr ⟨hge,hle'⟩,rfl⟩,?_⟩⟩
    exact (spans_anything hlt).mpr ⟨le_rfl,hlt⟩

theorem spans_gap (h : f.Valid) {i : ℕ} (hi : i ≤ t.length) :
    (∃ j, (if f.gap then Node.concatenation anything f.version else f.version).Spans t i j) ↔
      ∃ between version, (f.gap = false → between = []) ∧ f.first ≤ version ∧ version ≤ f.last ∧
        between ++ (f.dash ++ [version]) <+: t.rest i := by
  cases f.gap with
  | false =>
    rw [if_neg Bool.false_ne_true,spans_version h hi]
    constructor
    · rintro ⟨version,hge,hle,hstarts⟩
      exact ⟨[],version,fun _ => rfl,hge,hle,hstarts⟩
    · rintro ⟨between,version,hnone,hge,hle,hstarts⟩
      rw [hnone rfl] at hstarts
      exact ⟨version,hge,hle,hstarts⟩
  | true =>
    rw [if_pos rfl]
    constructor
    · rintro ⟨j,k,hskip,hspan⟩
      obtain ⟨hik,hk⟩ := (spans_anything hi).mp hskip
      obtain ⟨version,hge,hle,hstarts⟩ := (spans_version h hk).mp ⟨j,hspan⟩
      obtain ⟨n,rfl⟩ := Nat.exists_eq_add_of_le hik
      have hlen : ((t.rest i).take n).length = n := by
        rw [List.length_take,t.length_rest]
        omega
      refine ⟨(t.rest i).take n,version,fun h => (nomatch h),hge,hle,append_prefix_iff.mpr
        ⟨List.take_prefix n _,?_⟩⟩
      rwa [hlen,← t.rest_add n hk]
    · rintro ⟨between,version,-,hge,hle,hstarts⟩
      obtain ⟨hbetween,hrest⟩ := append_prefix_iff.mp hstarts
      have hk : i + between.length ≤ t.length := by
        have hlen := hbetween.length_le
        rw [t.length_rest] at hlen
        omega
      rw [← t.rest_add _ hk] at hrest
      obtain ⟨j,hspan⟩ := (spans_version h hk).mpr ⟨version,hge,hle,hrest⟩
      exact ⟨j,i + between.length,(spans_anything hi).mpr ⟨Nat.le_add_right _ _,hk⟩,hspan⟩

theorem exists_spans_iff (h : f.Valid) : (∃ j, f.node.Spans t 0 j) ↔ f.Labels (t.rest 0) := by
  constructor
  · rintro ⟨j,k,⟨-,rfl⟩,hspan⟩
    obtain ⟨hhead,hrest⟩ := (spans_literal (Nat.zero_le _)).mp hspan
    have hk : 0 + f.head.length ≤ t.length := by
      have hlen := hhead.length_le
      rw [t.length_rest] at hlen
      omega
    obtain ⟨between,version,hnone,hge,hle,hstarts⟩ := (spans_gap h hk).mp ⟨j,hrest⟩
    rw [t.rest_add _ hk] at hstarts
    refine ⟨between,version,hnone,hge,hle,?_⟩
    rw [List.append_assoc,List.append_assoc]
    exact append_prefix_iff.mpr ⟨hhead,hstarts⟩
  · rintro ⟨between,version,hnone,hge,hle,hstarts⟩
    rw [List.append_assoc,List.append_assoc] at hstarts
    obtain ⟨hhead,hrest⟩ := append_prefix_iff.mp hstarts
    have hk : 0 + f.head.length ≤ t.length := by
      have hlen := hhead.length_le
      rw [t.length_rest] at hlen
      omega
    have hdrop := t.rest_add f.head.length hk
    rw [← hdrop] at hrest
    obtain ⟨j,hspan⟩ := (spans_gap h hk).mpr ⟨between,version,hnone,hge,hle,hrest⟩
    exact ⟨j,0,⟨rfl,rfl⟩,(spans_literal (Nat.zero_le _)).mpr ⟨hhead,hspan⟩⟩

theorem exists_occurs_iff (h : f.Valid) : (∃ i j, f.node.OccursIn t i j) ↔ f.Labels (t.rest 0) := by
  have hanchored : f.node.isAnchored = true := rfl
  rw [← exists_spans_iff h]
  constructor
  · rintro ⟨i,j,⟨-,hi⟩,hspan⟩
    rw [hi hanchored] at hspan
    exact ⟨j,hspan⟩
  · rintro ⟨j,hspan⟩
    exact ⟨0,j,⟨Nat.zero_le _,fun _ => rfl⟩,hspan⟩

/-- The families of the patterns, in their order. -/
def redhat8Families : List Family := [
  ⟨ascii "AlmaLinux-",false,[],56,57⟩,
  ⟨ascii "Fedora",true,ascii "-3",51,57⟩,
  ⟨ascii "CentOS",true,ascii "-",56,57⟩,
  ⟨ascii "Circle",true,ascii "-",56,57⟩,
  ⟨ascii "OL-",false,[],56,57⟩,
  ⟨ascii "RHEL-",false,[],56,57⟩,
  ⟨ascii "Rocky-",false,[],56,57⟩,
  ⟨ascii "MIRACLE-LINUX-",false,[],56,57⟩]

theorem redhat8Derivative_eq : redhat8Derivative = redhat8Families.map Family.pattern := rfl

theorem redhat8Families_valid : ∀ f ∈ redhat8Families, f.Valid := by
  simp only [redhat8Families,List.forall_mem_cons,List.not_mem_nil,false_implies,implies_true,and_true]
  refine ⟨?_,?_,?_,?_,?_,?_,?_,?_⟩ <;>
    exact ⟨rfl,rfl,by decide,by decide,by decide,by decide,by decide,by decide⟩

end families

end SecureWipeOut.Regex
