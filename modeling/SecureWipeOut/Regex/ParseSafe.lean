import SecureWipeOut.Regex.Parse

/-! # What the parser writes and reads

Every character of a pattern pays for two nodes: its own one, and the one that joins it to what
is in front of it. Only an empty pattern needs a node that no character pays for.
-/
namespace SecureWipeOut.Regex

section safe
variable {α β : Type}

/-- Nothing is overrun, and only a pattern that ends in a backslash is read behind its end. -/
structure Safe (sp : List UInt8) (r : Except Failure α) (P : α → Prop) : Prop where
  room : r ≠ .error .overrun
  inside : r = .error .overread → [92] <:+ sp
  holds : ∀ a, r = .ok a → P a

variable {sp sp' : List UInt8} {r : Except Failure α} {P Q : α → Prop} {R : β → Prop}

theorem Safe.ok {a : α} (h : P a) : Safe sp (.ok a) P where
  room := by simp
  inside h := by cases h
  holds b hb := by
    cases hb
    exact h

theorem Safe.rejected : Safe sp (.error .rejected) P where
  room := by simp
  inside h := by cases h
  holds b hb := by cases hb

theorem Safe.imp (h : Safe sp' r P) (hsp : sp' <:+ sp) (hPQ : ∀ a, P a → Q a) : Safe sp r Q where
  room := h.room
  inside hr := (h.inside hr).trans hsp
  holds a ha := hPQ a (h.holds a ha)

theorem Safe.bind {f : α → Except Failure β} (h : Safe sp r P) (hf : ∀ a, P a → Safe sp (f a) R) :
    Safe sp (r >>= f) R := by
  cases r with
  | error e => exact ⟨fun he => h.room (by cases he; rfl),fun he => h.inside (by cases he; rfl),
      fun b hb => by cases hb⟩
  | ok a => exact hf a (h.holds a rfl)

end safe

section nodes
variable {size : ℕ} {context : Context} {base items : List Node}

/-- The nodes of the buffer that are in use. -/
def Context.used (context : Context) : ℕ := context.stack.length + context.output

/-- Valid items above the bottom. -/
structure Above (base items : List Node) (context : Context) : Prop where
  stack : context.stack = items ++ base
  valid : ∀ node ∈ items, node.Valid

theorem Above.length (h : Above base items context) : context.stack.length = items.length + base.length := by
  rw [h.stack,List.length_append]

theorem push_safe (sp : List UInt8) (node : Node) (h : context.used < size) :
    Safe sp (push size context node) fun c => c = { context with stack := node :: context.stack } := by
  unfold Context.used at h
  rw [push,if_pos h]
  exact .ok rfl

theorem Above.push (h : Above base items context) (sp : List UInt8) {node : Node} (hnode : node.Valid)
    (hroom : context.used < size) : Safe sp (push size context node) fun c =>
      Above base (node :: items) c ∧ c.used = context.used + 1 ∧ c.sp = context.sp := by
  refine (push_safe sp node hroom).imp List.suffix_rfl ?_
  rintro c rfl
  refine ⟨⟨by rw [h.stack,List.cons_append],List.forall_mem_cons.mpr ⟨hnode,h.valid⟩⟩,?_,rfl⟩
  simp only [Context.used,List.length_cons]
  omega

theorem Above.consume {node : Node} (h : Above base (node :: items) context) (sp : List UInt8) :
    Safe sp (consume context) fun r => r.1 = node ∧ Above base items r.2 ∧ r.2.used = context.used ∧
      r.2.sp = context.sp := by
  have hstack := h.stack
  rw [Regex.consume]
  cases hcase : context.stack with
  | nil => simp [hcase] at hstack
  | cons top rest =>
    rw [hcase,List.cons_append,List.cons.injEq] at hstack
    refine .ok ⟨hstack.1,⟨hstack.2,fun n hn => h.valid n (List.mem_cons_of_mem _ hn)⟩,?_,rfl⟩
    simp only [Context.used,hcase,List.length_cons]
    omega

theorem joinAll_safe (sp : List UInt8) {top : Node} (h : Above base (top :: items) context)
    (hroom : context.used + items.length ≤ size) :
    Safe sp (joinAll size items.length context) fun c => ∃ node : Node, Above base [node] c ∧
      c.used = context.used + items.length ∧ c.sp = context.sp := by
  induction items generalizing context top with
  | nil => exact .ok ⟨top,h,rfl,rfl⟩
  | cons next items ih =>
    rw [List.length_cons] at hroom ⊢
    rw [joinAll]
    refine (h.consume sp).bind ?_
    rintro ⟨right,c⟩ ⟨hright,hc,hused,hsp⟩
    refine (hc.consume sp).bind ?_
    rintro ⟨left,c'⟩ ⟨hleft,hc',hused',hsp'⟩
    dsimp only at hright hc hused hsp hleft hc' hused' hsp'
    have hvalid : (Node.concatenation left right).Valid :=
      ⟨hleft ▸ hc.valid next List.mem_cons_self,hright ▸ h.valid top List.mem_cons_self⟩
    refine (hc'.push sp hvalid (by omega)).bind ?_
    rintro c'' ⟨hc'',hused'',hsp''⟩
    refine (ih hc'' (by omega)).imp List.suffix_rfl ?_
    rintro d ⟨node,hd,hdused,hdsp⟩
    exact ⟨node,hd,by omega,by rw [hdsp,hsp'',hsp',hsp]⟩

/-- The items become one node, which is the empty one if there are none. -/
theorem concatenate_safe (sp : List UInt8) (h : Above base items context)
    (hroom : context.used + items.length ≤ size) (hempty : context.used < size) :
    Safe sp (concatenate size context base.length) fun c => ∃ node : Node, Above base [node] c ∧
      c.sp = context.sp ∧ (items = [] → node = .epsilon ∧ c.used = context.used + 1) ∧
      (items ≠ [] → c.used + 1 = context.used + items.length) := by
  rw [concatenate,h.stack,List.length_append]
  cases items with
  | nil =>
    rw [if_pos (by simp)]
    have hvalid : Node.epsilon.Valid := trivial
    refine (h.push sp hvalid hempty).imp List.suffix_rfl ?_
    rintro c ⟨hc,hused,hsp⟩
    exact ⟨.epsilon,hc,hsp,fun _ => ⟨rfl,hused⟩,fun hne => absurd rfl hne⟩
  | cons top items =>
    rw [List.length_cons] at hroom ⊢
    have hcount : items.length + 1 + base.length - 1 - base.length = items.length := by omega
    rw [if_neg (by omega),hcount]
    refine (joinAll_safe sp h (by omega)).imp List.suffix_rfl ?_
    rintro c ⟨node,hc,hused,hsp⟩
    exact ⟨node,hc,hsp,fun hnil => absurd hnil (List.cons_ne_nil _ _),fun _ => by omega⟩

end nodes

section tokens
variable {size : ℕ} {context : Context} {base items : List Node} {sp : List UInt8}

theorem drop_suffix_of_suffix {n : ℕ} {l : List UInt8} (h : l <:+ sp) : l.drop n <:+ sp :=
  (List.drop_suffix n l).trans h

/-- The class is scanned up to somewhere in front of the end of the pattern. -/
theorem scanCharClass_safe (fuel : ℕ) (first : Bool) (l : List UInt8) (hl : l <:+ sp) (hfuel : l.length < fuel) :
    Safe sp (scanCharClass fuel first l) fun rest => rest <:+ l := by
  induction fuel generalizing first l with
  | zero => exact absurd hfuel (Nat.not_lt_zero _)
  | succ fuel ih =>
    cases l with
    | nil => exact .rejected
    | cons c l =>
      have htail : l <:+ sp := (List.suffix_cons c l).trans hl
      have hlen : l.length < fuel := Nat.lt_of_succ_lt_succ hfuel
      have hgo : ∀ (b : Bool) (l' : List UInt8), l' <:+ l →
          Safe sp (scanCharClass fuel b l') fun rest => rest <:+ c :: l := fun b l' hl' =>
        (ih b l' (hl'.trans htail) (hl'.length_le.trans_lt hlen)).imp List.suffix_rfl fun rest hrest =>
          (hrest.trans hl').trans (List.suffix_cons c l)
      rw [scanCharClass]
      split
      · exact .ok (List.suffix_cons c l)
      split
      · next hlast =>
        simp only [Bool.and_eq_true,decide_eq_true_eq] at hlast
        obtain ⟨rfl,rfl⟩ := hlast
        exact ⟨by simp,fun _ => hl,fun a ha => by cases ha⟩
      dsimp only
      have hnext : (if c = 92 then l.drop 1 else l) <:+ l := by
        split
        · exact List.drop_suffix 1 l
        · exact List.suffix_rfl
      generalize (if c = 92 then l.drop 1 else l) = l' at hnext ⊢
      generalize (if c = 92 then charAt l 0 else c) = ch
      split
      · split
        · exact .rejected
        · exact hgo false _ (drop_suffix_of_suffix hnext)
      · exact hgo false _ hnext

variable (base items context) in
/-- What one character with what belongs to it does: it pays for the nodes that it adds. -/
structure Paid (c : Context) : Prop where
  above : ∃ items', items' ≠ [] ∧ Above base items' c ∧
    c.used + items'.length ≤ context.used + items.length + 2
  sp : c.sp <:+ context.sp

theorem Paid.of_suffix {rest : List UInt8} {c : Context} (h : Paid { context with sp := rest } base items c)
    (hrest : rest <:+ context.sp) : Paid context base items c :=
  ⟨h.above,h.sp.trans hrest⟩

theorem push_paid (h : Above base items context) {node : Node} (hnode : node.Valid)
    (hroom : context.used + items.length + 2 ≤ size) :
    Safe sp (push size context node) (Paid context base items) := by
  refine (h.push sp hnode (by omega)).imp List.suffix_rfl ?_
  rintro c ⟨hc,hused,heq⟩
  refine ⟨⟨node :: items,List.cons_ne_nil _ _,hc,?_⟩,heq ▸ List.suffix_rfl⟩
  rw [List.length_cons]
  omega

theorem parseCharClass_paid (h : Above base items context)
    (hroom : context.used + items.length + 2 ≤ size) (hsp : context.sp <:+ sp) :
    Safe sp (parseCharClass size context) (Paid context base items) := by
  rw [parseCharClass]
  dsimp only
  generalize hstart : (if charAt context.sp 0 = 94 then context.sp.drop 1 else context.sp) = start
  have hfrom : start <:+ context.sp := by
    rw [← hstart]
    split
    · exact List.drop_suffix 1 _
    · exact List.suffix_rfl
  refine (scanCharClass_safe (start.length + 1) true start (hfrom.trans hsp) (Nat.lt_succ_self _)).bind
    fun rest hrest => ?_
  have habove : Above base items { context with sp := rest } := ⟨h.stack,h.valid⟩
  refine (push_paid habove ?_ hroom).imp List.suffix_rfl fun c hc => hc.of_suffix (hrest.trans hfrom)
  split <;> exact trivial

theorem quantify_paid {node : Node} (h : Above base (node :: items) context) {nmin : ℕ} {nmax : ℤ}
    (hbounds : nmax = -1 ∨ (nmin : ℤ) ≤ nmax) (hroom : context.used + (node :: items).length + 2 ≤ size) :
    Safe sp (quantify size context nmin nmax) (Paid context base (node :: items)) := by
  rw [quantify]
  dsimp only
  generalize hrest : (if charAt context.sp 0 ≠ 63 then context.sp else context.sp.drop 1) = rest
  have hafter : rest <:+ context.sp := by
    rw [← hrest]
    split
    · exact List.suffix_rfl
    · exact List.drop_suffix 1 _
  have habove : Above base (node :: items) { context with sp := rest } := ⟨h.stack,h.valid⟩
  rw [List.length_cons] at hroom
  refine (habove.consume sp).bind ?_
  rintro ⟨quantified,c⟩ ⟨rfl,hc,hused,hcsp⟩
  dsimp only at hc hused hcsp
  have hused' : c.used = context.used := hused
  have hvalid : ∀ greedy, (Node.quantifier nmin nmax greedy quantified).Valid := fun _ =>
    ⟨hbounds,h.valid quantified List.mem_cons_self⟩
  refine (hc.push sp (hvalid _) (by omega)).imp List.suffix_rfl ?_
  rintro d ⟨hd,hdused,hdsp⟩
  refine ⟨⟨_,List.cons_ne_nil _ _,hd,?_⟩,?_⟩
  · rw [List.length_cons,List.length_cons]
    omega
  · rw [hdsp,hcsp]
    exact hafter

theorem parseInterval_valid {start rest : List UInt8} {nmin : ℕ} {nmax : ℤ}
    (h : parseInterval start = some (nmin,nmax,rest)) :
    (nmax = -1 ∨ (nmin : ℤ) ≤ nmax) ∧ rest <:+ start := by
  have hdigits : start.dropWhile isDigit <:+ start := List.dropWhile_suffix _
  rw [parseInterval] at h
  dsimp only at h
  split_ifs at h with hcomma hopen hbad hclosed
  · simp only [Option.some.injEq,Prod.mk.injEq] at h
    obtain ⟨-,rfl,rfl⟩ := h
    exact ⟨Or.inl rfl,drop_suffix_of_suffix (drop_suffix_of_suffix hdigits)⟩
  · simp only [Option.some.injEq,Prod.mk.injEq] at h
    obtain ⟨rfl,rfl,rfl⟩ := h
    refine ⟨Or.inr ?_,?_⟩
    · exact_mod_cast Nat.not_lt.mp fun hlt => hbad (Or.inr (Or.inr hlt))
    · exact drop_suffix_of_suffix ((List.dropWhile_suffix _).trans (drop_suffix_of_suffix hdigits))
  · simp only [Option.some.injEq,Prod.mk.injEq] at h
    obtain ⟨rfl,rfl,rfl⟩ := h
    exact ⟨Or.inr le_rfl,drop_suffix_of_suffix hdigits⟩

/-- With nothing above the bottom a quantifier stands for itself. -/
theorem quantifier_paid (h : Above base items context) (ch : UInt8) {nmin : ℕ} {nmax : ℤ}
    (hbounds : nmax = -1 ∨ (nmin : ℤ) ≤ nmax) (hroom : context.used + items.length + 2 ≤ size) :
    Safe sp (quantifier size base.length context ch nmin nmax) (Paid context base items) := by
  have hlen := h.length
  rw [quantifier]
  cases items with
  | nil =>
    rw [if_pos (by rw [hlen,List.length_nil,Nat.zero_add])]
    exact push_paid h trivial hroom
  | cons node items =>
    rw [List.length_cons] at hlen
    rw [if_neg (by omega)]
    exact quantify_paid h hbounds hroom

theorem interval_paid (h : Above base items context) (hroom : context.used + items.length + 2 ≤ size) :
    Safe sp (interval size base.length context) (Paid context base items) := by
  have hlen := h.length
  rw [interval]
  cases items with
  | nil =>
    rw [if_pos (by rw [hlen,List.length_nil,Nat.zero_add])]
    exact push_paid h trivial hroom
  | cons node items =>
    rw [List.length_cons] at hlen
    rw [if_neg (by omega)]
    cases hbounds : parseInterval context.sp with
    | none => exact push_paid h trivial hroom
    | some bounds =>
      obtain ⟨nmin,nmax,rest⟩ := bounds
      obtain ⟨hvalid,hrest⟩ := parseInterval_valid hbounds
      have habove : Above base (node :: items) { context with sp := rest } := ⟨h.stack,h.valid⟩
      exact (quantify_paid habove hvalid hroom).imp List.suffix_rfl fun c hc => hc.of_suffix hrest

theorem parseOne_paid (h : Above base items context) (ch : UInt8)
    (hroom : context.used + items.length + 2 ≤ size) (hsp : ch :: context.sp <:+ sp) :
    Safe sp (parseOne size base.length ch context) (Paid context base items) := by
  have htail : context.sp <:+ sp := (List.suffix_cons ch _).trans hsp
  unfold parseOne
  split_ifs with hescape
  · cases hnext : context.sp with
    | nil =>
      rw [hescape,hnext] at hsp
      exact ⟨by simp,fun _ => hsp,fun a ha => by cases ha⟩
    | cons c rest =>
      have habove : Above base items { context with sp := rest } := ⟨h.stack,h.valid⟩
      have hnode : (Node.character c).Valid := trivial
      refine (push_paid habove hnode hroom).imp List.suffix_rfl fun d hd => hd.of_suffix ?_
      rw [hnext]
      exact List.suffix_cons c rest
  · exact push_paid h trivial hroom
  · exact parseCharClass_paid h hroom htail
  · exact quantifier_paid h ch (Or.inr (by decide)) hroom
  · exact quantifier_paid h ch (Or.inl rfl) hroom
  · exact quantifier_paid h ch (Or.inl rfl) hroom
  · exact interval_paid h hroom
  · exact push_paid h trivial hroom
  · exact push_paid h trivial hroom
  · exact push_paid h trivial hroom

end tokens

section patterns
variable {size depth : ℕ} {context : Context} {base items : List Node} {sp : List UInt8}

theorem Node.eq_epsilon {node : Node} (h : node.isEpsilon = true) : node = .epsilon := by
  cases node <;> first | rfl | cases h

theorem Above.drop {top : Node} (h : Above base (top :: items) context) :
    Above base items (drop context) ∧ (drop context).used + 1 = context.used := by
  refine ⟨⟨?_,fun n hn => h.valid n (List.mem_cons_of_mem _ hn)⟩,?_⟩
  · rw [Regex.drop,h.stack]
    rfl
  · simp only [Regex.drop,Context.used,h.stack,List.cons_append,List.tail_cons,List.length_cons]
    omega

/-- Two alternatives become one node. -/
theorem alternate_safe {left right : Node} (h : Above base [right,left] context)
    (hroom : right.isEpsilon = false → context.used < size) (hle : context.used ≤ size) :
    Safe sp (alternate size context) fun c => ∃ node : Node, Above base [node] c ∧ c.sp = context.sp ∧
      c.used ≤ context.used + 1 ∧ (right.isEpsilon = true → c.used ≤ context.used) ∧
      (left.isEpsilon = true → right.isEpsilon = true → c.used + 1 = context.used) := by
  have hstack : context.stack = right :: left :: base := h.stack
  have hright := h.valid right List.mem_cons_self
  have hleft := h.valid left (List.mem_cons_of_mem _ List.mem_cons_self)
  have hpos : 2 ≤ context.used := by
    simp only [Context.used,hstack,List.length_cons]
    omega
  obtain ⟨hdrop,hdropped⟩ := h.drop
  rw [alternate,hstack]
  dsimp only
  cases hl : left.isEpsilon <;> cases hr : right.isEpsilon <;>
    simp only [Bool.and_self,Bool.and_true,Bool.and_false,if_true,Bool.false_eq_true,if_false]
  · refine (h.consume sp).bind ?_
    rintro ⟨right',c⟩ ⟨heq,hc,hused,hsp⟩
    refine (hc.consume sp).bind ?_
    rintro ⟨left',c'⟩ ⟨heq',hc',hused',hsp'⟩
    dsimp only at heq hc hused hsp heq' hc' hused' hsp'
    have hvalid : (Node.alternation left' right').Valid := ⟨heq' ▸ hleft,heq ▸ hright⟩
    have hlt := hroom hr
    refine (hc'.push sp hvalid (by omega)).imp List.suffix_rfl ?_
    rintro d ⟨hd,hdused,hdsp⟩
    exact ⟨_,hd,by rw [hdsp,hsp',hsp],by omega,fun h => by simp at h,fun h => by simp at h⟩
  · refine (hdrop.consume sp).bind ?_
    rintro ⟨left',c⟩ ⟨heq,hc,hused,hsp⟩
    dsimp only at heq hc hused hsp
    have hvalid : (Node.quantifier 0 1 true left').Valid := ⟨Or.inr (by decide),heq ▸ hleft⟩
    refine (hc.push sp hvalid (by omega)).imp List.suffix_rfl ?_
    rintro d ⟨hd,hdused,hdsp⟩
    exact ⟨_,hd,by rw [hdsp,hsp,Regex.drop],by omega,fun _ => by omega,fun h => by simp at h⟩
  · refine (h.consume sp).bind ?_
    rintro ⟨right',c⟩ ⟨heq,hc,hused,hsp⟩
    dsimp only at heq hc hused hsp
    obtain ⟨hc',hdropped'⟩ := hc.drop
    have hlt := hroom hr
    have hvalid : (Node.quantifier 0 1 true right').Valid := ⟨Or.inr (by decide),heq ▸ hright⟩
    refine (hc'.push sp hvalid (by omega)).imp List.suffix_rfl ?_
    rintro d ⟨hd,hdused,hdsp⟩
    exact ⟨_,hd,by rw [hdsp,Regex.drop,hsp],by omega,fun _ => by omega,fun _ h => by simp at h⟩
  · exact .ok ⟨left,hdrop,rfl,by omega,fun _ => by omega,fun _ _ => hdropped⟩

variable (depth context base items) in
/-- One node stands above the bottom, paid for by the characters unless there is neither. -/
structure Parsed (c : Context) : Prop where
  above : ∃ node : Node, Above base [node] c ∧
    (c.used + 2 * c.sp.length + 1 ≤ context.used + items.length + 2 * context.sp.length ∨
      (depth = 0 ∧ items = [] ∧ context.sp = [] ∧ node = .epsilon ∧ c.used = context.used + 1))
  sp : c.sp <:+ context.sp

theorem concatenate_parsed (h : Above base items context) (rest : List UInt8)
    (hroom : context.used + items.length + 2 * rest.length ≤ size) (hempty : context.used < size)
    (hrest : context.sp <:+ rest) (hsp : context.sp.length < rest.length ∨ depth = 0 ∧ rest = []) :
    Safe sp (concatenate size context base.length)
      (Parsed depth { context with sp := rest } base items) := by
  refine (concatenate_safe sp h (by omega) hempty).imp List.suffix_rfl ?_
  rintro c ⟨node,hc,hcsp,hnone,hsome⟩
  have hle := hrest.length_le
  refine ⟨⟨node,hc,?_⟩,hcsp ▸ hrest⟩
  change c.used + 2 * c.sp.length + 1 ≤ context.used + items.length + 2 * rest.length ∨
    (depth = 0 ∧ items = [] ∧ rest = [] ∧ node = .epsilon ∧ c.used = context.used + 1)
  rw [hcsp]
  by_cases hitems : items = []
  · obtain ⟨hnode,hused⟩ := hnone hitems
    rcases hsp with hlt | ⟨hdepth,hnil⟩
    · left
      omega
    · exact Or.inr ⟨hdepth,hitems,hnil,hnode,hused⟩
  · have hused := hsome hitems
    left
    omega

theorem Parsed.of_next {items' : List Node} {c d : Context} (h : Parsed depth c base items' d) (hne : items' ≠ [])
    (hle : c.used + items'.length + 2 * c.sp.length ≤ context.used + items.length + 2 * context.sp.length)
    (hsp : c.sp <:+ context.sp) : Parsed depth context base items d := by
  obtain ⟨⟨node,hd,hbound⟩,hdsp⟩ := h
  refine ⟨⟨node,hd,Or.inl ?_⟩,hdsp.trans hsp⟩
  rcases hbound with hbound | ⟨-,hnil,-⟩
  · exact hbound.trans hle
  · exact absurd hnil hne

/-- Both alternatives are parsed and joined. -/
theorem alternatives_parsed {ch : UInt8} {rest : List UInt8} {fuel : ℕ}
    (hsp : context.sp = ch :: rest) (h : Above base items context)
    (hroom : context.used + items.length + 2 * context.sp.length ≤ size)
    (ih : ∀ (context : Context) (base : List Node), Above base [] context → context.sp = rest →
      context.used + 2 * context.sp.length ≤ size → context.used < size →
      Safe context.sp (parseContext size fuel depth base.length context) (Parsed depth context base [])) :
    Safe context.sp (do
      let context ← concatenate size { context with sp := rest } base.length
      let context ← parseContext size fuel depth context.stack.length context
      alternate size context) (Parsed depth context base items) := by
  have habove : Above base items { context with sp := rest } := ⟨h.stack,h.valid⟩
  have htail : rest <:+ context.sp := hsp ▸ List.suffix_cons ch rest
  have hlen : context.sp.length = rest.length + 1 := by rw [hsp,List.length_cons]
  have hused : Context.used { context with sp := rest } = context.used := rfl
  rw [hlen] at hroom
  refine (concatenate_safe _ habove (by omega) (by omega)).bind ?_
  rintro c ⟨left,hc,hcsp,hnone,hsome⟩
  rw [hused] at hnone hsome
  have hcount : c.used + 1 ≤ context.used + items.length + 2 ∧
      (items = [] → left = .epsilon) ∧ (items ≠ [] → c.used + 1 = context.used + items.length) := by
    refine ⟨?_,fun hitems => (hnone hitems).1,hsome⟩
    by_cases hitems : items = []
    · have hu := (hnone hitems).2
      omega
    · have hu := hsome hitems
      omega
  obtain ⟨hcused,hepsilon,hitems⟩ := hcount
  have hbase : Above (left :: base) [] c := ⟨hc.stack,fun n hn => absurd hn List.not_mem_nil⟩
  have hpos : items ≠ [] → 0 < items.length := List.length_pos_iff.mpr
  have hcsp' : c.sp = rest := hcsp
  have hcstack : c.stack.length = (left :: base).length := hbase.length.trans (Nat.zero_add _)
  rw [hcstack]
  refine ((ih c (left :: base) hbase hcsp' (by rw [hcsp']; omega) (by omega)).imp
    (hcsp' ▸ htail) fun _ hd => hd).bind ?_
  rintro d ⟨⟨right,hd,hbound⟩,hdsp⟩
  have hboth : Above base [right,left] d := ⟨hd.stack,fun n hn => by
    rcases List.mem_cons.mp hn with rfl | hn
    · exact hd.valid n List.mem_cons_self
    · exact hc.valid n hn⟩
  rw [hcsp',List.length_nil] at hbound
  have hdle : d.used ≤ size ∧ (right.isEpsilon = false → d.used < size) := by
    rcases hbound with hlt | ⟨-,-,-,rfl,heq⟩
    · exact ⟨by omega,fun _ => by omega⟩
    · exact ⟨by omega,fun hfalse => by cases hfalse⟩
  refine (alternate_safe hboth hdle.2 hdle.1).imp List.suffix_rfl ?_
  rintro e ⟨node,he,hesp,hmost,hright,hneither⟩
  refine ⟨⟨node,he,Or.inl ?_⟩,hesp ▸ hdsp.trans (hcsp' ▸ htail)⟩
  rw [hesp,hlen]
  rcases hbound with hlt | ⟨-,-,hnil,rfl,heq⟩
  · omega
  · have hdnil : d.sp.length = 0 := by
      have hle := hdsp.length_le
      rw [hcsp',hnil] at hle
      exact Nat.le_zero.mp hle
    have hsame := hright rfl
    by_cases hempty : items = []
    · have hone := hneither (hepsilon hempty ▸ rfl) rfl
      omega
    · have hone := hitems hempty
      have hmore := hpos hempty
      omega

/-- With room for its characters the parser never leaves the buffer. -/
theorem parseContext_safe (fuel depth : ℕ) (context : Context) (base items : List Node)
    (h : Above base items context) (hfuel : context.sp.length < fuel)
    (hroom : context.used + items.length + 2 * context.sp.length ≤ size) (hempty : context.used < size) :
    Safe context.sp (parseContext size fuel depth base.length context) (Parsed depth context base items) := by
  induction fuel generalizing depth context base items with
  | zero => exact absurd hfuel (Nat.not_lt_zero _)
  | succ fuel ih =>
    obtain ⟨sp,stack,output⟩ := context
    rw [parseContext]
    cases sp with
    | nil =>
      dsimp only
      split
      · next hdepth => exact concatenate_parsed h [] hroom hempty List.suffix_rfl (Or.inr ⟨hdepth,rfl⟩)
      · exact .rejected
    | cons ch sp =>
      have hlen : sp.length < fuel := Nat.lt_of_succ_lt_succ hfuel
      have habove : Above base items ⟨sp,stack,output⟩ := ⟨h.stack,h.valid⟩
      have hcount : Context.used ⟨ch :: sp,stack,output⟩ + items.length + 2 * (ch :: sp).length =
          Context.used ⟨sp,stack,output⟩ + items.length + 2 * sp.length + 2 := rfl
      have hnext : ∀ (c : Context) (items' : List Node), Above base items' c → items' ≠ [] → c.sp <:+ sp →
          c.used + items'.length + 2 * c.sp.length ≤
            Context.used ⟨sp,stack,output⟩ + items.length + 2 * sp.length + 2 →
          Safe (ch :: sp) (parseContext size fuel depth base.length c)
            (Parsed depth ⟨ch :: sp,stack,output⟩ base items) := by
        intro c items' hc hne hcsp hle
        have hpos := List.length_pos_iff.mpr hne
        refine (ih depth c base items' hc (hcsp.length_le.trans_lt hlen) (hle.trans (hcount ▸ hroom))
          (by rw [hcount] at hroom; omega)).imp (hcsp.trans (List.suffix_cons ch sp)) fun d hd => ?_
        exact hd.of_next hne hle (hcsp.trans (List.suffix_cons ch sp))
      dsimp only
      split_ifs
      · have hsp : (Context.mk (ch :: sp) stack output).sp = ch :: sp := rfl
        exact alternatives_parsed hsp h hroom fun context base h' hsp hroom' hempty' =>
          ih depth context base [] h' (hsp ▸ hlen) (by rwa [List.length_nil,Nat.add_zero]) hempty'
      · have hinner : Above (items ++ base) [] ⟨sp,stack,output⟩ :=
          ⟨h.stack,fun n hn => absurd hn List.not_mem_nil⟩
        have hbottom : stack.length = (items ++ base).length := congrArg List.length h.stack
        rw [hbottom]
        have hroom' : Context.used ⟨sp,stack,output⟩ + items.length + 2 * sp.length + 2 ≤ size := hroom
        refine ((ih (depth + 1) ⟨sp,stack,output⟩ _ [] hinner hlen (by simp only [List.length_nil]; omega)
          (by omega)).imp (List.suffix_cons ch sp) fun _ hc => hc).bind ?_
        rintro c ⟨⟨captured,hc,hbound⟩,hcsp⟩
        dsimp only at hcsp hbound
        rw [List.length_nil] at hbound
        have hgroup : Above base (captured :: items) c := ⟨by rw [hc.stack]; simp,fun n hn => by
          rcases List.mem_cons.mp hn with rfl | hn
          · exact hc.valid n List.mem_cons_self
          · exact h.valid n hn⟩
        refine (hgroup.consume _).bind ?_
        rintro ⟨captured',c'⟩ ⟨heq,hc',hused',hsp'⟩
        dsimp only at heq hc' hused' hsp'
        have hvalid : (Node.capture captured').Valid := heq ▸ hgroup.valid captured List.mem_cons_self
        have hcused := hbound.resolve_right fun hnone => Nat.succ_ne_zero depth hnone.1
        refine (hc'.push _ hvalid (by omega)).bind ?_
        rintro d ⟨hd,hdused,hdsp⟩
        have hdsp' : d.sp = c.sp := hdsp.trans hsp'
        refine hnext d _ hd (List.cons_ne_nil _ _) (hdsp' ▸ hcsp) ?_
        rw [hdsp',List.length_cons]
        omega
      · exact concatenate_parsed habove (ch :: sp) hroom hempty (List.suffix_cons ch sp)
          (Or.inl (Nat.lt_succ_self _))
      · exact .rejected
      · have hroom' : Context.used ⟨sp,stack,output⟩ + items.length + 2 * sp.length + 2 ≤ size := hroom
        refine (parseOne_paid habove ch (by omega) List.suffix_rfl).bind ?_
        rintro c ⟨⟨items',hne,hc,hcused⟩,hcsp⟩
        have hle : c.sp.length ≤ sp.length := hcsp.length_le
        exact hnext c items' hc hne hcsp (by omega)

end patterns

theorem cregexParse_nonempty {pattern : List UInt8} (h : pattern ≠ []) :
    Safe pattern (cregexParse pattern) Node.Valid := by
  have hpos := List.length_pos_iff.mpr h
  have habove : Above [] [] ⟨pattern,[],0⟩ := ⟨rfl,fun n hn => absurd hn List.not_mem_nil⟩
  rw [cregexParse]
  refine (parseContext_safe (pattern.length + 1) 0 ⟨pattern,[],0⟩ [] [] habove (Nat.lt_succ_self _)
    (by simp [Context.used,estimateNodes,Nat.mul_comm]) (by simp [Context.used,estimateNodes,hpos])).bind ?_
  rintro c ⟨⟨root,hc,-⟩,-⟩
  rw [hc.stack]
  exact .ok (hc.valid root List.mem_cons_self)

end SecureWipeOut.Regex
