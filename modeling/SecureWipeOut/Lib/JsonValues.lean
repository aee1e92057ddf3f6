import SecureWipeOut.Lib.JsonStrings
import Mathlib.Data.List.DropRight

/-! # Values in JSON texts

How members and strings are read, one equation for each form, and where in its text a
string of a value was read. Reading only ever goes on outside of strings.
-/
namespace SecureWipeOut.Json

section Equations
variable {fuel : ℕ} {k s t u w x : List Char} {v : Value}

theorem parseValue_string (hs : Plain s) (ht : skip t = '"' :: (s ++ '"' :: u)) :
    parseValue (fuel + 1) t = some (.string s,u) := by
  rw [parseValue,ht]
  simp only [stringBody_plain hs,Option.map_some]

theorem skip_skip (t : List Char) : skip (skip t) = skip t := by
  unfold skip
  rw [List.dropWhile_idempotent]

theorem parseMembers_skip (fuel : ℕ) (t : List Char) : parseMembers fuel (skip t) = parseMembers fuel t := by
  cases fuel with
  | zero => rfl
  | succ fuel => rw [parseMembers,parseMembers,skip_skip]

theorem parseValue_object (ht : skip t = '{' :: u) (hu : skip u = '"' :: w) :
    parseValue (fuel + 1) t = (parseMembers fuel u).map fun r => (.object (collapse r.1),r.2) := by
  rw [parseValue,ht,← parseMembers_skip fuel u]
  simp only [hu]
  rfl

theorem parseElements_cons (hv : parseValue fuel t = some (v,w)) (hw : skip w = ',' :: x) :
    parseElements (fuel + 1) t = (parseElements fuel x).map fun r => (v :: r.1,r.2) := by
  rw [parseElements,hv,Option.bind_some]
  simp only [hw]

theorem parseElements_last (hv : parseValue fuel t = some (v,w)) (hw : skip w = ']' :: x) :
    parseElements (fuel + 1) t = some ([v],x) := by
  rw [parseElements,hv,Option.bind_some]
  simp only [hw]

theorem parseValue_array (ht : skip t = '[' :: '"' :: u) :
    parseValue (fuel + 1) t = (parseElements fuel ('"' :: u)).map fun r => (.array r.1,r.2) := by
  have hquote : skip ('"' :: u) = '"' :: u := rfl
  rw [parseValue,ht]
  simp only [hquote]
  rfl

theorem parseMembers_cons (hk : Plain k) (ht : skip t = '"' :: (k ++ '"' :: ':' :: u))
    (hv : parseValue fuel u = some (v,w)) (hw : skip w = ',' :: x) :
    parseMembers (fuel + 1) t = (parseMembers fuel x).map fun r => ((k,v) :: r.1,r.2) := by
  have hcolon : skip (':' :: u) = ':' :: u := rfl
  rw [parseMembers,ht]
  simp only [stringBody_plain hk,Option.bind_some,hcolon,hv,hw]

theorem parseMembers_last (hk : Plain k) (ht : skip t = '"' :: (k ++ '"' :: ':' :: u))
    (hv : parseValue fuel u = some (v,w)) (hw : skip w = '}' :: x) :
    parseMembers (fuel + 1) t = some ([(k,v)],x) := by
  have hcolon : skip (':' :: u) = ':' :: u := rfl
  rw [parseMembers,ht]
  simp only [stringBody_plain hk,Option.bind_some,hcolon,hv,hw]

end Equations

section Reading
variable {t u w : List Char}

/-- Reading goes from a text to the rest of it, from outside of strings to outside. -/
def Reads (t u : List Char) : Prop := ∃ x, t = x ++ u ∧ lex .outside x = .outside

theorem Reads.refl (t : List Char) : Reads t t := ⟨[],rfl,rfl⟩

theorem Reads.trans (h : Reads t u) (h' : Reads u w) : Reads t w := by
  obtain ⟨x,rfl,hx⟩ := h
  obtain ⟨y,rfl,hy⟩ := h'
  exact ⟨x ++ y,(List.append_assoc x y w).symm,by rw [lex_append,hx,hy]⟩

theorem reads_unquoted {x : List Char} (hx : '"' ∉ x) (u : List Char) : Reads (x ++ u) u :=
  ⟨x,rfl,(lex_unquoted hx).1⟩

theorem reads_cons {c : Char} (hc : c ≠ '"') (u : List Char) : Reads (c :: u) u :=
  reads_unquoted (x := [c]) (by simpa using hc.symm) u

theorem takeWhile_unquoted {p : Char → Bool} (hp : p '"' = false) (t : List Char) : '"' ∉ t.takeWhile p := by
  intro h
  rw [List.mem_takeWhile_imp h] at hp
  cases hp

theorem reads_dropWhile {p : Char → Bool} (hp : p '"' = false) (t : List Char) : Reads t (t.dropWhile p) := by
  have hreads := reads_unquoted (takeWhile_unquoted hp t) (t.dropWhile p)
  rwa [List.takeWhile_append_dropWhile] at hreads

theorem reads_skip (t : List Char) : Reads t (skip t) := reads_dropWhile rfl t

theorem literals_skip (t : List Char) : literals .outside (skip t) = literals .outside t := by
  obtain ⟨h1,h2⟩ := lex_unquoted (takeWhile_unquoted (p := isBlank) rfl t)
  have htext := literals_append .outside (t.takeWhile isBlank) (t.dropWhile isBlank)
  rw [List.takeWhile_append_dropWhile,h1,h2] at htext
  exact htext.symm

theorem reads_digitRun (t : List Char) : Reads t (digitRun t).2 := reads_dropWhile rfl t

theorem reads_sign (t : List Char) : Reads t (sign t).2 := by
  unfold sign
  split
  · exact reads_cons (by decide) _
  · exact Reads.refl _

theorem reads_anySign (t : List Char) : Reads t (anySign t).2 := by
  unfold anySign
  split
  · exact reads_cons (by decide) _
  · exact reads_sign _

theorem reads_integer {r : List Char × List Char} (h : integer t = some r) : Reads t r.2 := by
  unfold integer at h
  split at h
  · obtain rfl := Option.some.inj h
    exact reads_cons (by decide) _
  · split at h
    · cases h
    · obtain rfl := Option.some.inj h
      exact reads_digitRun _

theorem reads_fraction {r : List Char × List Char} (h : fraction t = some r) : Reads t r.2 := by
  unfold fraction at h
  split at h
  · split at h
    · cases h
    · obtain rfl := Option.some.inj h
      exact (reads_cons (by decide) _).trans (reads_digitRun _)
  · obtain rfl := Option.some.inj h
    exact Reads.refl _

theorem reads_exponent {r : List Char × List Char} (h : exponent t = some r) : Reads t r.2 := by
  unfold exponent at h
  split at h
  · split at h
    next hc =>
      have hquote : ∀ c : Char, c = 'e' ∨ c = 'E' → c ≠ '"' := by
        rintro c (rfl | rfl) <;> decide
      split at h
      · cases h
      · obtain rfl := Option.some.inj h
        exact (reads_cons (hquote _ hc) _).trans ((reads_anySign _).trans (reads_digitRun _))
    next =>
      obtain rfl := Option.some.inj h
      exact Reads.refl _
  · obtain rfl := Option.some.inj h
    exact Reads.refl _

theorem reads_number {r : List Char × List Char} (h : number t = some r) : Reads t r.2 := by
  simp only [number,Option.bind_eq_some_iff,Option.map_eq_some_iff] at h
  obtain ⟨i,hi,f,hf,e,he,rfl⟩ := h
  have hrest := (reads_fraction hf).trans (reads_exponent he)
  exact (reads_sign t).trans ((reads_integer hi).trans hrest)

theorem reads_literal {name : List Char} {v : Value} {r : Value × List Char} (hname : '"' ∉ name)
    (h : literal name v t = some r) : Reads t r.2 := by
  unfold literal at h
  split at h
  next hp =>
    obtain rfl := Option.some.inj h
    obtain ⟨u,rfl⟩ := List.isPrefixOf_iff_prefix.mp hp
    rw [List.drop_left]
    exact reads_unquoted hname u
  next => cases h

theorem reads_scalar {r : Value × List Char} (h : scalar t = some r) : Reads t r.2 := by
  simp only [scalar,Option.or_eq_some_iff,Option.map_eq_some_iff] at h
  rcases h with h | ⟨-,h | ⟨-,h | ⟨-,n,hn,rfl⟩⟩⟩
  · exact reads_literal (by decide) h
  · exact reads_literal (by decide) h
  · exact reads_literal (by decide) h
  · exact reads_number hn

theorem reads_stringBody {r : List Char × List Char} (h : stringBody t = some r) : Reads ('"' :: t) r.2 := by
  obtain ⟨x,rfl,hx,-⟩ := stringBody_spec h
  have hlex := (hx.literal []).1
  exact ⟨'"' :: (x ++ ['"']),by simp,hlex⟩

/-- The character behind the blanks. -/
theorem reads_next {c : Char} (hc : c ≠ '"') (h : skip t = c :: u) : Reads t u := by
  have hreads := reads_skip t
  rw [h] at hreads
  exact hreads.trans (reads_cons hc u)

/-- The string behind the blanks. -/
theorem reads_string {r : List Char × List Char} (h : skip t = '"' :: u) (hr : stringBody u = some r) :
    Reads t r.2 := by
  have hreads := reads_skip t
  rw [h] at hreads
  exact hreads.trans (reads_stringBody hr)

/-- What reading a value, members or elements leaves. -/
theorem parse_reads (fuel : ℕ) : (∀ {t r}, parseValue fuel t = some r → Reads t r.2) ∧
    (∀ {t r}, parseMembers fuel t = some r → Reads t r.2) ∧
    ∀ {t r}, parseElements fuel t = some r → Reads t r.2 := by
  induction fuel with
  | zero => exact ⟨by simp [parseValue],by simp [parseMembers],by simp [parseElements]⟩
  | succ fuel ih =>
    obtain ⟨ihv,ihm,ihe⟩ := ih
    refine ⟨?_,?_,?_⟩
    · intro t r h
      rw [parseValue] at h
      split at h
      next u hu =>
        have hopen := reads_next (by decide) hu
        split at h
        next w hw =>
          obtain rfl := Option.some.inj h
          exact hopen.trans (reads_next (by decide) hw)
        next =>
          obtain ⟨m,hm,rfl⟩ := Option.map_eq_some_iff.mp h
          exact hopen.trans ((reads_skip u).trans (ihm hm))
      next u hu =>
        have hopen := reads_next (by decide) hu
        split at h
        next w hw =>
          obtain rfl := Option.some.inj h
          exact hopen.trans (reads_next (by decide) hw)
        next =>
          obtain ⟨e,he,rfl⟩ := Option.map_eq_some_iff.mp h
          exact hopen.trans ((reads_skip u).trans (ihe he))
      next u hu =>
        obtain ⟨s,hs,rfl⟩ := Option.map_eq_some_iff.mp h
        exact reads_string hu hs
      next => exact (reads_skip t).trans (reads_scalar h)
    · intro t r h
      rw [parseMembers] at h
      split at h
      next u hu =>
        obtain ⟨k,hk,h⟩ := Option.bind_eq_some_iff.mp h
        split at h
        next w hw =>
          obtain ⟨v,hv,h⟩ := Option.bind_eq_some_iff.mp h
          have hvalue := ((reads_string hu hk).trans (reads_next (by decide) hw)).trans (ihv hv)
          split at h
          next x hx =>
            obtain ⟨m,hm,rfl⟩ := Option.map_eq_some_iff.mp h
            have hrest := (reads_next (by decide) hx).trans (ihm hm)
            exact hvalue.trans hrest
          next x hx =>
            obtain rfl := Option.some.inj h
            exact hvalue.trans (reads_next (by decide) hx)
          next => cases h
        next => cases h
      next => cases h
    · intro t r h
      rw [parseElements] at h
      obtain ⟨v,hv,h⟩ := Option.bind_eq_some_iff.mp h
      split at h
      next x hx =>
        obtain ⟨e,he,rfl⟩ := Option.map_eq_some_iff.mp h
        have hrest := (reads_next (by decide) hx).trans (ihe he)
        exact (ihv hv).trans hrest
      next x hx =>
        obtain rfl := Option.some.inj h
        exact (ihv hv).trans (reads_next (by decide) hx)
      next => cases h

end Reading

section Origins

theorem mem_insertMember {ms : List (List Char × Value)} {m x : List Char × Value}
    (h : x ∈ insertMember ms m) : x ∈ ms ∨ x = m := by
  unfold insertMember at h
  split at h
  · obtain ⟨y,hy,rfl⟩ := List.mem_map.mp h
    split
    · exact Or.inr rfl
    · exact Or.inl hy
  · rcases List.mem_append.mp h with h | h
    · exact Or.inl h
    · exact Or.inr (List.mem_singleton.mp h)

theorem mem_foldl_insertMember {ms acc : List (List Char × Value)} {x : List Char × Value}
    (h : x ∈ ms.foldl insertMember acc) : x ∈ acc ∨ x ∈ ms := by
  induction ms generalizing acc with
  | nil => exact Or.inl h
  | cons m ms ih =>
    rcases ih h with h | h
    · rcases mem_insertMember h with h | rfl
      · exact Or.inl h
      · exact Or.inr List.mem_cons_self
    · exact Or.inr (List.mem_cons_of_mem m h)

/-- Members with names of their own stay as they are. -/
theorem collapse_eq_self {ms : List (List Char × Value)} (h : (ms.map Prod.fst).Nodup) : collapse ms = ms := by
  have hfold : ∀ (ms acc : List (List Char × Value)), ((acc ++ ms).map Prod.fst).Nodup →
      ms.foldl insertMember acc = acc ++ ms := by
    intro ms
    induction ms with
    | nil => simp
    | cons m ms ih =>
      intro acc hacc
      have hnone : (acc.any fun x => x.1 == m.1) = false := by
        rw [List.any_eq_false]
        intro x hx heq
        rw [List.map_append,List.map_cons,List.nodup_append] at hacc
        exact hacc.2.2 x.1 (List.mem_map_of_mem hx) m.1 List.mem_cons_self (beq_iff_eq.mp heq)
      rw [List.foldl_cons,insertMember,hnone,if_neg (by decide),ih _ (by simpa using hacc)]
      simp
  exact hfold ms [] h

theorem mem_collapse {ms : List (List Char × Value)} {x : List Char × Value} (h : x ∈ collapse ms) : x ∈ ms := by
  rcases mem_foldl_insertMember h with h | h
  · simp at h
  · exact h

/-- A value read somewhere in a text. -/
def ReadIn (v : Value) (t : List Char) : Prop := ∃ fuel u w, Reads t u ∧ parseValue fuel u = some (v,w)

/-- A value read somewhere in a text behind its name. -/
def NamedIn (name : List Char) (v : Value) (t : List Char) : Prop :=
  ∃ u k w, Reads t ('"' :: u) ∧ stringBody u = some (name,k) ∧ skip k = ':' :: w ∧
    ∃ fuel x, parseValue fuel w = some (v,x)

theorem NamedIn.of_reads {name t u : List Char} {v : Value} (h : NamedIn name v u) (hu : Reads t u) :
    NamedIn name v t := by
  obtain ⟨x,k,w,hx,hp⟩ := h
  exact ⟨x,k,w,hu.trans hx,hp⟩

theorem NamedIn.readIn {name t : List Char} {v : Value} (h : NamedIn name v t) : ReadIn v t := by
  obtain ⟨u,k,w,hu,hk,hw,fuel,x,hv⟩ := h
  exact ⟨fuel,w,x,hu.trans ((reads_stringBody hk).trans (reads_next (by decide) hw)),hv⟩

theorem members_namedIn (fuel : ℕ) {t : List Char} {r : List (List Char × Value) × List Char}
    (h : parseMembers fuel t = some r) : ∀ m ∈ r.1, NamedIn m.1 m.2 t := by
  induction fuel generalizing t r with
  | zero => simp [parseMembers] at h
  | succ fuel ih =>
    rw [parseMembers] at h
    split at h
    next u hu =>
      obtain ⟨k,hk,h⟩ := Option.bind_eq_some_iff.mp h
      split at h
      next w hw =>
        obtain ⟨v,hv,h⟩ := Option.bind_eq_some_iff.mp h
        have hfirst : NamedIn k.1 v.1 t := ⟨u,k.2,w,hu ▸ reads_skip t,hk,hw,fuel,v.2,hv⟩
        split at h
        next x hx =>
          obtain ⟨r',hr',rfl⟩ := Option.map_eq_some_iff.mp h
          have hrest : Reads t x := ((reads_string hu hk).trans (reads_next (by decide) hw)).trans
            (((parse_reads fuel).1 hv).trans (reads_next (by decide) hx))
          intro m hm
          rcases List.mem_cons.mp hm with rfl | hm
          · exact hfirst
          · exact (ih hr' m hm).of_reads hrest
        next x hx =>
          obtain rfl := Option.some.inj h
          intro m hm
          rw [List.mem_singleton.mp hm]
          exact hfirst
        next => cases h
      next => cases h
    next => cases h

theorem parseValue_object_inv {fuel : ℕ} {t w : List Char} {ms : List (List Char × Value)}
    (h : parseValue fuel t = some (.object ms,w)) : ms = [] ∨ ∃ g u r, Reads t u ∧
      parseMembers g u = some r ∧ ms = collapse r.1 := by
  cases fuel with
  | zero => simp [parseValue] at h
  | succ fuel =>
    rw [parseValue] at h
    split at h
    next u hu =>
      split at h
      next =>
        obtain ⟨rfl,rfl⟩ : [] = ms ∧ _ = w := by simpa using h
        exact Or.inl rfl
      next =>
        obtain ⟨r,hr,heq⟩ := Option.map_eq_some_iff.mp h
        have hms := Value.object.inj (Prod.mk.inj heq).1
        exact Or.inr ⟨fuel,_,r,(reads_next (by decide) hu).trans (reads_skip u),hr,hms.symm⟩
    next =>
      split at h
      next => simp at h
      next => simp at h
    next => simp at h
    next =>
      simp only [scalar,literal,Option.or_eq_some_iff,Option.map_eq_some_iff] at h
      rcases h with h | ⟨-,h | ⟨-,h | ⟨-,n,hn,h⟩⟩⟩ <;> simp_all

theorem parseValue_string_inv {fuel : ℕ} {t s w : List Char}
    (h : parseValue fuel t = some (.string s,w)) : ∃ u, skip t = '"' :: u ∧ stringBody u = some (s,w) := by
  cases fuel with
  | zero => simp [parseValue] at h
  | succ fuel =>
    rw [parseValue] at h
    split at h
    next =>
      split at h
      next => simp at h
      next => simp at h
    next =>
      split at h
      next => simp at h
      next => simp at h
    next u hu =>
      obtain ⟨r,hr,heq⟩ := Option.map_eq_some_iff.mp h
      obtain ⟨hs,rfl⟩ := Prod.mk.inj heq
      refine ⟨u,hu,?_⟩
      rw [hr,← Value.string.inj hs]
    next =>
      simp only [scalar,literal,Option.or_eq_some_iff,Option.map_eq_some_iff] at h
      rcases h with h | ⟨-,h | ⟨-,h | ⟨-,n,hn,h⟩⟩⟩ <;> simp_all

theorem readIn_of_parseJson {t : List Char} {v : Value} (h : parseJson t = some v) : ReadIn v t := by
  obtain ⟨r,hr,h⟩ := Option.bind_eq_some_iff.mp h
  split at h
  · obtain rfl := Option.some.inj h
    exact ⟨_,t,r.2,Reads.refl t,hr⟩
  · cases h

/-- No string is open at the end of a text that is valid. -/
theorem lex_of_parseJson {t : List Char} {v : Value} (h : parseJson t = some v) : lex .outside t = .outside := by
  obtain ⟨r,hr,h⟩ := Option.bind_eq_some_iff.mp h
  split at h
  next hblank =>
    obtain ⟨x,hx,hlex⟩ := ((parse_reads _).1 hr).trans (reads_skip r.2)
    rw [hblank,List.append_nil] at hx
    rw [hx,hlex]
  next => cases h

/-- A member of an object was read behind its name where the object was. -/
theorem ReadIn.member {ms : List (List Char × Value)} {m : List Char × Value} {t : List Char}
    (h : ReadIn (.object ms) t) (hm : m ∈ ms) : NamedIn m.1 m.2 t := by
  obtain ⟨fuel,u,w,hu,hp⟩ := h
  rcases parseValue_object_inv hp with rfl | ⟨g,x,r,hx,hr,rfl⟩
  · simp at hm
  · exact (members_namedIn g hr m (mem_collapse hm)).of_reads (hu.trans hx)

/-- The literals of a string and of its name follow each other in the text. -/
theorem NamedIn.string_literal {name s t : List Char} (h : NamedIn name (.string s) t) :
    ∃ before k r after, literals .outside t = before ++ k :: r :: after ∧ (Plain k → k = name) ∧
      s.countP special ≤ r.count '\\' ∧ ('\\' ∈ r → s.length < r.length) := by
  obtain ⟨u,x,w,⟨b,rfl,hb⟩,hk,hx,fuel,y,hv⟩ := h
  obtain ⟨z,hz,hs⟩ := parseValue_string_inv hv
  obtain ⟨k,rfl,hkraw,-⟩ := stringBody_spec hk
  obtain ⟨r,rfl,hr,hcount,hlength⟩ := stringBody_spec hs
  refine ⟨literals .outside b,k,r,literals .outside y,?_,?_,hcount,hlength⟩
  · have hcolon : literals .outside x = r :: literals .outside y := by
      rw [← literals_skip x,hx]
      change literals .outside w = _
      rw [← literals_skip w,hz,(hr.literal y).2]
    rw [literals_append,hb,(hkraw.literal x).2,hcolon]
  · intro hplain
    rw [stringBody_plain hplain] at hk
    exact (Prod.mk.inj (Option.some.inj hk)).1

end Origins

end SecureWipeOut.Json
