import SecureWipeOut.Lib.CText
import SecureWipeOut.Lib.Search

/-! # Queries about the files of a media check

`is_in_md5sum` tells whether a path is listed in the text of md5sum.txt. The search begins where
the one before has ended, and goes on at the beginning of the text, which is cut for it.
-/
namespace SecureWipeOut.Md5sum
open CText Search

section Model

/-- The variables `md5sum_data`, with `md5sum_size` as its length, and `md5sum_pos`. -/
structure State where
  data : Buf
  pos : ℕ

def lineEnd (c : Char) : Bool := c == '\n' || c == '\r' || c == nul

/-- The loop over partial matches, from a place in the string. -/
def search (buf path : Buf) (pos : ℕ) : ℕ × Option ℕ :=
  match path with
  | [] => (pos,some pos)
  | c :: rest => seek (fun p => lineEnd (charAt buf (p + path.length))) c rest (cstr buf 0) pos

/-- The second search, where the text is cut. -/
def searchCut (buf path : Buf) (nulPos : ℕ) : Option ℕ × Buf :=
  let c2 := charAt buf nulPos
  let cut := buf.set nulPos nul
  ((search cut path 0).2,cut.set nulPos c2)

/-- Whether the path is found, and the path and the state left behind; `created` tells that the
file is written anew. -/
def isInMd5sum (created : Bool) (path : List Char) (s : State) : Bool × List Char × State :=
  if created then (true,path,s)
  else if s.data.isEmpty then (false,path,s)
  else
    let c := path.take 2
    let path := ' ' :: '.' :: path.drop 2
    let r := search s.data path s.pos
    let w := if r.2.isNone && r.1 != 0 then searchCut s.data path r.1 else (r.2,s.data)
    (w.1.isSome,c ++ path.drop 2,⟨w.2,match w.1 with | some p => p + path.length | none => s.pos⟩)

end Model

section Specification

/-- A path `X:/p`. -/
structure Query where
  drive : Char
  p : List Char

def Query.path (q : Query) : List Char := q.drive :: ':' :: '/' :: q.p

def Query.needle (q : Query) : List Char := ' ' :: '.' :: '/' :: q.p

/-- The string of the text. -/
def State.text (s : State) : List Char := cstr s.data 0

/-- The place of a path that a line end or the end of the text follows. -/
def Listed (text needle : List Char) (i : ℕ) : Prop :=
  Occurs needle text i ∧ ∀ c ∈ (text.drop (i + needle.length)).head?, c = '\n' ∨ c = '\r'

/-- What is asked of the answer to a query. -/
structure Answers (s : State) (q : Query) : Prop where
  found : (isInMd5sum false q.path s).1 = true ↔ ∃ i, Listed s.text q.needle i
  path : (isInMd5sum false q.path s).2.1 = q.path
  data : (isInMd5sum false q.path s).2.2.data = s.data

/-- A name of one line whose places do not overlap and which is listed, or else does not stand
behind the place where the search begins. -/
structure Settled (s : State) (q : Query) : Prop where
  line : ∀ c ∈ q.p, c ≠ '\n' ∧ c ≠ '\r'
  apart : Apart q.needle s.text
  listed : (∃ i, Listed s.text q.needle i) ∨ ∀ i, s.pos ≤ i → ¬Occurs q.needle s.text i

/-- The states that queries about a text lead to when each of them is settled. -/
inductive Reached (data : Buf) : State → Prop
  | start : Reached data ⟨data,0⟩
  | query {s : State} (q : Query) : Reached data s → Settled s q → Reached data (isInMd5sum false q.path s).2.2

end Specification

section Restored

theorem set_restore (buf : Buf) (i : ℕ) (c : Char) : (buf.set i c).set i (charAt buf i) = buf := by
  rw [List.set_set]
  rcases Nat.lt_or_ge i buf.length with h | h
  · rw [charAt,List.getD_eq_getElem?_getD,List.getElem?_eq_getElem h,Option.getD_some,List.set_getElem_self]
  · exact List.set_eq_of_length_le h

theorem searchCut_snd (buf path : Buf) (nulPos : ℕ) : (searchCut buf path nulPos).2 = buf := set_restore buf nulPos nul

/-- The text is restored whatever is asked. -/
theorem isInMd5sum_data (created : Bool) (path : List Char) (s : State) :
    (isInMd5sum created path s).2.2.data = s.data := by
  unfold isInMd5sum
  split
  · rfl
  · split
    · rfl
    · dsimp only
      split
      · exact searchCut_snd _ _ _
      · rfl

theorem isInMd5sum_path (created : Bool) (path : List Char) (s : State) :
    (isInMd5sum created path s).2.1 = path := by
  unfold isInMd5sum
  split
  · rfl
  · split
    · rfl
    · exact List.take_append_drop 2 path

end Restored

end SecureWipeOut.Md5sum
