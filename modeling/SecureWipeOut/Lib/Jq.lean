import SecureWipeOut.Lib.JsonValues

/-! # Filters of jq

A filter is applied to the values that a text holds one after the other. The results are
printed in the layout of jq, with every element and member on a line of its own; strings
may be printed raw. How numbers are printed is a parameter.
-/
namespace SecureWipeOut.Json

section Printing

def hexDigit (n : ℕ) : Char := "0123456789abcdef".toList.getD n '0'

def escapeChar (c : Char) : List Char :=
  if c = '"' then ['\\','"']
  else if c = '\\' then ['\\','\\']
  else if c = Char.ofNat 8 then ['\\','b']
  else if c = '\t' then ['\\','t']
  else if c = '\n' then ['\\','n']
  else if c = Char.ofNat 12 then ['\\','f']
  else if c = '\r' then ['\\','r']
  else if c.toNat < 32 ∨ c.toNat = 127 then
    ['\\','u','0','0',hexDigit (c.toNat / 16),hexDigit (c.toNat % 16)]
  else [c]

def printString (s : List Char) : List Char := '"' :: (s.flatMap escapeChar ++ ['"'])

def lineBreak (indent : ℕ) : List Char := '\n' :: List.replicate (2 * indent) ' '

variable (numeral : List Char → List Char)

mutual

def Value.print (indent : ℕ) : Value → List Char
  | .null => "null".toList
  | .bool b => if b then "true".toList else "false".toList
  | .number text => numeral text
  | .string s => printString s
  | .array [] => ['[',']']
  | .array (v :: vs) => '[' :: lineBreak (indent + 1) ++ v.print (indent + 1) ++
      printElements (indent + 1) vs ++ lineBreak indent ++ [']']
  | .object [] => ['{','}']
  | .object ((k,v) :: ms) => '{' :: lineBreak (indent + 1) ++ printString k ++ ": ".toList ++
      v.print (indent + 1) ++ printMembers (indent + 1) ms ++ lineBreak indent ++ ['}']

def printElements (indent : ℕ) : List Value → List Char
  | [] => []
  | v :: vs => ',' :: lineBreak indent ++ v.print indent ++ printElements indent vs

def printMembers (indent : ℕ) : List (List Char × Value) → List Char
  | [] => []
  | (k,v) :: ms => ',' :: lineBreak indent ++ printString k ++ ": ".toList ++ v.print indent ++
      printMembers indent ms

end

/-- With the option `-r` strings are printed as they are. -/
def Value.printRaw : Value → List Char
  | .string s => s
  | v => v.print numeral 0

end Printing

section Filters

/-- The filter `.name`; every member of null is null. -/
def Value.index (name : List Char) : Value → Option Value
  | .null => some .null
  | .object ms => some (((ms.find? fun m => m.1 == name).map fun m => m.2).getD .null)
  | _ => none

/-- The assignment `.name = v`. -/
def Value.setIndex (name : List Char) (v : Value) : Value → Option Value
  | .null => some (.object [(name,v)])
  | .object ms => some (.object (insertMember ms (name,v)))
  | _ => none

theorem index_of_mem {ms : List (List Char × Value)} {name : List Char} {v : Value}
    (h : (ms.map Prod.fst).Nodup) (hmem : (name,v) ∈ ms) :
    (Value.object (collapse ms)).index name = some v := by
  have hfind : (ms.find? fun m => m.1 == name) = some (name,v) := by
    induction ms with
    | nil => cases hmem
    | cons m ms ih =>
      rw [List.map_cons,List.nodup_cons] at h
      rcases List.mem_cons.mp hmem with rfl | hmem
      · exact List.find?_cons_of_pos (beq_self_eq_true name)
      · have hne : ¬ (m.1 == name) = true := by
          intro heq
          rw [beq_iff_eq.mp heq] at h
          exact h.1 (List.mem_map_of_mem (f := Prod.fst) hmem)
        exact (List.find?_cons_of_neg (p := fun x : List Char × Value => x.1 == name) hne).trans (ih h.2 hmem)
  rw [collapse_eq_self h,Value.index,hfind]
  rfl

def inputsFrom : ℕ → List Char → List Value
  | 0, _ => []
  | fuel + 1, t =>
    if skip t = [] then []
    else match parseValue (t.length + 1) t with
      | none => []
      | some r => r.1 :: inputsFrom fuel r.2

/-- The values that a text holds, up to what is not valid. -/
def inputs (t : List Char) : List Value := inputsFrom (t.length + 1) t

/-- What is printed for a text. -/
def runFilter (print : Value → List Char) (filter : Value → Option Value) (t : List Char) : List Char :=
  (inputs t).flatMap fun v => ((filter v).map fun x => print x ++ ['\n']).getD []

theorem inputs_of_parseJson {t : List Char} {v : Value} (h : parseJson t = some v) : inputs t = [v] := by
  obtain ⟨r,hr,h⟩ := Option.bind_eq_some_iff.mp h
  split at h
  next hblank =>
    obtain rfl := Option.some.inj h
    have hskip : skip t ≠ [] := by
      intro hnil
      rw [parseValue,hnil] at hr
      exact absurd hr (by simp [scalar,literal,number,integer,sign,digitRun])
    have hend : ∀ fuel, inputsFrom fuel r.2 = [] := by
      intro fuel
      cases fuel with
      | zero => rfl
      | succ fuel => rw [inputsFrom,if_pos hblank]
    rw [inputs,inputsFrom,if_neg hskip,hr]
    change r.1 :: inputsFrom t.length r.2 = _
    rw [hend]
  next => cases h

theorem runFilter_of_parseJson {t : List Char} {v : Value} {print : Value → List Char}
    {filter : Value → Option Value} (h : parseJson t = some v) :
    runFilter print filter t = ((filter v).map fun x => print x ++ ['\n']).getD [] := by
  rw [runFilter,inputs_of_parseJson h,List.flatMap_singleton]

/-- A member that is not null was read behind its name. -/
theorem ReadIn.index {v x : Value} {t name : List Char} (h : ReadIn v t) (hx : v.index name = some x) :
    x = .null ∨ NamedIn name x t := by
  cases v with
  | null => exact Or.inl (Option.some.inj hx).symm
  | object ms =>
    obtain rfl := Option.some.inj hx
    cases hfind : ms.find? fun m => m.1 == name with
    | none => exact Or.inl rfl
    | some m =>
      have hname : m.1 = name := by simpa using List.find?_some hfind
      have hmember := h.member (List.mem_of_find?_eq_some hfind)
      rw [hname] at hmember
      exact Or.inr hmember
  | _ => cases hx

/-- A member of a member. -/
theorem ReadIn.path {v x : Value} {t object name : List Char} (h : ReadIn v t)
    (hx : (v.index object).bind (Value.index name) = some x) : x = .null ∨ NamedIn name x t := by
  obtain ⟨w,hw,hx⟩ := Option.bind_eq_some_iff.mp hx
  rcases h.index hw with rfl | hw
  · exact Or.inl (Option.some.inj hx).symm
  · exact hw.readIn.index hx

end Filters

end SecureWipeOut.Json
