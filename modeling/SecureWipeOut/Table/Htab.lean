import SecureWipeOut.Lib.Loop
import SecureWipeOut.Lib.CInt

/-! # The string hash table

The model of `htab_create` and `htab_hash`. A C string is its bytes before the
terminating NUL. The loops of the source run on explicit fuel, `none` meaning that
it was used up; memory allocation is an input. Index zero of the table is never
used, since `used` is zero exactly for a free entry.
-/
namespace SecureWipeOut.Htab
open CInt Loop

abbrev CString := {bytes : List UInt8 // 0 ∉ bytes}

structure HtabEntry where
  used : ℕ
  str : Option CString
deriving DecidableEq

structure HtabTable where
  table : List HtabEntry
  size : ℕ
  filled : ℕ
deriving DecidableEq

/-- The state before `htab_create`; an empty list is the `NULL` table. -/
def htabEmpty : HtabTable := ⟨[],0,0⟩

def isprimeStep (number divider : ℕ) : ℕ ⊕ Bool :=
  if dword (divider * divider) < number ∧ number % divider ≠ 0 then .inl (dword (divider + 2))
  else .inr (number % divider ≠ 0)

def isprime (fuel number : ℕ) : Option Bool := run (isprimeStep number) fuel 3

def nelStep (fuel nel : ℕ) : ℕ ⊕ Option ℕ :=
  match isprime fuel nel with
  | none => .inr none
  | some true => .inr (some nel)
  | some false => .inl (dword (nel + 2))

/-- The `while(!isprime(nel)) nel += 2` loop. -/
def firstPrime (fuel nel : ℕ) : Option ℕ := (run (nelStep fuel) fuel nel).join

def htabCreate (fuel : ℕ) (calloc : Bool) (nel : ℕ) (htab : HtabTable) :
    Option (Bool × HtabTable) :=
  if htab.table ≠ [] then some (false,htab)
  else
    (firstPrime fuel (nel ||| 1)).map fun size =>
      if calloc then (true,⟨List.replicate (size + 1) ⟨0,none⟩,size,0⟩)
      else (false,⟨[],size,0⟩)

/-- A byte as a signed `char`, converted to `uint32_t`. -/
def charToDword (c : UInt8) : ℕ := if c.toNat < 128 then c.toNat else 2 ^ 32 - 256 + c.toNat

/-- The sdbm hash of the string, never zero. -/
def sdbm (str : CString) : ℕ :=
  let r := str.val.foldl
    (fun r c => dsub (dword (charToDword c + r * 2 ^ 6 + r * 2 ^ 16)) r) 0
  if r = 0 then 1 else r

def hval (size : ℕ) (str : CString) : ℕ :=
  let h := sdbm str % size
  if h = 0 then 1 else h

def hval2 (size : ℕ) (str : CString) : ℕ := 1 + hval size str % (size - 2)

def entry (htab : HtabTable) (idx : ℕ) : HtabEntry := htab.table.getD idx ⟨0,none⟩

/-- What `safe_strcmp` compares for a `NULL` string. -/
def nullText : CString := ⟨[60,78,85,76,76,62],by decide⟩

def sameEntry (htab : HtabTable) (str : CString) (idx : ℕ) : Bool :=
  (entry htab idx).used = hval htab.size str ∧ str = (entry htab idx).str.getD nullText

/-- How the search leaves: the string was there, or `idx` is where it goes. -/
inductive Search where
  | existing (idx : ℕ)
  | newEntry (idx : ℕ)
deriving DecidableEq

def nextIdx (size d idx : ℕ) : ℕ := if idx ≤ d then dsub (dword (size + idx)) d else idx - d

/-- One turn of the `do … while` loop. -/
def probeStep (htab : HtabTable) (str : CString) (idx : ℕ) : ℕ ⊕ Search :=
  let idx := nextIdx htab.size (hval2 htab.size str) idx
  if idx = hval htab.size str then .inr (.newEntry idx)
  else if sameEntry htab str idx then .inr (.existing idx)
  else if (entry htab idx).used ≠ 0 then .inl idx
  else .inr (.newEntry idx)

def search (fuel : ℕ) (htab : HtabTable) (str : CString) : Option Search :=
  let idx := hval htab.size str
  if (entry htab idx).used ≠ 0 then
    if sameEntry htab str idx then some (.existing idx)
    else run (probeStep htab str) fuel idx
  else some (.newEntry idx)

/-- The returned index and the table afterwards. -/
def htabHash (fuel : ℕ) (malloc : Bool) (str : Option CString) (htab : HtabTable) :
    Option (ℕ × HtabTable) :=
  match str with
  | none => some (0,htab)
  | some str =>
    if htab.table = [] then some (0,htab)
    else
      (search fuel htab str).map fun
        | .existing idx => (idx,htab)
        | .newEntry idx =>
          if ¬ htab.filled < htab.size then (0,htab)
          else if malloc then
            (idx,⟨htab.table.set idx ⟨hval htab.size str,some str⟩,htab.size,dword (htab.filled + 1)⟩)
          else (0,⟨htab.table.set idx ⟨hval htab.size str,none⟩,htab.size,htab.filled⟩)

/-- A sequence of insertions: the indices returned and the table afterwards. -/
def insertions (fuel : ℕ) (htab : HtabTable) : List CString → Option (List ℕ × HtabTable)
  | [] => some ([],htab)
  | str :: strs =>
    (htabHash fuel true (some str) htab).bind fun r =>
      (insertions fuel r.2 strs).map fun q => (r.1 :: q.1,q.2)

end SecureWipeOut.Htab
