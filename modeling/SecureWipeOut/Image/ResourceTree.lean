import SecureWipeOut.Lib.Bytes

/-! # Resources of an executable

The model of `FindResourceRva`, which searches a tree of resources in memory for a name and
returns the first data behind it. Addresses are counted from the root of the tree. Beside it
stand the trees themselves, and what it means that a memory holds one.
-/
namespace SecureWipeOut.ResourceTree
open Bytes

/-- The bytes of a text of 16-bit characters. -/
def textBytes (text : List UInt16) : List UInt8 := text.flatMap fun c => wordBytes c.toNat

section Code

/-- The static flag, and what has been written to the length. -/
structure State where
  found : Bool
  len : Option ℕ
  deriving DecidableEq

variable (mem : ℕ → UInt8) (name : List UInt16)

/-- The comparison with the name of an entry, of as many bytes as the name has characters. -/
def nameEquals (entry : ℕ) : Bool :=
  let dirString := readDword mem entry % 2 ^ 31
  readWord mem dirString == name.length &&
    slice mem (dirString + 2) name.length == (textBytes name).take name.length

/-- The loop over the entries of a directory, with the number of those left. -/
def entryLoop (recurse : ℕ → State → Option (ℕ × State)) (dir named : ℕ) :
    ℕ → ℕ → State → Option (ℕ × State)
  | 0, _, s => some (0,s)
  | left + 1, i, s =>
    let entry := dir + 16 + 8 * i
    if s.found = false ∧ i < named ∧ nameEquals mem name entry = false then
      entryLoop recurse dir named left (i + 1) s
    else
      let s := if s.found = false ∧ i < named then { s with found := true } else s
      let offset := readDword mem (entry + 4)
      if 2 ^ 31 ≤ offset then
        (recurse (offset - 2 ^ 31) s).bind fun r =>
          if r.1 ≠ 0 then some r else entryLoop recurse dir named left (i + 1) r.2
      else if s.found = true then
        some (readDword mem offset,{ s with len := some (readDword mem (offset + 4)) })
      else entryLoop recurse dir named left (i + 1) s

/-- The search in a directory; none if the recursion does not end within the fuel. -/
def findResourceRva : ℕ → ℕ → State → Option (ℕ × State)
  | 0, _, _ => none
  | fuel + 1, dir, s =>
    let s := if dir = 0 then { s with found := false } else s
    let named := readWord mem (dir + 12)
    entryLoop mem name (findResourceRva fuel) dir named (named + readWord mem (dir + 14)) 0 s

end Code

section Trees

inductive Key where
  | name (text : List UInt16)
  | id (n : ℕ)
  deriving DecidableEq

def Key.isName : Key → Bool
  | .name _ => true
  | .id _ => false

/-- The entries of a directory from one on: data with their address and size, or a directory. -/
inductive Directory where
  | done
  | leaf (key : Key) (rva size : ℕ) (rest : Directory)
  | sub (key : Key) (children rest : Directory)

namespace Directory

def count : Directory → ℕ
  | done => 0
  | leaf _ _ _ rest => rest.count + 1
  | sub _ _ rest => rest.count + 1

def nameCount : Directory → ℕ
  | done => 0
  | leaf key _ _ rest => rest.nameCount + if key.isName then 1 else 0
  | sub key _ rest => rest.nameCount + if key.isName then 1 else 0

def depth : Directory → ℕ
  | done => 0
  | leaf _ _ _ rest => rest.depth
  | sub _ children rest => max (children.depth + 1) rest.depth

/-- Names stand in front of numbers, and no data have the address 0. -/
def WellFormed : Directory → Prop
  | done => True
  | leaf key rva _ rest => rva ≠ 0 ∧ (key.isName = false → rest.nameCount = 0) ∧ rest.WellFormed
  | sub key children rest => (key.isName = false → rest.nameCount = 0) ∧ children.WellFormed ∧ rest.WellFormed

end Directory

def KeyAt (mem : ℕ → UInt8) (a : ℕ) : Key → Prop
  | .name text => ∃ off < 2 ^ 31, readDword mem a = 2 ^ 31 + off ∧ readWord mem off = text.length ∧
      Holds mem (off + 2) (textBytes text)
  | .id n => n < 2 ^ 31 ∧ readDword mem a = n

/-- The memory has the entries at an address; no directory in them is the root. -/
def EntriesAt (mem : ℕ → UInt8) : ℕ → Directory → Prop
  | _, .done => True
  | a, .leaf key rva size rest => KeyAt mem a key ∧
      (∃ off < 2 ^ 31, readDword mem (a + 4) = off ∧ readDword mem off = rva ∧ readDword mem (off + 4) = size) ∧
      EntriesAt mem (a + 8) rest
  | a, .sub key children rest => KeyAt mem a key ∧
      (∃ off < 2 ^ 31, off ≠ 0 ∧ readDword mem (a + 4) = 2 ^ 31 + off ∧
        readWord mem (off + 12) = children.nameCount ∧
        readWord mem (off + 12) + readWord mem (off + 14) = children.count ∧
        EntriesAt mem (off + 16) children) ∧
      EntriesAt mem (a + 8) rest

def DirectoryAt (mem : ℕ → UInt8) (a : ℕ) (d : Directory) : Prop :=
  readWord mem (a + 12) = d.nameCount ∧ readWord mem (a + 12) + readWord mem (a + 14) = d.count ∧
    EntriesAt mem (a + 16) d

/-- An entry with the keys that lead to it, its own one last. -/
structure Item where
  path : List Key
  data : Option (ℕ × ℕ)
  deriving DecidableEq

def Item.below (key : Key) (i : Item) : Item := ⟨key :: i.path,i.data⟩

/-- All entries, every directory in front of what is in it. -/
def Directory.items : Directory → List Item
  | done => []
  | leaf key rva size rest => ⟨[key],some (rva,size)⟩ :: rest.items
  | sub key children rest => ⟨[key],none⟩ :: (children.items.map (Item.below key) ++ rest.items)

/-- What the comparison takes for the name: as many characters, and the same ones in the first
half of the bytes. -/
def takenFor (name text : List UInt16) : Bool :=
  text.length == name.length && (textBytes text).take name.length == (textBytes name).take name.length

/-- Only numbers lead to the entry, and its own name is taken for the one looked for. -/
def opens (name : List UInt16) : List Key → Bool
  | [.name text] => takenFor name text
  | .id _ :: path => opens name path
  | _ => false

/-- An address other than 0 is returned exactly if the tree has an entry of the name, and then
it is that of data at or below such an entry, as is the length. -/
def Found (mem : ℕ → UInt8) (name : List UInt16) (d : Directory) (s : State) : Prop :=
  ∃ r, (∃ n, ∀ fuel ≥ n, findResourceRva mem name fuel 0 s = some r) ∧
    (r.1 ≠ 0 ↔ ∃ i ∈ d.items, Key.name name ∈ i.path) ∧
    (r.1 ≠ 0 → ∃ size, r.2.len = some size ∧
      ∃ i ∈ d.items, Key.name name ∈ i.path ∧ i.data = some (r.1,size))

/-- The first data at or behind the first entry that opens are those of an entry at or below one
of the name; if there are none, no entry has the name. -/
def Meets (name : List UInt16) (d : Directory) : Prop :=
  match (d.items.dropWhile fun i => !opens name i.path).findSome? Item.data with
  | none => ∀ i ∈ d.items, Key.name name ∉ i.path
  | some v => ∃ i ∈ d.items, Key.name name ∈ i.path ∧ i.data = some v

end Trees

end SecureWipeOut.ResourceTree
