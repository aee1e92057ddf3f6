import SecureWipeOut.Image.ResourceTree
import Mathlib

/-! # What the search for a resource finds

The search in memory is a search in the tree that the memory holds, the static flag included.
That search is described by the list of all entries: once an entry opens, the first data from
it on are returned, wherever they stand.
-/
namespace SecureWipeOut.ResourceTree
open Bytes

section Search

def Key.taken (name : List UInt16) : Key → Bool
  | .name text => takenFor name text
  | .id _ => false

def Key.skipped (name : List UInt16) : Key → Bool
  | .name text => !takenFor name text
  | .id _ => false

/-- The search in a tree, with the flag before and after it. -/
def search (name : List UInt16) : Directory → Bool → Option (ℕ × ℕ) × Bool
  | .done, found => (none,found)
  | .leaf key rva size rest, found =>
    if (found || key.taken name) = true then (some (rva,size),true) else search name rest found
  | .sub key children rest, found =>
    if (!found && key.skipped name) = true then search name rest found
    else
      let r := search name children (found || key.taken name)
      if r.1.isSome = true then r else search name rest r.2

/-- What the search in a tree leaves in the variables of the code. -/
def result (r : Option (ℕ × ℕ) × Bool) (len : Option ℕ) : ℕ × State :=
  match r.1 with
  | none => (0,⟨r.2,len⟩)
  | some v => (v.1,⟨r.2,some v.2⟩)

end Search

section Memory
variable {mem : ℕ → UInt8} {name : List UInt16}

theorem length_textBytes (text : List UInt16) : (textBytes text).length = 2 * text.length := by
  induction text with
  | nil => rfl
  | cons c text ih =>
    rw [textBytes,List.flatMap_cons,List.length_append,length_wordBytes,← textBytes,ih,List.length_cons]
    omega

theorem nameEquals_eq {a : ℕ} {text : List UInt16} (h : KeyAt mem a (.name text)) :
    nameEquals mem name a = takenFor name text := by
  obtain ⟨off,hoff,hread,hlen,htext⟩ := h
  have hplace : readDword mem a % 2 ^ 31 = off := by
    rw [hread,Nat.add_mod_left,Nat.mod_eq_of_lt hoff]
  rw [nameEquals,hplace,hlen,takenFor]
  by_cases heq : text.length = name.length
  · have hsplit : textBytes text = (textBytes text).take name.length ++ (textBytes text).drop name.length :=
      (List.take_append_drop _ _).symm
    have hhalf : slice mem (off + 2) name.length = (textBytes text).take name.length := by
      rw [hsplit] at htext
      refine (holds_append.mp htext).1.slice_eq ?_
      rw [List.length_take,length_textBytes]
      omega
    rw [hhalf]
  · rw [beq_false_of_ne heq,Bool.false_and,Bool.false_and]

theorem entryLoop_head {recurse : ℕ → State → Option (ℕ × State)} {dir named left i : ℕ} {key : Key} (s : State)
    (hkey : KeyAt mem (dir + 16 + 8 * i) key) (hi : i < named ↔ key.isName = true) :
    entryLoop mem name recurse dir named (left + 1) i s =
      if (!s.found && key.skipped name) = true then entryLoop mem name recurse dir named left (i + 1) s
      else
        let s' : State := ⟨s.found || key.taken name,s.len⟩
        let offset := readDword mem (dir + 16 + 8 * i + 4)
        if 2 ^ 31 ≤ offset then
          (recurse (offset - 2 ^ 31) s').bind fun r =>
            if r.1 ≠ 0 then some r else entryLoop mem name recurse dir named left (i + 1) r.2
        else if s'.found = true then
          some (readDword mem offset,{ s' with len := some (readDword mem (offset + 4)) })
        else entryLoop mem name recurse dir named left (i + 1) s' := by
  obtain ⟨found,len⟩ := s
  rw [entryLoop]
  cases key with
  | name text =>
    have hlt : i < named := hi.mpr rfl
    cases found <;> cases htaken : takenFor name text <;>
      simp [nameEquals_eq hkey,hlt,htaken,Key.skipped,Key.taken]
  | id n =>
    have hge : ¬i < named := fun hlt => Bool.false_ne_true (hi.mp hlt)
    cases found <;> simp [hge,Key.skipped,Key.taken]

theorem search_data_ne_zero {d : Directory} (h : d.WellFormed) {found : Bool} {v : ℕ × ℕ}
    (hv : (search name d found).1 = some v) : v.1 ≠ 0 := by
  induction d generalizing found with
  | done => cases hv
  | leaf key rva size rest ih =>
    obtain ⟨hrva,-,hrest⟩ := h
    rw [search] at hv
    split at hv
    · obtain rfl := Option.some.inj hv
      exact hrva
    · exact ih hrest hv
  | sub key children rest ihc ih =>
    obtain ⟨-,hchildren,hrest⟩ := h
    rw [search] at hv
    split at hv
    · exact ih hrest hv
    dsimp only at hv
    split at hv
    · exact ihc hchildren hv
    · exact ih hrest hv

/-- The key of the first entry is a name exactly if the counter has not passed the names. -/
theorem lt_iff_isName {named i n : ℕ} {key : Key} (hcount : named - i = n + if key.isName then 1 else 0)
    (hid : key.isName = false → n = 0) : i < named ↔ key.isName = true := by
  cases hname : key.isName with
  | true =>
    rw [hname] at hcount
    simp only [↓reduceIte] at hcount
    exact iff_of_true (by omega) rfl
  | false =>
    rw [hname,hid hname] at hcount
    simp only [Bool.false_eq_true,↓reduceIte] at hcount
    exact iff_of_false (by omega) Bool.false_ne_true

theorem sub_succ_eq {named i n : ℕ} {key : Key} (hcount : named - i = n + if key.isName then 1 else 0)
    (hid : key.isName = false → n = 0) : named - (i + 1) = n := by
  cases hname : key.isName with
  | true =>
    rw [hname] at hcount
    simp only [↓reduceIte] at hcount
    omega
  | false =>
    have hzero := hid hname
    rw [hname] at hcount
    simp only [Bool.false_eq_true,↓reduceIte] at hcount
    omega

theorem Key.taken_of_skipped {key : Key} (h : key.skipped name = true) : key.taken name = false := by
  cases key with
  | name text => exact Bool.not_eq_true' _ ▸ h
  | id n => rfl

/-- The loop over entries in memory is the search in these entries. -/
theorem entryLoop_eq {d : Directory} (hwf : d.WellFormed) {fuel dir named i : ℕ} {s : State}
    (hdepth : d.depth ≤ fuel) (hat : EntriesAt mem (dir + 16 + 8 * i) d) (hnamed : named - i = d.nameCount) :
    entryLoop mem name (findResourceRva mem name fuel) dir named d.count i s =
      some (result (search name d s.found) s.len) := by
  induction d generalizing fuel dir named i s with
  | done => rfl
  | leaf key rva size rest ih =>
    obtain ⟨-,hid,hrest⟩ := hwf
    obtain ⟨hkey,⟨off,hoff,hread,hrva,hsize⟩,hnext⟩ := hat
    have hloop : ∀ s : State, entryLoop mem name (findResourceRva mem name fuel) dir named rest.count (i + 1) s =
        some (result (search name rest s.found) s.len) := fun s =>
      ih hrest hdepth (by rwa [Nat.mul_succ]) (sub_succ_eq hnamed hid)
    rw [Directory.count,entryLoop_head s hkey (lt_iff_isName hnamed hid),hread,search]
    dsimp only
    rw [if_neg (not_le.mpr hoff),hrva,hsize,hloop,hloop]
    by_cases hskip : (!s.found && key.skipped name) = true
    · obtain ⟨hfound,hskipped⟩ := Bool.and_eq_true_iff.mp hskip
      have hflag : (s.found || key.taken name) = false := by
        rw [Key.taken_of_skipped hskipped,Bool.or_false]
        exact Bool.not_eq_true' _ ▸ hfound
      rw [if_pos hskip,if_neg (Bool.eq_false_iff.mp hflag)]
    · rw [if_neg hskip]
      cases hflag : s.found || key.taken name with
      | true => rfl
      | false =>
        rw [(Bool.or_eq_false_iff.mp hflag).1]
        rfl
  | sub key children rest ihc ih =>
    obtain ⟨hid,hchildren,hrest⟩ := hwf
    obtain ⟨hkey,⟨off,hoff,hroot,hread,hnames,hcount,hentries⟩,hnext⟩ := hat
    have hloop : ∀ s : State, entryLoop mem name (findResourceRva mem name fuel) dir named rest.count (i + 1) s =
        some (result (search name rest s.found) s.len) := fun s =>
      ih hrest (le_of_max_le_right hdepth) (by rwa [Nat.mul_succ]) (sub_succ_eq hnamed hid)
    obtain ⟨fuel,rfl⟩ : ∃ n, fuel = n + 1 := Nat.exists_eq_add_one.mpr (by
      have := le_of_max_le_left hdepth
      omega)
    have hsub : ∀ s : State, findResourceRva mem name (fuel + 1) off s =
        some (result (search name children s.found) s.len) := by
      intro s
      rw [findResourceRva,if_neg hroot,hcount]
      exact ihc hchildren (Nat.le_of_succ_le_succ (le_of_max_le_left hdepth)) hentries hnames
    rw [Directory.count,entryLoop_head s hkey (lt_iff_isName hnamed hid),hread,search]
    dsimp only
    rw [if_pos (Nat.le_add_right _ _),Nat.add_sub_cancel_left,hsub,hloop,Option.bind_some]
    by_cases hskip : (!s.found && key.skipped name) = true
    · rw [if_pos hskip,if_pos hskip]
    rw [if_neg hskip,if_neg hskip]
    dsimp only
    rcases hr : search name children (s.found || key.taken name) with ⟨_ | v,flag⟩
    · exact hloop _
    · have hne : v.1 ≠ 0 := search_data_ne_zero hchildren (congrArg Prod.fst hr)
      exact if_pos hne

end Memory

section Items
variable {name : List UInt16}

theorem findSome?_below (key : Key) (l : List Item) :
    (l.map (Item.below key)).findSome? Item.data = l.findSome? Item.data :=
  List.findSome?_map

/-- With the flag set, the first data are found. -/
theorem search_true (name : List UInt16) (d : Directory) :
    search name d true = (d.items.findSome? Item.data,true) := by
  induction d with
  | done => rfl
  | leaf key rva size rest ih => rfl
  | sub key children rest ihc ih =>
    rw [search,Bool.not_true,Bool.false_and,if_neg Bool.false_ne_true,Bool.true_or,ihc]
    dsimp only
    rw [Directory.items,List.findSome?_cons,List.findSome?_append,findSome?_below]
    dsimp only
    cases children.items.findSome? Item.data with
    | none => exact ih
    | some v => rfl

/-- The entries from the first one on that opens. -/
def behind (name : List UInt16) (l : List Item) : List Item := l.dropWhile fun i => !opens name i.path

theorem path_ne_nil {d : Directory} {i : Item} (h : i ∈ d.items) : i.path ≠ [] := by
  induction d with
  | done => cases h
  | leaf key rva size rest ih =>
    rcases List.mem_cons.mp h with rfl | h
    · exact List.cons_ne_nil _ _
    · exact ih h
  | sub key children rest ihc ih =>
    rcases List.mem_cons.mp h with rfl | h
    · exact List.cons_ne_nil _ _
    rcases List.mem_append.mp h with h | h
    · obtain ⟨j,-,rfl⟩ := List.mem_map.mp h
      exact List.cons_ne_nil _ _
    · exact ih h

theorem behind_append (l m : List Item) :
    behind name (l ++ m) = if behind name l = [] then behind name m else behind name l ++ m := by
  rw [behind,List.dropWhile_append]
  simp only [List.isEmpty_iff]
  rfl

/-- What is below a name does not open. -/
theorem behind_below_name (text : List UInt16) (d : Directory) :
    behind name (d.items.map (Item.below (.name text))) = [] := by
  rw [behind,List.dropWhile_eq_nil_iff]
  intro i hi
  obtain ⟨j,hj,rfl⟩ := List.mem_map.mp hi
  obtain ⟨key,path,hpath⟩ := List.exists_cons_of_ne_nil (path_ne_nil hj)
  rw [Item.below,hpath]
  rfl

/-- What is below a number opens as it does on its own. -/
theorem behind_below_id (n : ℕ) (l : List Item) :
    behind name (l.map (Item.below (.id n))) = (behind name l).map (Item.below (.id n)) := by
  rw [behind,List.dropWhile_map]
  rfl

theorem behind_cons (i : Item) (l : List Item) :
    behind name (i :: l) = if opens name i.path = true then i :: l else behind name l := by
  rw [behind,List.dropWhile_cons]
  cases opens name i.path <;> rfl

theorem opens_singleton (key : Key) : opens name [key] = key.taken name := by
  cases key <;> rfl

/-- Without the flag, the first data from an entry on that opens are found. -/
theorem search_false (name : List UInt16) (d : Directory) : search name d false =
    ((behind name d.items).findSome? Item.data,decide (behind name d.items ≠ [])) := by
  induction d with
  | done => rfl
  | leaf key rva size rest ih =>
    rw [search,Directory.items,behind_cons,opens_singleton,Bool.false_or]
    split
    · rfl
    · exact ih
  | sub key children rest ihc ih =>
    rw [Directory.items,behind_cons,opens_singleton]
    by_cases htaken : key.taken name = true
    · -- The entry opens: from here on the search is the one with the flag set.
      have hskip : key.skipped name = false := by
        cases hskip : key.skipped name with
        | false => rfl
        | true => exact absurd htaken (Bool.eq_false_iff.mp (Key.taken_of_skipped hskip))
      have hflag : search name (.sub key children rest) false = search name (.sub key children rest) true := by
        rw [search,search,htaken,hskip]
        rfl
      rw [if_pos htaken,hflag,search_true]
      rfl
    rw [if_neg htaken,behind_append,search]
    cases key with
    | name text =>
      have hskip : (!false && (Key.name text).skipped name) = true := by
        rw [Bool.not_false,Bool.true_and]
        exact (Bool.not_eq_true' _).mpr (Bool.eq_false_iff.mpr htaken)
      rw [if_pos hskip,if_pos (behind_below_name text children)]
      exact ih
    | id n =>
      rw [if_neg (by exact Bool.false_ne_true),behind_below_id]
      dsimp only
      rw [Bool.false_or,Key.taken,ihc]
      by_cases hnil : behind name children.items = []
      · rw [hnil]
        exact ih
      · have hmap : ¬(behind name children.items).map (Item.below (.id n)) = [] := by
          rwa [List.map_eq_nil_iff]
        have happend : (behind name children.items).map (Item.below (.id n)) ++ rest.items ≠ [] :=
          List.append_ne_nil_of_left_ne_nil hmap _
        rw [if_neg hmap,List.findSome?_append,findSome?_below,decide_eq_true hnil,decide_eq_true happend]
        rcases (behind name children.items).findSome? Item.data with _ | v
        · exact search_true name rest
        · rfl

end Items

section Exactness
variable {mem : ℕ → UInt8} {name : List UInt16} {d : Directory}

/-- The search ends, and finds what the search in the tree does. -/
theorem findResourceRva_eq (hwf : d.WellFormed) (hat : DirectoryAt mem 0 d) (s : State) {fuel : ℕ}
    (hfuel : d.depth + 1 ≤ fuel) :
    findResourceRva mem name fuel 0 s = some (result (search name d false) s.len) := by
  obtain ⟨hnames,hcount,hentries⟩ := hat
  obtain ⟨fuel,rfl⟩ : ∃ n, fuel = n + 1 := Nat.exists_eq_add_one.mpr (by omega)
  rw [findResourceRva,if_pos rfl,hcount]
  exact entryLoop_eq hwf (Nat.le_of_succ_le_succ hfuel) hentries hnames

theorem data_ne_zero (h : d.WellFormed) {i : Item} (hi : i ∈ d.items) {v : ℕ × ℕ} (hv : i.data = some v) :
    v.1 ≠ 0 := by
  induction d generalizing i with
  | done => cases hi
  | leaf key rva size rest ih =>
    obtain ⟨hrva,-,hrest⟩ := h
    rcases List.mem_cons.mp hi with rfl | hi
    · obtain rfl := Option.some.inj hv
      exact hrva
    · exact ih hrest hi hv
  | sub key children rest ihc ih =>
    obtain ⟨-,hchildren,hrest⟩ := h
    rcases List.mem_cons.mp hi with rfl | hi
    · cases hv
    rcases List.mem_append.mp hi with hi | hi
    · obtain ⟨j,hj,rfl⟩ := List.mem_map.mp hi
      exact ihc hchildren hj hv
    · exact ih hrest hi hv

/-- A tree with one entry, of the name AC. -/
def oneName : Directory := .leaf (.name [0x41,0x43]) 0x1000 4 .done

def oneNameMemory : ℕ → UInt8 :=
  memOf (List.replicate 12 0 ++ [1,0,0,0,0x18,0,0,0x80,0x20,0,0,0,2,0,0x41,0,0x43,0,0,0,0,0x10,0,0,4,0,0,0]) 0

theorem oneName_wellFormed : oneName.WellFormed := ⟨by decide,by decide,trivial⟩

theorem directoryAt_oneName : DirectoryAt oneNameMemory 0 oneName := by
  refine ⟨by decide,by decide,⟨0x18,by decide,by decide,by decide,?_⟩,⟨0x20,by decide,by decide,by decide,by decide⟩,
    trivial⟩
  exact holds_iff_slice.mpr (by decide)

end Exactness

end SecureWipeOut.ResourceTree
