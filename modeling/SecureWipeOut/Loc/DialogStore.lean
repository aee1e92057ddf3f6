import SecureWipeOut.Loc.LocFile
import SecureWipeOut.Table.Htab

/-! # The store of dialog commands

The model of `add_dialog_command` and of the functions that clear its store. A command
has the address of its allocation, no address being handed out twice. What `LocState`
calls the dialog commands are the calls of `add_dialog_command` since the lists were last
cleared. Memory allocation succeeds.
-/
namespace SecureWipeOut.Loc
open CText Htab

def locHtabSize : ℕ := 1031

/-- More turns than the loops of the hash table can take. -/
def hashFuel : ℕ := 2 ^ 31

/-- A command that is linked in a dialog list. -/
structure Linked where
  address : ℕ
  cmd : LocCmd

/-- The dialog lists, and the hash table with the data pointers of its entries. `misused`
records that a command was unlinked and freed that had been freed before. -/
structure DialogStore where
  lists : ℕ → List Linked
  htab : HtabTable
  data : ℕ → Option ℕ
  fresh : ℕ
  misused : Bool

def commandNumber : LocCommand → ℕ
  | .group => 0
  | .text => 1
  | .version => 2
  | .locale => 3
  | .base => 4
  | .font => 5
  | .attributes => 6

/-- Of the 128 characters of `str` two are for the dialog and the command, and one for
the terminator. -/
def keyBytes (index : ℕ) (lcmd : LocCmd) : List UInt8 :=
  UInt8.ofNat (index + 0x30) :: UInt8.ofNat (commandNumber lcmd.command + 0x30) ::
    ((lcmd.txt.headD []).take 125).map fun c => UInt8.ofNat c.toNat

theorem zero_notMem_takeWhile (bytes : List UInt8) : (0 : UInt8) ∉ bytes.takeWhile fun b => b != 0 := by
  intro h
  simpa using List.mem_takeWhile_imp h

def keyText (index : ℕ) (lcmd : LocCmd) : CString :=
  ⟨(keyBytes index lcmd).takeWhile fun b => b != 0,zero_notMem_takeWhile _⟩

namespace DialogStore

def linked (s : DialogStore) (address : ℕ) : Bool :=
  (List.range locDlgSize.toNat).any fun d => (s.lists d).any fun x => x.address == address

/-- `list_del` and `free_loc_cmd`. -/
def unlink (s : DialogStore) (address : ℕ) : DialogStore :=
  {s with
    lists := fun d => (s.lists d).filter fun x => x.address != address
    misused := s.misused || !s.linked address}

/-- What becomes of the command that the entry refers to, and its replacement. -/
def replace (s : DialogStore) (i : ℕ) : DialogStore :=
  let s := match s.data i with
    | none => s
    | some address => s.unlink address
  {s with data := Function.update s.data i (some s.fresh)}

theorem replace_lists (s : DialogStore) (i d : ℕ) :
    (s.replace i).lists d = (s.lists d).filter fun x => s.data i != some x.address := by
  unfold replace
  cases s.data i with
  | none => exact (List.filter_eq_self.mpr fun x _ => rfl).symm
  | some a => exact List.filter_congr fun x _ => by simp [bne,BEq.comm (a := a)]

theorem replace_misused (s : DialogStore) (i : ℕ) :
    (s.replace i).misused = (s.misused || (s.data i).any fun a => !s.linked a) := by
  unfold replace
  cases s.data i with
  | none => exact (Bool.or_false _).symm
  | some a => rfl

theorem replace_data (s : DialogStore) (i : ℕ) :
    (s.replace i).data = Function.update s.data i (some s.fresh) := by
  unfold replace
  cases s.data i <;> rfl

theorem replace_htab (s : DialogStore) (i : ℕ) : (s.replace i).htab = s.htab := by
  unfold replace
  cases s.data i <;> rfl

theorem replace_fresh (s : DialogStore) (i : ℕ) : (s.replace i).fresh = s.fresh := by
  unfold replace
  cases s.data i <;> rfl

theorem linked_eq_true_iff {s : DialogStore} {address : ℕ} : s.linked address = true ↔
    ∃ d < locDlgSize.toNat, ∃ x ∈ s.lists d, x.address = address := by
  simp only [linked,List.any_eq_true,List.mem_range,beq_iff_eq]

/-- `list_add` of a newly allocated command. -/
def link (s : DialogStore) (index : ℕ) (lcmd : LocCmd) : DialogStore :=
  {s with
    lists := Function.update s.lists index (⟨s.fresh,lcmd⟩ :: s.lists index)
    fresh := s.fresh + 1}

def addDialogCommand (index : ℤ) (lcmd : LocCmd) (s : DialogStore) : Option DialogStore :=
  if lcmd.txt = [] ∨ index < 0 ∨ locDlgSize ≤ index then some s
  else
    (htabHash hashFuel true (some (keyText index.toNat lcmd)) s.htab).map fun r =>
      let s := {s with htab := r.2}
      (if r.1 ≠ 0 then s.replace r.1 else s).link index.toNat lcmd

def freeDialogList (s : DialogStore) : DialogStore := {s with lists := fun _ => []}

/-- `_exit_localization` and `_init_localization`, less what is not about the store. -/
def reinitLocalization (s : DialogStore) : Option DialogStore :=
  (htabCreate hashFuel true locHtabSize htabEmpty).map fun r =>
    {s.freeDialogList with
      htab := r.2
      data := fun _ => none}

def unused : DialogStore := ⟨fun _ => [],htabEmpty,fun _ => none,0,false⟩

end DialogStore

end SecureWipeOut.Loc
