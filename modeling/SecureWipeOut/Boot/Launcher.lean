import SecureWipeOut.Lib.Shell
import SecureWipeOut.Lib.Text

/-! # The launcher

The launcher lists the devices in a file, shows the file as a menu and looks the device
chosen up in it. The number of devices travels through the status of the function that
detects them, in a script that ends at the first failure.
-/
namespace SecureWipeOut.Launcher
open Text Shell

/-- A match of the patterns `/dev/sd* /dev/nvme*n* /dev/mmc*`, and what the commands
print about it. What they print is taken from one line, and the kernel's names have no
colon. -/
structure Node where
  path : Line
  isBlockDevice : Bool
  getsize64 : Option ℕ
  numfmt : Option Line
  model : Line
  serial : Line
  path_plain : path ≠ [] ∧ ':' ∉ path
  oneLine : ∀ l ∈ [path,numfmt.getD [],model,serial], '\n' ∉ l

/-- The environment that the launcher is started in. Nothing in the scripts sets the
variable `DEVICE_LIST_FILE`; no file has the empty name. -/
structure Machine where
  nodes : List Node
  deviceListFile : Line
  writable : Line → Bool
  writable_nil : writable [] = false

/-- The file, the variables of `main`, the number of devices that the menu was called
with, and the lines still to be read. -/
structure State where
  deviceList : List Line
  deviceCount : ℕ
  menuCount : Option ℕ
  selectedDevice : Option (List Line)
  input : List Line

/-- The patterns, which stand for themselves where nothing matches. -/
def patterns : List Line := ["/dev/sd*".toList,"/dev/nvme*n*".toList,"/dev/mmc*".toList]

def Node.size (d : Node) : ℕ := d.getsize64.getD 0

/-- The tests that a device is listed after: a block device that no pattern stands for
itself, of more than a megabyte. -/
def Node.listed (d : Node) : Bool :=
  d.isBlockDevice && !patterns.contains d.path && (decide (d.size < 2 ^ 63) && decide (1048576 < d.size))

/-- `$device_count:$device:$size_human:$model:$serial`. -/
def Node.line (d : Node) (deviceCount : ℕ) : Line :=
  Nat.toDigits 10 deviceCount ++ ':' :: (d.path ++ ':' :: (d.numfmt.getD "Unknown".toList ++
    ':' :: (d.model.filter (· ≠ ' ') ++ ':' :: d.serial)))

/-- The loop over the matches: the count and the lines appended to the file. -/
def detectLoop : List Node → ℕ × List Line → ℕ × List Line
  | [], r => r
  | d :: ds, r => detectLoop ds (if d.listed then (r.1 + 1,r.2 ++ [d.line (r.1 + 1)]) else r)

/-- A redirection to a file that cannot be opened fails. -/
def clearDeviceList (m : Machine) : Command State := fun s =>
  if m.writable m.deviceListFile then .status 0 { s with deviceList := [] } else .status 1 s

def detectStorageDevices (m : Machine) : Command State :=
  andThen (clearDeviceList m) (withState fun s =>
    let r := detectLoop m.nodes (0,s.deviceList)
    andThen (effect fun s => { s with deviceList := r.2 }) (returning r.1))

/-- The first field of a line and what stands behind its colon. -/
def cut (line : Line) : Line × Line :=
  (line.takeWhile (· ≠ ':'),(line.dropWhile (· ≠ ':')).drop 1)

/-- The menu's own counter beside the second field of each line. -/
def menu (deviceList : List Line) : List (ℕ × Line) :=
  (deviceList.zipIdx 1).map fun l => (l.2,(cut (cut l.1).2).1)

/-- The menu of no devices waits for a line and ends the script. -/
def showDeviceMenu (deviceCount : ℕ) : Command State :=
  andThen (effect fun s => { s with menuCount := some deviceCount }) fun s =>
    if deviceCount = 0 then .exited 1 s else .status 0 s

/-- The operand of an integer comparison. -/
def shellNumber (digits : Line) : Option ℕ :=
  if digits ≠ [] ∧ digits.all Char.isDigit = true ∧ decimal digits < 2 ^ 63 then some (decimal digits) else none

/-- `^[0-9]+$` and the two comparisons with 1 and the count. -/
def accepted (deviceCount : ℕ) (selection : Line) : Bool :=
  match shellNumber selection with
  | some n => decide (1 ≤ n) && decide (n ≤ deviceCount)
  | none => false

/-- The lines that `awk -F: '$1 == sel {print $2}'` prints, captured. -/
def selectDevice (deviceList : List Line) (selection : Line) : List Line :=
  capture ((deviceList.filter fun l => decide (decimal (cut l).1 = decimal selection)).map
    fun l => (cut (cut l).2).1)

/-- The loop of `get_device_selection` over the lines read; the end of the input makes
`read` fail. -/
def selectionLoop (deviceCount : ℕ) : List Line → Command State
  | [], s => .exited 1 { s with input := [] }
  | selection :: rest, s =>
    if selection = "q".toList ∨ selection = "Q".toList then .exited 0 { s with input := rest }
    else if accepted deviceCount selection then
      .status 0 { s with selectedDevice := some (selectDevice s.deviceList selection), input := rest }
    else selectionLoop deviceCount rest s

def getDeviceSelection (deviceCount : ℕ) : Command State := fun s => selectionLoop deviceCount s.input s

def confirmWipeOperation : Command State := fun s =>
  match s.input with
  | [] => .exited 1 s
  | confirmation :: rest =>
    if confirmation = "CONFIRM".toList then .status 0 { s with input := rest }
    else .exited 0 { s with input := rest }

/-- `device_count=$?` is the status of a command that succeeded. -/
def main (m : Machine) : Command State :=
  andThen (detectStorageDevices m) <|
  andThen (effect fun s => { s with deviceCount := 0 }) <|
  andThen (withState fun s => showDeviceMenu s.deviceCount) <|
  andThen (withState fun s => getDeviceSelection s.deviceCount) confirmWipeOperation

/-- The state that the launcher starts in. -/
def start (input : List Line) : State := ⟨[],0,none,none,input⟩

section Specification
variable (m : Machine)

/-- The devices detected, in the order of the list. -/
def detected : List Node := m.nodes.filter Node.listed

/-- The lines that the detection writes. -/
def deviceLines : List Line := ((detected m).zipIdx 1).map fun d => d.1.line d.2

/-- The menu is called with the number of lines of the file. -/
def ReachesMenu (s : Outcome State) : Prop := s.state.menuCount = some s.state.deviceList.length

/-- A selection that is accepted gives the path of one device detected, which is the one
that the menu shows under its number. -/
def SelectsShown : Prop := ∀ selection, accepted (deviceLines m).length selection = true →
  ∃ d ∈ detected m, selectDevice (deviceLines m) selection = [d.path] ∧
    (decimal selection,d.path) ∈ menu (deviceLines m) ∧
    ∀ path, (decimal selection,path) ∈ menu (deviceLines m) → path = d.path

end Specification

section Lines

theorem cut_append {a : Line} (h : ':' ∉ a) (b : Line) : cut (a ++ ':' :: b) = (a,b) := by
  have hkeep : ∀ c ∈ a, decide (c ≠ ':') = true := by
    intro c hc
    apply decide_eq_true
    rintro rfl
    exact h hc
  rw [cut,List.takeWhile_append_of_pos hkeep,List.dropWhile_append_of_pos hkeep]
  simp

theorem cut_line (d : Node) (k : ℕ) : (cut (d.line k)).1 = Nat.toDigits 10 k ∧
    (cut (cut (d.line k)).2).1 = d.path := by
  have hdigits : ':' ∉ Nat.toDigits 10 k := fun h =>
    absurd (Nat.isDigit_of_mem_toDigits (by norm_num) (by norm_num) h) (by decide)
  have hline := cut_append hdigits (d.path ++ ':' :: (d.numfmt.getD "Unknown".toList ++
    ':' :: (d.model.filter (· ≠ ' ') ++ ':' :: d.serial)))
  rw [Node.line,hline,cut_append d.path_plain.2]
  exact ⟨rfl,rfl⟩

theorem detectLoop_eq (ds : List Node) (r : ℕ × List Line) : detectLoop ds r =
    (r.1 + (ds.filter Node.listed).length,
      r.2 ++ ((ds.filter Node.listed).zipIdx (r.1 + 1)).map fun d => d.1.line d.2) := by
  induction ds generalizing r with
  | nil => simp [detectLoop]
  | cons d ds ih =>
    rw [detectLoop,ih]
    by_cases h : d.listed = true
    · rw [if_pos h,List.filter_cons_of_pos h,List.zipIdx_cons,List.length_cons,List.map_cons]
      simp only [List.append_assoc,List.singleton_append]
      congr 1
      omega
    · rw [if_neg h,List.filter_cons_of_neg h]

/-- The line with a number is the only one that a search for the number finds. -/
theorem filter_zipIdx {α : Type*} (l : List α) (k : ℕ) {v : ℕ} (hk : k ≤ v) (hv : v - k < l.length) :
    (l.zipIdx k).filter (fun d => decide (d.2 = v)) = [(l[v - k],v)] := by
  induction l generalizing k with
  | nil => simp at hv
  | cons a l ih =>
    rw [List.zipIdx_cons]
    rcases Nat.eq_or_lt_of_le hk with rfl | hlt
    · have hnone : (l.zipIdx (k + 1)).filter (fun d => decide (d.2 = k)) = [] := by
        rw [List.filter_eq_nil_iff]
        rintro ⟨b,i⟩ hb
        have := List.le_snd_of_mem_zipIdx hb
        simp only [decide_eq_true_eq]
        omega
      rw [List.filter_cons_of_pos (by simp),hnone]
      simp
    · have hrest := ih (k + 1) hlt (by rw [List.length_cons] at hv; omega)
      rw [List.filter_cons_of_neg (by simpa using hlt.ne),hrest]
      have hidx : v - k = (v - (k + 1)) + 1 := by omega
      simp [hidx]

theorem length_deviceLines (m : Machine) : (deviceLines m).length = (detected m).length := by
  simp [deviceLines]

theorem menu_deviceLines (m : Machine) :
    menu (deviceLines m) = ((detected m).zipIdx 1).map fun d => (d.2,d.1.path) := by
  apply List.ext_getElem
  · simp [menu,deviceLines]
  · intro i hi hi'
    simp only [menu,deviceLines,List.getElem_map,List.getElem_zipIdx,(cut_line _ _).2]

theorem mem_menu_iff {m : Machine} {number : ℕ} {path : Line} :
    (number,path) ∈ menu (deviceLines m) ↔
      ∃ h : number - 1 < (detected m).length, 1 ≤ number ∧ path = (detected m)[number - 1].path := by
  rw [menu_deviceLines,List.mem_map]
  constructor
  · rintro ⟨⟨d,i⟩,hd,heq⟩
    obtain ⟨rfl,rfl⟩ := Prod.mk.inj heq
    obtain ⟨hlow,hhigh,hd⟩ := List.mem_zipIdx hd
    exact ⟨by omega,hlow,by rw [hd]⟩
  · rintro ⟨h,hlow,rfl⟩
    refine ⟨((detected m)[number - 1],number),?_,rfl⟩
    exact List.mk_mem_zipIdx_iff_le_and_getElem?_sub.mpr ⟨hlow,List.getElem?_eq_getElem h⟩

theorem selectDevice_deviceLines (m : Machine) {selection : Line} (h : 1 ≤ decimal selection)
    (hlt : decimal selection - 1 < (detected m).length) :
    selectDevice (deviceLines m) selection = [(detected m)[decimal selection - 1].path] := by
  have hfilter : (deviceLines m).filter (fun l => decide (decimal (cut l).1 = decimal selection)) =
      (((detected m).zipIdx 1).filter fun d => decide (d.2 = decimal selection)).map
        fun d => d.1.line d.2 := by
    rw [deviceLines,List.filter_map]
    congr 1
    apply List.filter_congr
    intro d _
    rw [Function.comp_apply,(cut_line _ _).1,decimal_toDigits]
  rw [selectDevice,hfilter,filter_zipIdx _ 1 h hlt,List.map_singleton,List.map_singleton,(cut_line _ _).2]
  apply capture_of_nonempty
  intro l hl
  rw [List.mem_singleton.mp hl]
  exact Node.path_plain _ |>.1

theorem accepted_bounds {n : ℕ} {selection : Line} (h : accepted n selection = true) :
    1 ≤ decimal selection ∧ decimal selection ≤ n := by
  rw [accepted,shellNumber] at h
  split at h
  next v hv =>
    split at hv
    next =>
      obtain rfl := Option.some.inj hv
      simpa using h
    next => cases hv
  next => cases h

/-- The selection itself is exact, whatever devices there are. -/
theorem selectsShown (m : Machine) : SelectsShown m := by
  intro selection h
  obtain ⟨hlow,hhigh⟩ := accepted_bounds h
  rw [length_deviceLines] at hhigh
  have hlt : decimal selection - 1 < (detected m).length := by omega
  refine ⟨(detected m)[decimal selection - 1],List.getElem_mem hlt,selectDevice_deviceLines m hlow hlt,
    mem_menu_iff.mpr ⟨hlt,hlow,rfl⟩,?_⟩
  intro path hpath
  obtain ⟨_,_,heq⟩ := mem_menu_iff.mp hpath
  exact heq

end Lines

section Run
variable {m : Machine} {s : State}

theorem detectLoop_deviceLines (m : Machine) :
    detectLoop m.nodes (0,[]) = ((detected m).length,deviceLines m) := by
  rw [detectLoop_eq,Nat.zero_add,List.nil_append]
  rfl

/-- Without a file the detection fails; with one, its status is the number of devices. -/
theorem detectStorageDevices_eq (m : Machine) (s : State) : detectStorageDevices m s =
    if m.writable m.deviceListFile then
      .status ((detected m).length % 256) { s with deviceList := deviceLines m }
    else .exited 1 s := by
  rw [detectStorageDevices]
  by_cases h : m.writable m.deviceListFile = true
  · have hclear : clearDeviceList m s = .status 0 { s with deviceList := [] } := if_pos h
    rw [andThen_of_success hclear,withState,effect_andThen,if_pos h]
    dsimp only
    rw [detectLoop_deviceLines]
    rfl
  · have hclear : clearDeviceList m s = .status 1 s := if_neg h
    rw [andThen_of_failure hclear (by decide),if_neg h]

/-- Where the launcher ends: at the detection, or in the menu, which it calls with no devices. -/
theorem main_eq (m : Machine) (s : State) : main m s =
    if m.writable m.deviceListFile then
      if (detected m).length % 256 = 0 then
        .exited 1 { s with deviceList := deviceLines m, deviceCount := 0, menuCount := some 0 }
      else .exited ((detected m).length % 256) { s with deviceList := deviceLines m }
    else .exited 1 s := by
  have hdetect := detectStorageDevices_eq m s
  rw [main]
  by_cases h : m.writable m.deviceListFile = true
  · rw [if_pos h] at hdetect ⊢
    by_cases hcount : (detected m).length % 256 = 0
    · rw [hcount] at hdetect
      rw [andThen_of_success hdetect,effect_andThen,if_pos hcount]
      exact andThen_of_exited rfl
    · rw [andThen_of_failure hdetect hcount,if_neg hcount]
  · rw [if_neg h] at hdetect ⊢
    exact andThen_of_exited hdetect

/-- No run of the launcher selects a device. -/
theorem main_selects_nothing (m : Machine) (input : List Line) :
    (main m (start input)).state.selectedDevice = none := by
  rw [main_eq]
  split
  · split <;> rfl
  · rfl

/-- A machine with one disk. -/
def oneDisk : Machine where
  nodes := [{
    path := "/dev/sda".toList
    isBlockDevice := true
    getsize64 := some 500107862016
    numfmt := some "466GiB".toList
    model := "Disk".toList
    serial := "1".toList
    path_plain := by decide
    oneLine := by decide }]
  deviceListFile := "/tmp/devices".toList
  writable f := !f.isEmpty
  writable_nil := rfl

/-- What a user would type to wipe it. -/
def wipeFirst : List Line := ["1".toList,"CONFIRM".toList]

end Run

end SecureWipeOut.Launcher
