import SecureWipeOut.Loc.LocCmd

/-! # Loading a localization file

The model of `get_loc_data_file` and `dispatch_loc_cmd`. The line buffer is memory
whose content before the first write is arbitrary. A base command loads the section of
another locale before the present one is read on; as the nested call restores the file
position, every section is read from a position of its own. The fuel bounds the depth
of the nested calls only.
-/
namespace SecureWipeOut.Loc
open CText Loop

/-- The variables of the custom line reader. -/
structure Reader where
  buf : ℕ → Char
  bufsize : ℕ
  i : ℕ
  r : ℕ
  eol : Bool
  escape : Bool

def Reader.init (garbage : ℕ → Char) : Reader := ⟨garbage,1024,0,0,false,false⟩

/-- The text in the buffer, up to the first NUL. -/
def Reader.line (s : Reader) : Buf :=
  ((List.range s.bufsize).map s.buf).takeWhile fun c => c != nul

def Reader.put (s : Reader) (c : Char) : Reader :=
  {s with buf := Function.update s.buf s.i c, i := s.i + 1}

def Reader.terminate (s : Reader) : Reader := {s with buf := Function.update s.buf s.i nul}

/-- The index of the last character of the line that is not blank, or zero. -/
def lastNonBlank (buf : ℕ → Char) : ℕ → ℕ
  | 0 => 0
  | r + 1 => if isBlank (buf (r + 1)) then lastNonBlank buf r else r + 1

def Reader.newline (s : Reader) : Reader :=
  let s := s.terminate
  if s.eol then s else {s with r := lastNonBlank s.buf (s.i - 1), eol := true}

/-- What an escape sequence leaves in the buffer. -/
def Reader.unescape (s : Reader) (c : Char) : Reader :=
  let s := {s with escape := false}
  if c = 'n' then (s.put '\r').put '\n'
  else if c = '"' then (s.put '\\').put '"'
  else if c = '\\' then s.put '\\'
  else s

/-- The effect of one character: the line that is complete, if any, and the reader. -/
def Reader.step (s : Reader) (c : Char) : Option Buf × Reader :=
  if c = '\r' ∨ c = '\n' then
    if s.escape then (none,{s with escape := false}) else (none,s.newline)
  else if isBlank c then
    if s.escape then (none,{s with escape := false})
    else if s.eol then (none,s)
    else (none,s.put c)
  else if s.escape then (none,s.unescape c)
  else if c = '\\' then (none,{s with escape := true})
  else if s.eol ∧ c = '"' ∧ s.buf s.r = '"' then (none,{s with i := s.r, eol := false})
  else if s.eol then (some s.line,Reader.put {s with i := 0, r := 0, eol := false} c)
  else (none,s.put c)

/-- Two characters of room are kept; beyond 32K the load fails. -/
def Reader.grow (s : Reader) : Option Reader :=
  if s.bufsize - 2 ≤ s.i then
    if 32768 < 2 * s.bufsize then none else some {s with bufsize := 2 * s.bufsize}
  else some s

/-- The reading loop, from file position `pos` on. It stops at the end of the file or
behind `endOffset`. -/
def readLoop {σ : Type} (process : Buf → σ → Option σ) (endOffset : ℕ) :
    ℕ → List Char → Reader → σ → Option (Bool × σ)
  | _,[],rd,st => (process rd.terminate.line st).map fun st => (true,st)
  | pos,c :: rest,rd,st =>
    let (line,rd) := rd.step c
    (line.elim (some st) fun line => process line st).bind fun st =>
      if endOffset < pos + 1 then some (true,st)
      else
        match rd.grow with
        | none => some (false,st)
        | some rd => readLoop process endOffset (pos + 1) rest rd st

/-- A locale of the locale list: its name and the limits of its section. -/
structure Locale where
  name : List Char
  offset : ℕ
  endOffset : ℕ
deriving DecidableEq

structure LocState where
  messages : List (Bool × ℤ × List Char)
  dialog : List (ℤ × LocCmd)
  dlgIndex : ℤ
deriving DecidableEq

/-- What a load depends on: the file, the locale list, the table `control_id` and the
content of fresh memory. -/
structure Env where
  file : List Char
  locales : List Locale
  controlId : List Char → Option ℤ
  garbage : ℕ → Char

def msg000 : ℤ := 3000
def msgMax : ℤ := 3400
def iddDialog : ℤ := 101
def locDlgSize : ℤ := 10

def addMessageCommand (isDefault : Bool) (ctrlId : ℤ) (text : List Char) (st : LocState) : LocState :=
  if ctrlId ≤ msg000 ∨ msgMax ≤ ctrlId then st
  else {st with messages := st.messages ++ [(isDefault,ctrlId - msg000,text)]}

def addDialogCommand (lcmd : LocCmd) (st : LocState) : LocState :=
  if st.dlgIndex < 0 ∨ locDlgSize ≤ st.dlgIndex then st
  else {st with dialog := st.dialog ++ [(st.dlgIndex,lcmd)]}

/-- `get_locale_from_name` without fallback. -/
def getLocaleFromName (env : Env) (name : List Char) : Option Locale :=
  env.locales.find? fun l => l.name == name

/-- A command with a control ID in its first text. -/
def dispatchControl (env : Env) (isDefault : Bool) (lcmd : LocCmd) (st : LocState) : LocState :=
  let id := lcmd.txt.headD []
  if ['M','S','G','_'].isPrefixOf id then
    if lcmd.command ≠ .text ∨ atoi (id.drop 4) = 0 then st
    else addMessageCommand isDefault (msg000 + atoi (id.drop 4)) (lcmd.txt.getD 1 []) st
  else
    match env.controlId id with
    | none => st
    | some ctrlId =>
      if isDefault then st
      else if lcmd.command = .text then addDialogCommand lcmd st
      else if ctrlId - iddDialog < 0 ∨ locDlgSize < ctrlId - iddDialog then st
      else {st with dlgIndex := ctrlId - iddDialog}

/-- `dispatch_loc_cmd`; `load` is the nested call of `get_loc_data_file`. -/
def dispatchLocCmd (env : Env) (isDefault : Bool) (load : Locale → LocState → Option LocState)
    (lcmd : LocCmd) (st : LocState) : Option LocState :=
  match lcmd.command with
  | .group => some (dispatchControl env isDefault lcmd st)
  | .text => some (dispatchControl env isDefault lcmd st)
  | .base =>
    if isDefault then some st
    else
      match getLocaleFromName env (lcmd.txt.headD []) with
      | none => some st
      | some locale => load locale st
  | _ => some st

def processLine (env : Env) (isDefault : Bool) (load : Locale → LocState → Option LocState)
    (line : Buf) (st : LocState) : Option LocState :=
  match getLocDataLine line with
  | none => some st
  | some lcmd => dispatchLocCmd env isDefault load lcmd st

/-- Reading the section of a locale; `isDefault` means that the default message table is
being filled. `none` means that the fuel does not cover the nested calls. -/
def loadSection (env : Env) (isDefault : Bool) : ℕ → Locale → LocState → Option (Bool × LocState)
  | 0,_,_ => none
  | fuel + 1,locale,st =>
    readLoop (processLine env isDefault fun locale st => (loadSection env isDefault fuel locale st).map (·.2))
      locale.endOffset locale.offset (env.file.drop locale.offset) (Reader.init env.garbage) st

/-- `get_loc_data_file` as the program calls it, for the locale at index `selected` of
the list; `first` means that there is no message table yet. -/
def getLocDataFile (env : Env) (fuel : ℕ) (first : Bool) (selected : ℕ) (st : LocState) :
    Option (Bool × LocState) :=
  match env.locales.head?,env.locales[selected]? with
  | some default,some locale =>
    let populated := if first then
        (loadSection env true fuel default {st with dialog := []}).map (·.2)
      else some st
    populated.bind fun st =>
      if selected = 0 then some (true,st)
      else loadSection env false fuel locale {st with dialog := []}
  | _,_ => some (false,st)

end SecureWipeOut.Loc
