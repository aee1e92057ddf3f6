import SecureWipeOut.Lib.Loop
import SecureWipeOut.Lib.CText

/-! # Localization commands

The model of `get_loc_cmd` and of the line parser in front of it. A line is a text
buffer that the parser cuts into its arguments in place; an escaped quote is moved
over the backslash before it.
-/
namespace SecureWipeOut.Loc
open CText Loop

inductive LocCommand where
  | group | text | version | locale | base | font | attributes
deriving DecidableEq

inductive ArgType where
  | string | control | integer | unsignedList
deriving DecidableEq

/-- The table `parse_cmd`. -/
def parseCmd : List (Char × LocCommand × List ArgType) :=
  [('l',.locale,[.string,.string,.unsignedList]),
   ('b',.base,[.string]),
   ('v',.version,[.unsignedList]),
   ('t',.text,[.control,.string]),
   ('g',.group,[.control]),
   ('f',.font,[.string,.integer]),
   ('a',.attributes,[.string])]

structure LocCmd where
  command : LocCommand
  txt : List (List Char)
  num : List ℤ
  unum : List ℕ
deriving DecidableEq

def isBlank (c : Char) : Bool := c == ' ' || c == '\t'

/-- One turn of the loop that locates the ending quote. -/
def quoteStep (s : Buf × ℕ) : (Buf × ℕ) ⊕ (Buf × ℕ) :=
  if charAt s.1 s.2 = nul then .inr s
  else if charAt s.1 s.2 = '"' then
    -- memmove(&line[i-1], &line[i], strlen(&line[i]) + 1)
    if charAt s.1 (s.2 - 1) = '\\' then .inl (s.1.take (s.2 - 1) ++ s.1.drop s.2,s.2)
    else .inr s
  else .inl (s.1,s.2 + 1)

/-- The tokens of `strtok(…, ".,")`. -/
def tokens (s : List Char) : List (List Char) :=
  (s.splitOnP fun c => c == '.' || c == ',').filter fun t => !t.isEmpty

/-- The argument parser: the line and the index behind the argument, and the command
with the argument added; `none` is the `err` exit. -/
def parseArg (arg : ArgType) (line : Buf) (i : ℕ) (lcmd : LocCmd) : Option (Buf × ℕ × LocCmd) :=
  let i := scan (fun c => !isBlank c) line i
  if charAt line i = nul then none
  else
    match arg with
    | .string =>
      if charAt line i ≠ '"' then none
      else
        let r := i + 1
        (run quoteStep (line.length + 1) (line,r)).bind fun (line,i) =>
          if charAt line i = nul then none
          else
            let line := line.set i nul
            some (line,i + 1,{lcmd with txt := lcmd.txt ++ [cstr line r]})
    | .control =>
      let r := i
      let i := scan (fun c => c == nul || isBlank c) line i
      let (line,i) := if charAt line i ≠ nul then (line.set i nul,i + 1) else (line,i)
      some (line,i,{lcmd with txt := lcmd.txt ++ [cstr line r]})
    | .integer =>
      let i := if charAt line i = ',' ∨ charAt line i = '.' then
        i + ((line.drop (i + 1)).takeWhile isBlank).length else i
      let r := i
      let i := scan (fun c => c == nul || isBlank c || c == ',' || c == '.') line i
      let expected := i
      let (line,i) := if charAt line i ≠ nul then (line.set i nul,i + 1) else (line,i)
      let (n,len) := strtol (cstr line r)
      if r + len ≠ expected then none else some (line,i,{lcmd with num := lcmd.num ++ [n]})
    | .unsignedList =>
      let s := cstr line i
      -- unum_size is an uint8_t
      let size := ((s.countP fun c => c == '.' || c == ',') + 1) % 256
      let ts := tokens s
      if ts.length ≠ size then none
      else some (line,i,{lcmd with unum := ts.map fun t => ((strtol t).1 % 2 ^ 32).toNat})

def parseArgs : List ArgType → Buf → ℕ → LocCmd → Option LocCmd
  | [],_,_,lcmd => some lcmd
  | arg :: args,line,i,lcmd =>
    (parseArg arg line i lcmd).bind fun (line,i,lcmd) => parseArgs args line i lcmd

def getLocCmd (c : Char) (line : Buf) : Option LocCmd :=
  (parseCmd.find? fun p => p.1 == c).bind fun p => parseArgs p.2.2 line 0 ⟨p.2.1,[],[],[]⟩

/-- The command `get_loc_data_line` hands to the dispatcher. -/
def getLocDataLine (line : Buf) : Option LocCmd :=
  if charAt line 0 = nul then none
  else
    let i := scan (fun c => !isBlank c) line 0
    let t := charAt line i
    if t = '#' then none
    else if t = nul ∨ ¬ isBlank (charAt line (i + 1)) then none
    else (getLocCmd t (line.drop (i + 1))).bind fun lcmd =>
      if lcmd.command = .locale then none else some lcmd

end SecureWipeOut.Loc
