import SecureWipeOut.Lib.TextFile
import SecureWipeOut.Media.Md5sumQuery
import SecureWipeOut.Media.Md5sumUpdate

/-! # Renaming the boot loaders in a list of MD5 sums

The last part of `UpdateMD5Sum` copies the text into a new buffer, behind the number of bytes that
the list is about, and puts the new names of the boot loaders in the place of the old ones. The
new buffer has room for a fixed number of characters more than the text.
-/
namespace SecureWipeOut.Md5sum
open CText Search TextFile

section Model

def efiArchname : List (List Char) :=
  ["","ia32","x64","arm","aa64","ia64","riscv64","loongarch64","ebc"].map String.toList

/-- The names that the loop over the architectures builds; it passes the first one. -/
def bootloaderNames : List (List Char) := (efiArchname.drop 1).map fun arch => "boot".toList ++ arch ++ ".efi".toList

def lower (s : List Char) : List Char := s.map Char.toLower

def lstrcmpi (s t : List Char) : Bool := lower s == lower t

/-- The first place from an index on where a text stands in the string, in any letter case. -/
def strStrI (buf : Buf) (p : ℕ) (needle : List Char) : Option ℕ :=
  (find (lower needle) (lower (cstr buf p))).map (p + ·)

/-- The text, the place in it up to which it is copied, what is written into the new buffer so
far, the size that is computed for it, and the end of the bytes of it that were written. -/
@[ext]
structure Renaming where
  md5Data : Buf
  s : ℕ
  newData : List Char
  newSize : ℕ
  peak : ℕ

/-- The body of the loop over the architectures. The character behind the name is NUL while the
name is compared. -/
def renameOne (p : ℕ) (r : Renaming) (name : List Char) : Renaming :=
  let e := p + 12 + name.length
  if charAt r.md5Data e ≠ '\n' then r
  else
    let patched := r.md5Data.set e nul
    if lstrcmpi (cstr patched (p + 12)) name then
      let size := p - r.s + 12 + name.length - 4
      let newData := r.newData ++ (patched.drop r.s).take size ++ "_original.efi\n".toList
      -- `strcpy` ends what it writes with a NUL
      ⟨patched.set e '\n',e + 1,newData,(r.newSize + 9) % 2 ^ 32,max r.peak (newData.length + 1)⟩
    else {r with md5Data := patched.set e '\n'}

@[simp] theorem length_renameOne (p : ℕ) (r : Renaming) (name : List Char) :
    (renameOne p r name).md5Data.length = r.md5Data.length := by
  unfold renameOne
  dsimp only
  split
  · rfl
  · split <;> simp

theorem length_foldl_renameOne (p : ℕ) (r : Renaming) (names : List (List Char)) :
    (names.foldl (renameOne p) r).md5Data.length = r.md5Data.length := by
  induction names generalizing r with
  | nil => rfl
  | cons name names ih => rw [List.foldl_cons,ih,length_renameOne]

theorem strStrI_le {buf : Buf} {p q : ℕ} {needle : List Char} (hne : needle ≠ [])
    (h : strStrI buf p needle = some q) : p ≤ q ∧ q < buf.length := by
  obtain ⟨k,hk,rfl⟩ := Option.map_eq_some_iff.mp h
  have hocc := (find_eq_some_iff.mp hk).2.1
  have hle := hocc.le_length (by simpa [lower] using hne)
  have hpos := List.length_pos_of_ne_nil hne
  have htake : (cstr buf p).length ≤ (buf.drop p).length := (List.takeWhile_prefix _).length_le
  simp only [lower,List.length_map,List.length_drop] at hle htake
  omega

def bootPath : List Char := " ./efi/boot/boot".toList

/-- The loop over the places where the path of a boot loader begins. -/
def renameLoop (r : Renaming) (p : ℕ) : Renaming :=
  match _h : strStrI r.md5Data p bootPath with
  | none => r
  | some q => renameLoop (bootloaderNames.foldl (renameOne q) r) (q + 12)
  termination_by r.md5Data.length - p
  decreasing_by
    have hle := strStrI_le (by decide) _h
    rw [length_foldl_renameOne]
    omega

/-- `malloc(md5_size + 1024)` with a size of 32 bits. -/
def capacity (text : List Char) : ℕ := (text.length + 1024) % 2 ^ 32

/-- The line with the number of bytes, which is left out where the list was not made here. -/
def header (md5sumTotalbytes : UInt64) : List Char :=
  if md5sumTotalbytes = 0 then []
  else "# md5sum_totalbytes = 0x".toList ++ Nat.toDigits 16 md5sumTotalbytes.toNat ++ ['\n']

/-- The new buffer once the text is copied into it, for the text of a list and what stands in
memory behind the NUL that ends it. `snprintf` writes no more than the buffer holds. -/
def renamePass (md5sumTotalbytes : UInt64) (text behind : List Char) : Renaming :=
  let line := (header md5sumTotalbytes).take (capacity text - 1)
  let r := renameLoop ⟨text ++ nul :: behind,0,line,(text.length + line.length) % 2 ^ 32,
    if md5sumTotalbytes = 0 then 0 else min (capacity text) (line.length + 1)⟩ 0
  let newData := r.newData ++ (r.md5Data.drop r.s).take (text.length - r.s)
  {r with newData := newData,peak := max r.peak newData.length}

end Model

section Specification

/-- A line without its line break. -/
def chomp (l : List Char) : List Char := if l.getLast? = some '\n' then l.dropLast else l

/-- The line is the sum of a boot loader, in any letter case, and its path. -/
def namesBootloader (body : List Char) : Bool :=
  (body.take 32).all isHexAscii && body[32]? == some ' ' &&
    bootloaderNames.any fun name => lower ((body.drop 32).dropWhile (· == ' ')) == "./efi/boot/".toList ++ name

/-- The name of a boot loader is changed into that of the original one. -/
def renamed (l : List Char) : List Char :=
  if namesBootloader (chomp l) then
    (chomp l).take ((chomp l).length - 4) ++ "_original.efi".toList ++ l.drop (chomp l).length
  else l

/-- The text as it should be. -/
def expectedText (md5sumTotalbytes : UInt64) (text : List Char) : List Char :=
  header md5sumTotalbytes ++ ((lines text).map renamed).flatten

/-- The text of a list has no NUL. -/
structure Md5sumText where
  text : List Char
  noNul : nul ∉ text

/-- What the pass should do with a text, whatever stands behind it in memory. -/
structure PassRenames (md5sumTotalbytes : UInt64) (m : Md5sumText) : Prop where
  written : ∀ behind, (renamePass md5sumTotalbytes m.text behind).newData = expectedText md5sumTotalbytes m.text
  size : ∀ behind, (renamePass md5sumTotalbytes m.text behind).newSize = (expectedText md5sumTotalbytes m.text).length
  inside : ∀ behind, (renamePass md5sumTotalbytes m.text behind).peak ≤ capacity m.text

/-- A line ends in a blank, the path of a boot loader and a line break. -/
def endsInBootloader (l : List Char) : Bool :=
  bootloaderNames.any fun name => (" ./efi/boot/".toList ++ name ++ ['\n']).isSuffixOf (lower l)

/-- No line but those of the boot loaders ends in the path of one, each of these is ended by a line
break, and the new buffer has room for what their names have more, as well as for a NUL where the
last line is one of them. -/
structure RoomForNames (md5sumTotalbytes : UInt64) (m : Md5sumText) : Prop where
  ends : ∀ l ∈ lines m.text, endsInBootloader l = namesBootloader (chomp l)
  size : m.text.length + 1024 < 2 ^ 32
  room : (header md5sumTotalbytes).length + 9 * (lines m.text).countP (fun l => namesBootloader (chomp l)) +
    (if (lines m.text).getLast?.any endsInBootloader then 1 else 0) ≤ 1024

end Specification

end SecureWipeOut.Md5sum
