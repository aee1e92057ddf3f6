import Mathlib.Tactic
import Mathlib.Data.List.TakeWhile

/-! # Text buffers of C

A buffer is its list of characters; what lies behind its end reads as NUL. A scan
advances an index up to the first character that stops it, and the string at an
index ends before the first NUL. What a scan does is read off the suffix of the
buffer that begins at its index.
-/
namespace SecureWipeOut.CText

abbrev Buf := List Char

def nul : Char := Char.ofNat 0

def charAt (buf : Buf) (i : ℕ) : Char := buf.getD i nul

/-- The loop `for (; !stop(buf[i]); i++);`. -/
def scan (stop : Char → Bool) (buf : Buf) (i : ℕ) : ℕ :=
  i + ((buf.drop i).takeWhile fun c => !stop c).length

/-- The string that begins at an index. -/
def cstr (buf : Buf) (i : ℕ) : List Char := (buf.drop i).takeWhile fun c => c != nul

section Numbers

def isSpace (c : Char) : Bool := [' ','\t','\n','\r',Char.ofNat 11,Char.ofNat 12].contains c

def digit (c : Char) : ℕ :=
  if '0' ≤ c ∧ c ≤ '9' then c.toNat - '0'.toNat
  else if 'a' ≤ c ∧ c ≤ 'z' then c.toNat - 'a'.toNat + 10
  else if 'A' ≤ c ∧ c ≤ 'Z' then c.toNat - 'A'.toNat + 10
  else 36

/-- The number that the leading digits of a text write. -/
def digits (base : ℕ) (s : List Char) : ℕ :=
  (s.takeWhile fun c => decide (digit c < base)).foldl (fun n c => base * n + digit c) 0

/-- `atoi`, a value out of range being replaced by the nearest one in range. -/
def atoi (s : List Char) : ℤ :=
  match s.dropWhile isSpace with
  | '-' :: s => max (-2 ^ 31) (-(digits 10 s : ℤ))
  | '+' :: s => min (2 ^ 31 - 1) (digits 10 s : ℤ)
  | s => min (2 ^ 31 - 1) (digits 10 s : ℤ)

/-- `strtoul` where `unsigned long` has 32 bits. -/
def strtoul (base : ℕ) (s : List Char) : ℕ :=
  let magnitude (s : List Char) : ℕ :=
    match s with
    | '0' :: 'x' :: s' => if base = 16 then digits 16 s' else digits base s
    | '0' :: 'X' :: s' => if base = 16 then digits 16 s' else digits base s
    | _ => digits base s
  match s.dropWhile isSpace with
  | '-' :: s => if magnitude s < 2 ^ 32 then (2 ^ 32 - magnitude s) % 2 ^ 32 else 2 ^ 32 - 1
  | '+' :: s => min (2 ^ 32 - 1) (magnitude s)
  | s => min (2 ^ 32 - 1) (magnitude s)

/-- `strtol` with base 0, where `long` has 32 bits: the value and the number of
characters read. -/
def strtol (s : List Char) : ℤ × ℕ :=
  let blanks := (s.takeWhile isSpace).length
  let s := s.drop blanks
  let negative := s.head? = some '-'
  let sign := if s.head? = some '-' ∨ s.head? = some '+' then 1 else 0
  let s := s.drop sign
  let hex := s.head? = some '0' ∧ (s[1]? = some 'x' ∨ s[1]? = some 'X') ∧ digit (s.getD 2 ' ') < 16
  let base := if hex then 16 else if s.head? = some '0' then 8 else 10
  let lead := if hex then 2 else 0
  let ds := (s.drop lead).takeWhile fun c => decide (digit c < base)
  let n : ℤ := digits base ds
  if ds = [] then (0,0)
  else (if negative then max (-2 ^ 31) (-n) else min (2 ^ 31 - 1) n,blanks + sign + lead + ds.length)

end Numbers

theorem charAt_of_drop {buf rest : Buf} {c : Char} {i : ℕ} (h : buf.drop i = c :: rest) :
    charAt buf i = c := by
  have := congrArg (fun l => l[0]?) h
  simp only [List.getElem?_drop,Nat.add_zero,List.getElem?_cons_zero] at this
  simp [charAt,List.getD_eq_getElem?_getD,this]

theorem charAt_append (pre : Buf) (c : Char) (rest : Buf) : charAt (pre ++ c :: rest) pre.length = c :=
  charAt_of_drop (List.drop_left)

theorem charAt_of_drop_nil {buf : Buf} {i : ℕ} (h : buf.drop i = []) : charAt buf i = nul := by
  rw [List.drop_eq_nil_iff] at h
  simp [charAt,List.getD_eq_getElem?_getD,h]

theorem drop_add {buf pre rest : Buf} {i : ℕ} (h : buf.drop i = pre ++ rest) :
    buf.drop (i + pre.length) = rest := by
  rw [← List.drop_drop,h,List.drop_left]

theorem drop_succ {buf rest : Buf} {c : Char} {i : ℕ} (h : buf.drop i = c :: rest) :
    buf.drop (i + 1) = rest := by
  rw [← List.drop_drop,h]
  rfl

theorem takeWhile_append_stop {p : Char → Bool} {pre rest : Buf} (hpre : ∀ c ∈ pre, p c = true)
    (hrest : ∀ c ∈ rest.head?, p c = false) : (pre ++ rest).takeWhile p = pre := by
  rw [List.takeWhile_append_of_pos hpre]
  cases rest with
  | nil => simp
  | cons c rest => simp [hrest c (by simp)]

/-- Every text splits where a scan stops. -/
theorem exists_split (stop : Char → Bool) (text : Buf) : ∃ pre rest, text = pre ++ rest ∧
    (∀ c ∈ pre, stop c = false) ∧ ∀ c ∈ rest.head?, stop c = true := by
  refine ⟨text.takeWhile fun c => !stop c,text.dropWhile fun c => !stop c,
    List.takeWhile_append_dropWhile.symm,?_,?_⟩
  · intro c hc
    simpa using List.mem_takeWhile_imp hc
  · intro c hc
    have := List.head?_dropWhile_not (fun c => !stop c) text
    rw [Option.mem_def.mp hc] at this
    simpa using this

/-- A scan passes the characters that do not stop it. -/
theorem scan_eq {stop : Char → Bool} {buf pre rest : Buf} {i : ℕ} (h : buf.drop i = pre ++ rest)
    (hpre : ∀ c ∈ pre, stop c = false) (hrest : ∀ c ∈ rest.head?, stop c = true) :
    scan stop buf i = i + pre.length := by
  rw [scan,h,takeWhile_append_stop]
  · intro c hc
    simp [hpre c hc]
  · intro c hc
    simp [hrest c hc]

theorem le_scan (stop : Char → Bool) (buf : Buf) (i : ℕ) : i ≤ scan stop buf i := Nat.le_add_right ..

theorem lt_length_of_charAt {buf : Buf} {i : ℕ} (h : charAt buf i ≠ nul) : i < buf.length := by
  by_contra hge
  exact h (charAt_of_drop_nil (List.drop_eq_nil_iff.mpr (not_lt.mp hge)))

theorem lt_scan {stop : Char → Bool} {buf : Buf} {i : ℕ} (hi : i < buf.length)
    (h : stop (charAt buf i) = false) : i < scan stop buf i := by
  have hc : charAt buf i = buf[i] := charAt_of_drop (List.drop_eq_getElem_cons hi)
  rw [scan,List.drop_eq_getElem_cons hi,List.takeWhile_cons,if_pos (by simpa [hc] using h)]
  simp

theorem cstr_eq {buf pre rest : Buf} {i : ℕ} (h : buf.drop i = pre ++ rest)
    (hpre : nul ∉ pre) (hrest : ∀ c ∈ rest.head?, c = nul) : cstr buf i = pre := by
  rw [cstr,h,takeWhile_append_stop]
  · intro c hc
    have hne : c ≠ nul := fun he => hpre (he ▸ hc)
    simpa using hne
  · intro c hc
    simp [hrest c hc]

/-- The string at an index, read character by character. -/
theorem charAt_of_cstr {buf : Buf} {n : ℕ} {p t : List Char} {c : Char} (h : cstr buf n = p ++ c :: t) :
    charAt buf (n + p.length) = c := by
  have hdrop : buf.drop n = p ++ c :: (t ++ (buf.drop n).dropWhile fun c => c != nul) := by
    conv_lhs => rw [← List.takeWhile_append_dropWhile (p := fun c => c != nul) (l := buf.drop n)]
    rw [← cstr,h]
    simp
  exact charAt_of_drop (drop_add hdrop)

theorem charAt_end_of_cstr {buf : Buf} {n : ℕ} {s : List Char} (h : cstr buf n = s) :
    charAt buf (n + s.length) = nul := by
  have hdrop : buf.drop n = s ++ (buf.drop n).dropWhile fun c => c != nul := by
    conv_lhs => rw [← List.takeWhile_append_dropWhile (p := fun c => c != nul) (l := buf.drop n)]
    rw [← cstr,h]
  have hrest := drop_add hdrop
  cases hw : (buf.drop n).dropWhile fun c => c != nul with
  | nil => exact charAt_of_drop_nil (hrest.trans hw)
  | cons c rest =>
    have hhead := List.head?_dropWhile_not (fun c => c != nul) (buf.drop n)
    rw [hw] at hhead hrest
    rw [charAt_of_drop hrest]
    simpa using hhead

theorem charAt_set_of_ne {buf : Buf} {i j : ℕ} (h : j ≠ i) (d : Char) :
    charAt (buf.set i d) j = charAt buf j := by
  rw [charAt,charAt,List.getD_eq_getElem?_getD,List.getD_eq_getElem?_getD,
    List.getElem?_set_ne (Ne.symm h)]

theorem charAt_take_append {buf rest : Buf} {j k : ℕ} (hj : j < k) (hk : k ≤ buf.length) :
    charAt (buf.take k ++ rest) j = charAt buf j := by
  have hlen : j < (buf.take k).length := by
    rw [List.length_take]
    omega
  simp only [charAt,List.getD_eq_getElem?_getD]
  rw [List.getElem?_append_left hlen,List.getElem?_take,if_pos hj]

/-- Overwriting a character leaves the suffix behind it. -/
theorem drop_set {buf pre rest : Buf} {c d : Char} {i : ℕ} (h : buf.drop i = pre ++ c :: rest) :
    (buf.set (i + pre.length) d).drop i = pre ++ d :: rest := by
  have hlen : i ≤ i + pre.length := Nat.le_add_right ..
  rw [List.drop_set,if_neg (by omega),h,Nat.add_sub_cancel_left]
  simp

end SecureWipeOut.CText
