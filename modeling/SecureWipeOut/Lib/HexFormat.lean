import SecureWipeOut.Lib.CText

/-! # Hexadecimal numbers of fixed width

The conversions `%0wX` of `printf` and `%wX` of `scanf`, and that the second reads what
the first has written, whatever follows.
-/
namespace SecureWipeOut.HexFormat
open CText

def hexChar (d : ℕ) : Char :=
  ['0','1','2','3','4','5','6','7','8','9','A','B','C','D','E','F'].getD d '0'

/-- `%0wX` of a number of at most `w` digits. -/
def hex : ℕ → ℕ → List Char
  | 0,_ => []
  | w + 1,n => hex w (n / 16) ++ [hexChar (n % 16)]

/-- `%wX`: the number read, as an `unsigned int`, and the rest of the text. Blanks before
the number are passed; a sign and `0x` count towards the width. -/
def scanHex (w : ℕ) (s : List Char) : Option (ℕ × List Char) :=
  let s := s.dropWhile isSpace
  let negative := s.head? = some '-'
  let sign := if s.head? = some '-' ∨ s.head? = some '+' then 1 else 0
  let s := s.drop sign
  let w := w - sign
  let lead := if 2 ≤ w ∧ s.head? = some '0' ∧ (s[1]? = some 'x' ∨ s[1]? = some 'X') then 2 else 0
  let s := s.drop lead
  let ds := (s.take (w - lead)).takeWhile fun c => decide (digit c < 16)
  let n := digits 16 ds % 2 ^ 32
  if ds = [] then none
  else some (if negative then (2 ^ 32 - n) % 2 ^ 32 else n,s.drop ds.length)

/-- A literal character of the format. -/
def scanChar (c : Char) (s : List Char) : Option (List Char) :=
  if s.head? = some c then some s.tail else none

theorem hexChar_spec : ∀ d < 16, digit (hexChar d) = d ∧ isSpace (hexChar d) = false ∧
    hexChar d ≠ '-' ∧ hexChar d ≠ '+' ∧ hexChar d ≠ 'x' ∧ hexChar d ≠ 'X' := by
  decide

@[simp] theorem length_hex (w n : ℕ) : (hex w n).length = w := by
  induction w generalizing n with
  | zero => rfl
  | succ w ih => simp [hex,ih]

theorem mem_hex {w n : ℕ} {c : Char} (h : c ∈ hex w n) : ∃ d < 16, c = hexChar d := by
  induction w generalizing n with
  | zero => simp [hex] at h
  | succ w ih =>
    rw [hex,List.mem_append,List.mem_singleton] at h
    rcases h with h | rfl
    · exact ih h
    · exact ⟨n % 16,Nat.mod_lt _ (by omega),rfl⟩

theorem digit_lt_of_mem_hex {w n : ℕ} : ∀ c ∈ hex w n, decide (digit c < 16) = true := by
  intro c hc
  obtain ⟨d,hd,rfl⟩ := mem_hex hc
  simpa [(hexChar_spec d hd).1] using hd

theorem takeWhile_hex (w n : ℕ) :
    (hex w n).takeWhile (fun c => decide (digit c < 16)) = hex w n :=
  List.takeWhile_eq_self_iff.mpr digit_lt_of_mem_hex

theorem foldl_hex {w n : ℕ} (h : n < 16 ^ w) :
    (hex w n).foldl (fun m c => 16 * m + digit c) 0 = n := by
  induction w generalizing n with
  | zero =>
    rw [pow_zero] at h
    simp [hex]
    omega
  | succ w ih =>
    have hdiv : n / 16 < 16 ^ w := by
      rw [pow_succ] at h
      omega
    rw [hex,List.foldl_append,ih hdiv,List.foldl_cons,List.foldl_nil,
      (hexChar_spec (n % 16) (Nat.mod_lt _ (by omega))).1]
    omega

theorem digits_hex {w n : ℕ} (h : n < 16 ^ w) : digits 16 (hex w n) = n := by
  rw [digits,takeWhile_hex,foldl_hex h]

/-- The number written is the number read. -/
theorem scanHex_hex {w n : ℕ} (hw : 2 ≤ w) (hw8 : w ≤ 8) (h : n < 16 ^ w) (rest : List Char) :
    scanHex w (hex w n ++ rest) = some (n,rest) := by
  have hlen := length_hex w n
  have hmem : ∀ c ∈ hex w n, isSpace c = false ∧ c ≠ '-' ∧ c ≠ '+' ∧ c ≠ 'x' ∧ c ≠ 'X' := by
    intro c hc
    obtain ⟨d,hd,rfl⟩ := mem_hex hc
    exact (hexChar_spec d hd).2
  match hhex : hex w n with
  | [] => simp [hhex] at hlen; omega
  | [_] => simp [hhex] at hlen; omega
  | a :: b :: t =>
    have ha := hmem a (by simp [hhex])
    have hb := hmem b (by simp [hhex])
    have htake : (a :: b :: t ++ rest).take w = a :: b :: t := by
      have hlen' : (a :: b :: t).length = w := by rw [← hhex,hlen]
      rw [← hlen',List.take_left]
    have hdigits : (a :: b :: t).takeWhile (fun c => decide (digit c < 16)) = a :: b :: t := by
      rw [← hhex,takeWhile_hex]
    have hval : digits 16 (a :: b :: t) % 2 ^ 32 = n := by
      rw [← hhex,digits_hex h]
      have : 16 ^ w ≤ 16 ^ 8 := Nat.pow_le_pow_right (by omega) hw8
      omega
    have hspace : (a :: b :: t ++ rest).dropWhile isSpace = a :: b :: t ++ rest := by
      simp [ha.1]
    have hdrop : (a :: b :: t ++ rest).drop (a :: b :: t).length = rest := List.drop_left
    simp only [scanHex,hspace]
    simp only [List.cons_append,List.head?_cons,Option.some.injEq,ha.2.1,ha.2.2.1,or_false,if_false,
      List.drop_zero,List.getElem?_cons_succ,List.getElem?_cons_zero,hb.2.2.2.1,hb.2.2.2.2,and_false,
      Nat.sub_zero]
    simp only [← List.cons_append,htake,hdigits,hval,hdrop]
    simp

theorem bind_scanHex {β : Type} {w n : ℕ} (hw : 2 ≤ w) (hw8 : w ≤ 8) (h : n < 16 ^ w)
    (rest : List Char) (f : ℕ × List Char → Option β) :
    (scanHex w (hex w n ++ rest)).bind f = f (n,rest) := by
  rw [scanHex_hex hw hw8 h,Option.bind_some]

theorem bind_scanChar {β : Type} (c : Char) (s : List Char) (f : List Char → Option β) :
    (scanChar c (c :: s)).bind f = f s := by
  simp [scanChar]

end SecureWipeOut.HexFormat
