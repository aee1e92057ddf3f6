import SecureWipeOut.Media.Md5sumRename
import Mathlib

/-! # The lines with the path of a boot loader

Whether a line is rewritten is read off its end. Here the text that the pass gives is computed
from the front: where no path of a boot loader is ended by a line break, one character is copied,
and where one is, the name is changed.
-/
namespace SecureWipeOut.Md5sum
open CText Search TextFile

section Letters

theorem toLower_eq_iff {c d : Char} (hd : d.isAlpha = false) : c.toLower = d ↔ c = d := by
  have hupper : ∀ n < 128, (Char.ofNat n).isUpper = true → (Char.ofNat n).toLower.isAlpha = true := by decide
  by_cases hc : c.isUpper = true
  · have hlt : c.toNat < 128 := by
      simp only [Char.isUpper,decide_eq_true_eq] at hc
      have h2 : c.val.toNat ≤ 90 := UInt32.le_iff_toNat_le.mp hc.2
      have hval : c.toNat = c.val.toNat := rfl
      omega
    have hlow : c.toLower.isAlpha = true := by
      have := hupper c.toNat hlt
      rw [Char.ofNat_toNat] at this
      exact this hc
    constructor
    · rintro rfl
      rw [hd] at hlow
      cases hlow
    · rintro rfl
      rw [Char.isAlpha,hc] at hd
      cases hd
  · have hsame : c.toLower = c := by
      rw [Char.toLower,dif_neg]
      simpa [Char.isUpper] using hc
    rw [hsame]

theorem mem_lower_iff {s : List Char} {d : Char} (hd : d.isAlpha = false) : d ∈ lower s ↔ d ∈ s := by
  rw [lower,List.mem_map]
  constructor
  · rintro ⟨c,hc,hcd⟩
    rw [toLower_eq_iff hd] at hcd
    rwa [← hcd]
  · exact fun h => ⟨d,h,(toLower_eq_iff hd).mpr rfl⟩

@[simp] theorem length_lower (s : List Char) : (lower s).length = s.length := List.length_map _

@[simp] theorem lower_append (s t : List Char) : lower (s ++ t) = lower s ++ lower t := List.map_append

theorem lower_drop (s : List Char) (n : ℕ) : lower (s.drop n) = (lower s).drop n := List.map_drop

theorem lower_take (s : List Char) (n : ℕ) : lower (s.take n) = (lower s).take n := List.map_take

/-- A line that a text begins with in some letter case. -/
theorem prefix_lower_iff {x t : List Char} :
    x ++ ['\n'] <+: lower t ↔ ∃ a rest, t = a ++ '\n' :: rest ∧ lower a = x := by
  constructor
  · rintro ⟨rest,hrest⟩
    rw [List.append_assoc,lower,eq_comm,List.map_eq_append_iff] at hrest
    obtain ⟨a,b,rfl,ha,hb⟩ := hrest
    obtain ⟨d,ds,rfl,hd,-⟩ := List.map_eq_cons_iff.mp hb
    obtain rfl := (toLower_eq_iff (by decide)).mp hd
    exact ⟨a,ds,rfl,ha⟩
  · rintro ⟨a,rest,rfl,rfl⟩
    refine ⟨lower rest,?_⟩
    rw [lower_append,List.append_assoc]
    rfl

end Letters

section Names

/-- What the names of the boot loaders have in common. -/
theorem bootloaderNames_spec : ∀ name ∈ bootloaderNames, lower name = name ∧ ' ' ∉ name ∧ '\n' ∉ name ∧ nul ∉ name ∧
    4 ≤ name.length ∧ "boot".toList <+: name := by
  decide +kernel

theorem bootloaderNames_nodup : bootloaderNames.Nodup := by decide +kernel

/-- What stands before the name in the path of a boot loader. -/
def lead : List Char := " ./efi/boot/".toList

/-- A text begins with the path of a boot loader and a line break. -/
def Hit (name t : List Char) : Prop := lead ++ name ++ ['\n'] <+: lower t

variable {name t : List Char}

theorem endsInBootloader_cons (c : Char) (l : List Char) : endsInBootloader (c :: l) = true ↔
    (∃ name ∈ bootloaderNames, lead ++ name ++ ['\n'] = lower (c :: l)) ∨ endsInBootloader l = true := by
  simp only [endsInBootloader,List.any_eq_true,List.isSuffixOf_iff_suffix]
  constructor
  · rintro ⟨name,hname,hsuffix⟩
    rw [lower,List.map_cons,List.suffix_cons_iff] at hsuffix
    rcases hsuffix with h | h
    · exact Or.inl ⟨name,hname,h⟩
    · exact Or.inr ⟨name,hname,h⟩
  · rintro (⟨name,hname,h⟩ | ⟨name,hname,h⟩)
    · exact ⟨name,hname,h ▸ List.suffix_rfl⟩
    · exact ⟨name,hname,h.trans (List.suffix_cons _ _)⟩

theorem five_le_of_ends {l : List Char} (h : endsInBootloader l = true) : 5 ≤ l.length := by
  obtain ⟨name,hname,hsuffix⟩ := List.any_eq_true.mp h
  have hlen := (List.isSuffixOf_iff_suffix.mp hsuffix).length_le
  have hfour := (bootloaderNames_spec name hname).2.2.2.2.1
  simp only [List.length_append,length_lower,List.length_singleton] at hlen
  omega

/-- What the pass makes of a line. -/
def rewritten (l : List Char) : List Char :=
  if endsInBootloader l then l.take (l.length - 5) ++ "_original.efi\n".toList else l

def passText (t : List Char) : List Char := ((lines t).map rewritten).flatten

def passCount (t : List Char) : ℕ := (lines t).countP endsInBootloader

/-- The last line is rewritten. -/
def PassEnds (t : List Char) : Prop := (lines t).getLast?.any endsInBootloader = true

theorem lines_eq_nil {t : List Char} : lines t = [] ↔ t = [] := by
  refine ⟨fun h => ?_,fun h => h ▸ rfl⟩
  rw [← flatten_lines t,h]
  rfl

theorem rewritten_of_not {l : List Char} (h : endsInBootloader l = false) : rewritten l = l := by
  rw [rewritten,h,if_neg Bool.false_ne_true]

/-- A character in front of a line that does not make it the path of a boot loader. -/
theorem ends_cons {c : Char} {l u : List Char} (hl : c :: l <+: c :: u) (h : ∀ name ∈ bootloaderNames, ¬Hit name (c :: u)) :
    endsInBootloader (c :: l) = endsInBootloader l := by
  rw [Bool.eq_iff_iff,endsInBootloader_cons]
  refine ⟨fun hor => hor.resolve_left ?_,Or.inr⟩
  rintro ⟨name,hname,heq⟩
  refine h name hname ?_
  rw [Hit,heq]
  exact hl.map Char.toLower

theorem rewritten_cons {c : Char} {l : List Char} (h : endsInBootloader (c :: l) = endsInBootloader l) :
    rewritten (c :: l) = c :: rewritten l := by
  unfold rewritten
  rw [h]
  split
  · next hends =>
    have hfive := five_le_of_ends hends
    have hlen : (c :: l).length - 5 = l.length - 5 + 1 := by
      rw [List.length_cons]
      omega
    rw [hlen,List.take_succ_cons,List.cons_append]
  · rfl

theorem any_getLast_cons {x : List Char} {ls : List (List Char)} : (x :: ls).getLast?.any endsInBootloader =
    if ls = [] then endsInBootloader x else ls.getLast?.any endsInBootloader := by
  cases ls with
  | nil => rfl
  | cons y ls => rw [List.getLast?_cons_cons,if_neg (List.cons_ne_nil _ _)]

/-- Where no path of a boot loader stands, a character is copied. -/
theorem pass_cons {c : Char} {u : List Char} (h : ∀ name ∈ bootloaderNames, ¬Hit name (c :: u)) :
    passText (c :: u) = c :: passText u ∧ passCount (c :: u) = passCount u ∧ (PassEnds (c :: u) ↔ PassEnds u) := by
  have hfirst : ∀ l ls, lines (c :: u) = (c :: l) :: ls → endsInBootloader (c :: l) = endsInBootloader l := by
    intro l ls hls
    refine ends_cons ?_ h
    rw [← flatten_lines (c :: u),hls]
    exact List.prefix_append _ _
  have hnil : endsInBootloader [] = false := rfl
  unfold passText passCount PassEnds
  by_cases hc : c = '\n'
  · have hls : lines (c :: u) = [c] :: lines u := by rw [lines,if_pos hc]
    have hone := (hfirst [] _ hls).trans hnil
    rw [hls,List.map_cons,List.flatten_cons,rewritten_of_not hone,List.countP_cons_of_neg (by rw [hone]; exact Bool.false_ne_true),
      any_getLast_cons,hone]
    refine ⟨rfl,rfl,?_⟩
    split
    · next hempty => rw [hempty]; rfl
    · rfl
  · cases hu : lines u with
    | nil =>
      have hls : lines (c :: u) = [[c]] := by rw [lines,if_neg hc,hu]
      have hone := (hfirst [] _ hls).trans hnil
      rw [hls,List.map_cons,List.flatten_cons,rewritten_of_not hone,List.countP_cons_of_neg (by rw [hone]; exact Bool.false_ne_true),
        any_getLast_cons,if_pos rfl,hone]
      exact ⟨rfl,rfl,Iff.rfl⟩
    | cons l ls =>
      have hls : lines (c :: u) = (c :: l) :: ls := by rw [lines,if_neg hc,hu]
      have hone := hfirst l ls hls
      rw [hls,List.map_cons,List.flatten_cons,rewritten_cons hone,List.countP_cons,List.countP_cons,any_getLast_cons,
        any_getLast_cons,hone]
      exact ⟨rfl,rfl,Iff.rfl⟩

/-- Where the path of a boot loader stands, the name is changed and the pass goes on behind the
line break. -/
theorem pass_hit (hname : name ∈ bootloaderNames) (h : Hit name t) :
    passText t = t.take (8 + name.length) ++ "_original.efi\n".toList ++ passText (t.drop (13 + name.length)) ∧
      passCount t = passCount (t.drop (13 + name.length)) + 1 ∧
      (PassEnds t ↔ t.drop (13 + name.length) = [] ∨ PassEnds (t.drop (13 + name.length))) := by
  have hlead : lead.length = 12 := by decide
  have hspec := bootloaderNames_spec name hname
  have hlen : (lead ++ name ++ ['\n']).length = 13 + name.length := by
    simp only [List.length_append,hlead,List.length_singleton]
    omega
  have hlow : lower (t.take (13 + name.length)) = lead ++ name ++ ['\n'] := by
    rw [lower_take,← hlen]
    exact (List.prefix_iff_eq_take.mp h).symm
  obtain ⟨body,rest,hsplit,hmap⟩ := prefix_lower_iff.mp h
  have hbody : t.take (13 + name.length) = body ++ ['\n'] := by
    have hcount : (body ++ ['\n']).length = 13 + name.length := by
      rw [List.length_append,← length_lower body,hmap,List.length_append,hlead,List.length_singleton]
      omega
    rw [hsplit,List.append_cons,← hcount,List.take_left]
  have hline : '\n' ∉ body := by
    rw [← mem_lower_iff (by decide),hmap,List.mem_append]
    rintro (hmem | hmem)
    · exact absurd hmem (by decide)
    · exact hspec.2.2.1 hmem
  have hends : endsInBootloader (t.take (13 + name.length)) = true := by
    rw [endsInBootloader,List.any_eq_true]
    refine ⟨name,hname,List.isSuffixOf_iff_suffix.mpr ?_⟩
    rw [hlow]
    exact List.suffix_rfl
  have hlines : lines t = t.take (13 + name.length) :: lines (t.drop (13 + name.length)) := by
    conv_lhs => rw [← List.take_append_drop (13 + name.length) t,hbody,List.append_assoc,List.singleton_append,
      lines_cons_append hline,← hbody]
  have hsize : (t.take (13 + name.length)).length = 13 + name.length := by
    rw [← length_lower,hlow,hlen]
  have htake : rewritten (t.take (13 + name.length)) = t.take (8 + name.length) ++ "_original.efi\n".toList := by
    rw [rewritten,if_pos hends,hsize,List.take_take]
    congr 2
    omega
  unfold passText passCount PassEnds
  rw [hlines,List.map_cons,List.flatten_cons,htake,List.countP_cons_of_pos hends,any_getLast_cons,hends]
  refine ⟨rfl,rfl,?_⟩
  split
  · next hnil => exact ⟨fun _ => Or.inl (lines_eq_nil.mp hnil),fun _ => rfl⟩
  · next hne =>
    refine ⟨Or.inr,fun hor => hor.resolve_left fun hnil => hne ?_⟩
    exact lines_eq_nil.mpr hnil

/-- A part of the text where no path of a boot loader begins is copied. -/
theorem pass_drop {n : ℕ} (hn : n ≤ t.length) (h : ∀ i < n, ∀ name ∈ bootloaderNames, ¬Hit name (t.drop i)) :
    passText t = t.take n ++ passText (t.drop n) ∧ passCount t = passCount (t.drop n) ∧ (PassEnds t ↔ PassEnds (t.drop n)) := by
  induction n generalizing t with
  | zero => exact ⟨rfl,rfl,Iff.rfl⟩
  | succ n ih =>
    cases t with
    | nil => exact absurd hn (Nat.not_succ_le_zero n)
    | cons c u =>
      obtain ⟨htext,hcount,hends⟩ := pass_cons (h 0 (Nat.succ_pos n))
      obtain ⟨htext',hcount',hends'⟩ := ih (Nat.le_of_succ_le_succ hn) fun i hi => h (i + 1) (Nat.succ_lt_succ hi)
      refine ⟨?_,hcount.trans hcount',hends.trans hends'⟩
      rw [htext,htext']
      rfl

/-- A text in which no path of a boot loader begins is copied. -/
theorem pass_none (h : ∀ i, ∀ name ∈ bootloaderNames, ¬Hit name (t.drop i)) :
    passText t = t ∧ passCount t = 0 ∧ ¬PassEnds t := by
  obtain ⟨htext,hcount,hends⟩ := pass_drop le_rfl fun i _ => h i
  rw [List.drop_length] at htext hcount hends
  rw [List.take_length] at htext
  exact ⟨htext.trans (List.append_nil t),hcount,hends.not.mpr Bool.false_ne_true⟩

end Names

end SecureWipeOut.Md5sum
