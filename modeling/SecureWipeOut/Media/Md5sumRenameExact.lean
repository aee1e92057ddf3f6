import SecureWipeOut.Media.Md5sumRenameLoop

/-! # When the new names fit

What the pass writes is the text with the lines rewritten that end in the path of a boot loader,
and the buffer is large enough exactly when there are not too many of them.
-/
namespace SecureWipeOut.Md5sum
open CText Search TextFile

section Pass
variable {total : UInt64} {text behind : List Char}

/-- What the pass writes, the size that it computes, and the room that it needs. -/
theorem renamePass_spec (total : UInt64) (behind : List Char) (hnul : nul ∉ text) :
    (renamePass total text behind).newData = (header total).take (capacity text - 1) ++ passText text ∧
      (renamePass total text behind).newSize =
        (text.length + ((header total).take (capacity text - 1)).length + 9 * passCount text) % 2 ^ 32 ∧
      ((renamePass total text behind).peak ≤ capacity text ↔
        (renamePass total text behind).newData.length +
          (if (lines text).getLast?.any endsInBootloader then 1 else 0) ≤ capacity text) := by
  unfold renamePass
  dsimp only
  generalize hline : (header total).take (capacity text - 1) = line
  generalize hfirst : (if total = 0 then 0 else min (capacity text) (line.length + 1)) = first
  have hfit : first ≤ capacity text ∧ first ≤ line.length + 1 := by
    rw [← hfirst]
    split <;> omega
  generalize hstart : (⟨text ++ nul :: behind,0,line,(text.length + line.length) % 2 ^ 32,first⟩ : Renaming) = r
  have hround : AtRound text behind r 0 := by
    subst hstart
    exact ⟨rfl,Nat.zero_le _,Nat.zero_le _,fun i _ hi => absurd hi (Nat.not_lt_zero i),fun i _ hi => absurd hi (Nat.not_lt_zero i),
      hfit.2,Nat.mod_lt _ (by decide)⟩
  have hpass := renameLoop_passed hnul hround
  have hs : r.s = 0 := by rw [← hstart]
  have hdata : r.newData = line := by rw [← hstart]
  have hsize : r.newSize = (text.length + line.length) % 2 ^ 32 := by rw [← hstart]
  have hpeak : r.peak = first := by rw [← hstart]
  obtain ⟨hbuf,hle,hwritten,hsum,hnone,hsome,hends⟩ := hpass
  rw [hs,List.drop_zero] at hwritten hsum hnone hsome hends
  unfold PassEnds at hends
  have hcopy : ((renameLoop r 0).md5Data.drop (renameLoop r 0).s).take (text.length - (renameLoop r 0).s) =
      text.drop (renameLoop r 0).s := by
    rw [hbuf,List.drop_append_of_le_length hle,← List.length_drop,List.take_left]
  rw [hcopy,hwritten,hdata,hsum,hsize]
  refine ⟨rfl,by omega,?_⟩
  have hlen := congrArg List.length hwritten
  rw [List.length_append,List.length_drop,hdata] at hlen
  by_cases hzero : passCount text = 0
  · have hno : ¬(lines text).getLast?.any endsInBootloader = true := fun h => (hends.mp h).1 hzero
    rw [if_neg hno,hnone hzero,hpeak]
    omega
  · rw [hsome hzero]
    by_cases hlast : (lines text).getLast?.any endsInBootloader = true
    · have hstop := (hends.mp hlast).2
      rw [if_pos hlast]
      omega
    · have hstop : (renameLoop r 0).s ≠ text.length := fun h => hlast (hends.mpr ⟨hzero,h⟩)
      rw [if_neg hlast]
      omega

theorem length_rewritten (l : List Char) : (rewritten l).length = l.length + 9 * (if endsInBootloader l then 1 else 0) := by
  unfold rewritten
  split
  · next h =>
    have hfive := five_le_of_ends h
    have horiginal : "_original.efi\n".toList.length = 14 := by decide
    rw [List.length_append,List.length_take,horiginal]
    omega
  · rfl

theorem length_passText (text : List Char) : (passText text).length = text.length + 9 * passCount text := by
  have hsum : ∀ ls : List (List Char), ((ls.map rewritten).flatten).length = ls.flatten.length + 9 * ls.countP endsInBootloader := by
    intro ls
    induction ls with
    | nil => rfl
    | cons l ls ih =>
      rw [List.map_cons,List.flatten_cons,List.length_append,ih,length_rewritten,List.flatten_cons,List.length_append,
        List.countP_cons]
      omega
  rw [passText,hsum,flatten_lines]
  rfl

theorem length_header (total : UInt64) : (header total).length ≤ 41 := by
  unfold header
  split
  · exact Nat.zero_le _
  · have hdigits : (Nat.toDigits 16 total.toNat).length ≤ 16 := by
      rw [Nat.length_toDigits_le_iff (by decide) (by decide)]
      exact total.toNat_lt
    have hname : "# md5sum_totalbytes = 0x".toList.length = 24 := by decide
    rw [List.length_append,List.length_append,hname,List.length_singleton]
    omega

end Pass

section Exact

theorem terminated_rewritten {l : List Char} (h : Terminated l) : Terminated (rewritten l) := by
  unfold rewritten
  split
  · obtain ⟨body,rfl,hbody⟩ := h
    refine ⟨(body ++ ['\n']).take ((body ++ ['\n']).length - 5) ++ "_original.efi".toList,?_,?_⟩
    · rw [List.append_assoc]
      rfl
    · rw [List.length_append,List.length_singleton,List.take_append_of_le_length (by omega),List.mem_append]
      rintro (hmem | hmem)
      · exact hbody (List.mem_of_mem_take hmem)
      · exact absurd hmem (by decide)
  · exact h

theorem ends_of_line {l : List Char} (h : '\n' ∉ l) : endsInBootloader l = false := by
  rw [Bool.eq_false_iff]
  intro hends
  obtain ⟨name,-,hsuffix⟩ := List.any_eq_true.mp hends
  have hmem := (List.isSuffixOf_iff_suffix.mp hsuffix).subset (List.mem_append_right _ (List.mem_singleton_self '\n'))
  exact h ((mem_lower_iff (by decide)).mp hmem)

theorem chomp_of_line {l : List Char} (h : '\n' ∉ l) : chomp l = l := by
  rw [chomp,if_neg]
  exact fun hlast => h (List.mem_of_getLast? hlast)

theorem chomp_terminated (body : List Char) : chomp (body ++ ['\n']) = body := by
  rw [chomp,if_pos (List.getLast?_concat ..),List.dropLast_concat]

theorem renamed_line {l : List Char} (h : '\n' ∉ l) (hne : l ≠ []) : '\n' ∉ renamed l ∧ renamed l ≠ [] := by
  unfold renamed
  rw [chomp_of_line h]
  split
  · rw [List.drop_length,List.append_nil,List.mem_append]
    refine ⟨?_,List.append_ne_nil_of_right_ne_nil _ (by decide)⟩
    rintro (hmem | hmem)
    · exact h (List.mem_of_mem_take hmem)
    · exact absurd hmem (by decide)
  · exact ⟨h,hne⟩

theorem terminated_renamed {l : List Char} (h : Terminated l) : Terminated (renamed l) := by
  obtain ⟨body,rfl,hbody⟩ := h
  unfold renamed
  rw [chomp_terminated,List.drop_left]
  split
  · refine ⟨body.take (body.length - 4) ++ "_original.efi".toList,rfl,?_⟩
    rw [List.mem_append]
    rintro (hmem | hmem)
    · exact hbody (List.mem_of_mem_take hmem)
    · exact absurd hmem (by decide)
  · exact ⟨body,rfl,hbody⟩

theorem length_renamed (l : List Char) :
    (renamed l).length = l.length + 9 * (if namesBootloader (chomp l) then 1 else 0) := by
  unfold renamed
  split
  · next h =>
    have hlong : 32 < (chomp l).length := by
      rw [namesBootloader,Bool.and_eq_true,Bool.and_eq_true,beq_iff_eq] at h
      exact List.getElem?_eq_some_iff.mp h.1.2 |>.1
    have hle : (chomp l).length ≤ l.length := by
      unfold chomp
      split
      · rw [List.length_dropLast]
        omega
      · exact le_rfl
    have horiginal : "_original.efi".toList.length = 13 := by decide
    rw [List.length_append,List.length_append,List.length_take,List.length_drop,horiginal]
    omega
  · rfl

theorem rewritten_eq_renamed {l : List Char} (h : endsInBootloader l = namesBootloader (chomp l)) : rewritten l = renamed l := by
  unfold rewritten renamed
  rw [← h]
  split
  · next hends =>
    obtain ⟨name,-,hsuffix⟩ := List.any_eq_true.mp hends
    obtain ⟨pre,hpre⟩ := List.isSuffixOf_iff_suffix.mp hsuffix
    obtain ⟨body,rfl⟩ : ∃ body, l = body ++ ['\n'] := by
      rw [← List.append_assoc,lower,eq_comm,List.map_eq_append_iff] at hpre
      obtain ⟨body,last,rfl,-,hlast⟩ := hpre
      obtain ⟨d,ds,rfl,hd,hds⟩ := List.map_eq_cons_iff.mp hlast
      obtain rfl := List.map_eq_nil_iff.mp hds
      obtain rfl := (toLower_eq_iff (by decide)).mp hd
      exact ⟨body,rfl⟩
    rw [chomp_terminated,List.drop_left,List.length_append,List.length_singleton,List.take_append_of_le_length (by omega),
      List.append_assoc]
    rfl
  · rfl

/-- The pass gives the text as it should be when it rewrites the lines that name a boot loader. -/
theorem passText_iff (text : List Char) : passText text = ((lines text).map renamed).flatten ↔
    ∀ l ∈ lines text, endsInBootloader l = namesBootloader (chomp l) := by
  constructor
  · intro h l hl
    have hmap : (lines text).map rewritten = (lines text).map renamed := by
      have hrewritten := lines_map (f := rewritten) (fun l => terminated_rewritten) (fun l hline hne => Or.inr ?_) text
      · rw [← hrewritten]
        change lines (passText text) = _
        rw [h]
        exact lines_map (fun l => terminated_renamed) (fun l hline hne => Or.inr (renamed_line hline hne)) text
      · rw [rewritten_of_not (ends_of_line hline)]
        exact ⟨hline,hne⟩
    have hlen := congrArg List.length (List.map_inj_left.mp hmap l hl)
    rw [length_rewritten,length_renamed] at hlen
    cases hends : endsInBootloader l <;> cases hnames : namesBootloader (chomp l)
    · rfl
    · rw [hends,hnames] at hlen
      simp at hlen
    · rw [hends,hnames] at hlen
      simp at hlen
    · rfl
  · intro h
    rw [passText,List.map_congr_left fun l hl => rewritten_eq_renamed (h l hl)]

variable {total : UInt64} {m : Md5sumText}

theorem capacity_eq {text : List Char} (h : text.length + 1024 < 2 ^ 32) : capacity text = text.length + 1024 := Nat.mod_eq_of_lt h

theorem header_fits {text : List Char} (h : text.length + 1024 < 2 ^ 32) : (header total).take (capacity text - 1) = header total := by
  have hle := length_header total
  rw [capacity_eq h]
  exact List.take_of_length_le (by omega)

theorem passCount_eq (h : ∀ l ∈ lines m.text, endsInBootloader l = namesBootloader (chomp l)) :
    passCount m.text = (lines m.text).countP fun l => namesBootloader (chomp l) :=
  List.countP_congr fun l hl => by rw [h l hl]

theorem room_of_pass (h : PassRenames total m) : RoomForNames total m := by
  obtain ⟨hwritten,-,hpeak⟩ := renamePass_spec total [] m.noNul
  have hinside := hpeak.mp (h.inside [])
  rw [hwritten,List.length_append,length_passText] at hinside
  have hsize : m.text.length + 1024 < 2 ^ 32 := by
    unfold capacity at hinside
    omega
  rw [header_fits hsize,capacity_eq hsize] at hinside
  have htext := h.written []
  rw [hwritten,header_fits hsize,expectedText,List.append_cancel_left_eq] at htext
  have hends := (passText_iff m.text).mp htext
  rw [passCount_eq hends] at hinside
  exact ⟨hends,hsize,by omega⟩

theorem pass_of_room (h : RoomForNames total m) : PassRenames total m := by
  have hsize := h.size
  have hroom := h.room
  have htext := (passText_iff m.text).mpr h.ends
  have hlen := length_passText m.text
  have hwritten : ∀ behind, (renamePass total m.text behind).newData = expectedText total m.text := by
    intro behind
    rw [(renamePass_spec total behind m.noNul).1,header_fits hsize,htext]
    rfl
  rw [← passCount_eq h.ends] at hroom
  have hexpected : (expectedText total m.text).length = (header total).length + m.text.length + 9 * passCount m.text := by
    rw [expectedText,← htext,List.length_append,hlen,Nat.add_assoc]
  refine ⟨hwritten,fun behind => ?_,fun behind => ?_⟩
  · rw [(renamePass_spec total behind m.noNul).2.1,header_fits hsize,hexpected,Nat.mod_eq_of_lt]
    · omega
    · omega
  · rw [(renamePass_spec total behind m.noNul).2.2,hwritten,hexpected,capacity_eq hsize]
    omega

/-- The pass does what it should exactly when the lines that name a boot loader are those that end in
the path of one, and the new names fit. -/
theorem renamePass_iff (total : UInt64) (m : Md5sumText) : PassRenames total m ↔ RoomForNames total m :=
  ⟨room_of_pass,pass_of_room⟩

def bootEntry : List Char := "d41d8cd98f00b204e9800998ecf8427e  ./EFI/BOOT/BOOTX64.EFI\n".toList

/-- A text with the same line a number of times. -/
def repeatedEntry (n : ℕ) : Md5sumText where
  text := (List.replicate n bootEntry).flatten
  noNul := by
    rw [List.mem_flatten]
    rintro ⟨l,hl,hmem⟩
    rw [List.eq_of_mem_replicate hl] at hmem
    exact absurd hmem (by decide)

theorem lines_repeatedEntry (n : ℕ) : lines (repeatedEntry n).text = List.replicate n bootEntry := by
  have hterm : ∀ l ∈ List.replicate n bootEntry, Terminated l := by
    intro l hl
    rw [List.eq_of_mem_replicate hl]
    exact ⟨bootEntry.dropLast,by decide,by decide⟩
  have h := lines_append hterm []
  rw [List.append_nil] at h
  exact h.trans (List.append_nil _)

/-- A name that stands in more lines than the room is for is written behind the end of the buffer. -/
theorem renamePass_overflows : ¬PassRenames 0 (repeatedEntry 114) := by
  intro h
  have hroom := (room_of_pass h).room
  have hnames : namesBootloader (chomp bootEntry) = true := by decide
  rw [lines_repeatedEntry,List.countP_replicate,hnames,if_pos rfl] at hroom
  omega

end Exact

end SecureWipeOut.Md5sum
