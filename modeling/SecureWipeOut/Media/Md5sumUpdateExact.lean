import SecureWipeOut.Media.Md5sumUpdateLines

/-! # When the right lines are updated

After the loop a line has the sum of the last file whose name was found in it. These are the sums
it should have exactly when, for every line, that file is the last one with the path of the line.
-/
namespace SecureWipeOut.Md5sum
open CText Search

section Update
def Line.withSum (sum : Fin 16 → UInt8) (l : Line) : Line :=
  ⟨hexSum sum,l.path,length_hexDigits sum 16,hexSum_hex sum,l.path_line,l.path_text⟩

theorem modify_append {α : Type*} (pre : List α) (a : α) (post : List α) (f : α → α) :
    (pre ++ a :: post).modify pre.length f = pre ++ f a :: post := by
  induction pre with
  | nil => rfl
  | cons b pre ih => simp [ih]

/-- One file updates the line in which its name is found. -/
theorem updateFile_render (closed : Bool) (hashFile : List Char → Fin 16 → UInt8) (lines : List Line) (m : Modified) :
    updateFile hashFile (render closed lines) m.name = match hit lines m with
      | none => render closed lines
      | some k => render closed (lines.modify k (Line.withSum (hashFile (slashes m.name)))) := by
  have hfind := find_render closed m lines
  unfold updateFile
  dsimp only
  rw [slashes_name,cstr_render]
  cases hhit : hit lines m with
  | none =>
    rw [hhit] at hfind
    rw [show find m.needle (render closed lines) = none from hfind]
  | some k =>
    rw [hhit] at hfind
    obtain ⟨pre,l,post,i,rfl,rfl,hi,hfind⟩ := hfind
    rw [hfind]
    dsimp only
    have hstart := lineStart_append (lineEnding closed post ++ render closed post) (closedText_last pre) l.body_line hi
    have hwrite := writeSum_append (hashFile (slashes m.name)) (closedText pre)
      (' ' :: ' ' :: '.' :: '/' :: l.path ++ (lineEnding closed post ++ render closed post))
      (show 2 * 16 ≤ l.md5.length by rw [l.length_md5])
    have hdrop : l.md5.drop (2 * 16) = [] := List.drop_eq_nil_iff.mpr (by rw [l.length_md5])
    rw [render_append,render_cons,hstart,modify_append,render_append,render_cons]
    rw [hdrop] at hwrite
    rw [Line.body,List.append_assoc,hwrite,Line.body,List.append_assoc]
    rfl

theorem hit_congr {lines lines' : List Line} (h : lines'.map Line.path = lines.map Line.path) (m : Modified) :
    hit lines' m = hit lines m := by
  have hmap : ∀ ls : List Line, hit ls m =
      (ls.map Line.path).findIdx? fun p => decide ('/' :: m.path <:+: '/' :: p) := by
    intro ls
    rw [List.findIdx?_map]
    rfl
  rw [hmap,hmap,h]

/-- The sum of a line after the loop. -/
def written (hashFile : List Char → Fin 16 → UInt8) (modified : List Modified) (lines : List Line) (k : ℕ) (l : Line) :
    List Char :=
  match (modified.filter fun m => hit lines m = some k).getLast? with
  | some m => hexSum (hashFile (slashes m.name))
  | none => l.md5

theorem written_append (hashFile : List Char → Fin 16 → UInt8) (modified : List Modified) (m : Modified) (lines : List Line)
    (k : ℕ) (l : Line) : written hashFile (modified ++ [m]) lines k l =
      if hit lines m = some k then hexSum (hashFile (slashes m.name)) else written hashFile modified lines k l := by
  unfold written
  rw [List.filter_append]
  by_cases h : hit lines m = some k
  · rw [if_pos h,List.filter_cons_of_pos (by simpa using h),List.filter_nil,List.getLast?_append]
    rfl
  · rw [if_neg h,List.filter_cons_of_neg (by simpa using h),List.filter_nil,List.append_nil]

/-- The lines after the loop: the paths as before, and the sums of the files found in them. -/
theorem updateSums_render (closed : Bool) (hashFile : List Char → Fin 16 → UInt8) (modified : List Modified) (lines : List Line) :
    ∃ lines' : List Line, updateSums hashFile (modified.map Modified.name) (render closed lines) = render closed lines' ∧
      lines'.map Line.path = lines.map Line.path ∧
      ∀ k, lines'[k]?.map Line.md5 = lines[k]?.map (written hashFile modified lines k) := by
  induction modified using List.reverseRecOn with
  | nil => exact ⟨lines,rfl,rfl,fun k => rfl⟩
  | append_singleton modified m ih =>
    obtain ⟨lines',hrun,hpath,hmd5⟩ := ih
    have hstep := updateFile_render closed hashFile lines' m
    rw [hit_congr hpath] at hstep
    have hfold : updateSums hashFile ((modified ++ [m]).map Modified.name) (render closed lines) =
        updateFile hashFile (render closed lines') m.name := by
      rw [← hrun,updateSums,List.map_append,List.foldl_append]
      rfl
    rw [hfold,hstep]
    cases hhit : hit lines m with
    | none =>
      refine ⟨lines',rfl,hpath,fun k => ?_⟩
      rw [hmd5]
      congr 1
      funext l
      rw [written_append,if_neg (by rw [hhit]; exact nofun)]
    | some i =>
      refine ⟨_,rfl,?_,fun k => ?_⟩
      · rw [← hpath]
        apply List.ext_getElem?
        intro j
        rw [List.getElem?_map,List.getElem?_map,List.getElem?_modify]
        cases lines'[j]? with
        | none => rfl
        | some l =>
          dsimp only [Option.map_eq_map,Option.map_some]
          split <;> rfl
      · have hk := hmd5 k
        rw [List.getElem?_modify]
        cases hl : lines[k]? with
        | none =>
          rw [hl] at hk
          rw [Option.map_eq_none_iff.mp hk]
          rfl
        | some l =>
          rw [hl] at hk
          obtain ⟨l',hl',hmd5'⟩ := Option.map_eq_some_iff.mp hk
          rw [hl']
          dsimp only [Option.map_eq_map,Option.map_some]
          rw [written_append,hhit]
          by_cases hik : i = k
          · rw [if_pos hik,if_pos (congrArg some hik)]
            rfl
          · rw [if_neg hik,if_neg (by simpa using hik),hmd5']

end Update

section Exact
variable {modified : List Modified} {lines : List Line}

theorem hexSum_injective_zero : hexSum (fun _ => 0) ≠ hexSum (fun _ => 1) := by
  decide

/-- The text of a list determines its lines when the paths are known. -/
theorem render_injective {closed : Bool} {ls ls' : List Line} (hpath : ls.map Line.path = ls'.map Line.path)
    (h : render closed ls = render closed ls') : ls = ls' := by
  induction ls generalizing ls' with
  | nil =>
    cases ls' with
    | nil => rfl
    | cons l' ls' => cases hpath
  | cons l ls ih =>
    cases ls' with
    | nil => cases hpath
    | cons l' ls' =>
      rw [List.map_cons,List.map_cons,List.cons.injEq] at hpath
      have hempty : lineEnding closed ls = lineEnding closed ls' := by
        have hlen := congrArg List.length hpath.2
        unfold lineEnding
        cases ls <;> cases ls' <;> simp at hlen ⊢
      rw [render_cons,render_cons,Line.body,Line.body,hempty,List.append_assoc,List.append_assoc] at h
      obtain ⟨hmd5,hrest⟩ := List.append_inj h (l.length_md5.trans l'.length_md5.symm)
      rw [hpath.1] at hrest
      have htail := List.append_cancel_left (List.append_cancel_left hrest)
      rw [ih hpath.2 htail,Line.ext hmd5 hpath.1]

/-- A choice of sums tells two files apart, and a file from the sum that a line had. -/
theorem last_eq_of_sums {a b : Option Modified} (md5 : List Char)
    (h : ∀ hashFile : List Char → Fin 16 → UInt8,
      (match a with | some m => hexSum (hashFile (slashes m.name)) | none => md5) =
        match b with | some m => hexSum (hashFile (slashes m.name)) | none => md5) :
    a.map (fun m => slashes m.name) = b.map fun m => slashes m.name := by
  cases a with
  | none =>
    cases b with
    | none => rfl
    | some m => exact absurd ((h fun _ _ => 0).symm.trans (h fun _ _ => 1)) hexSum_injective_zero
  | some m =>
    cases b with
    | none => exact absurd ((h fun _ _ => 0).trans (h fun _ _ => 1).symm) hexSum_injective_zero
    | some m' =>
      by_contra hne
      have hname : slashes m'.name ≠ slashes m.name := fun he => hne (congrArg some he.symm)
      have hsums := h fun name => if name = slashes m.name then fun _ => 0 else fun _ => 1
      dsimp only at hsums
      rw [if_pos rfl,if_neg hname] at hsums
      exact hexSum_injective_zero hsums

theorem unmixed_of_updated (h : Updated modified lines) : Unmixed modified lines := by
  intro k l hl
  apply last_eq_of_sums l.md5
  intro hashFile
  obtain ⟨ls,hrun,hpath,hmd5⟩ := h true hashFile
  obtain ⟨ls',hrun',hpath',hmd5'⟩ := updateSums_render true hashFile modified lines
  obtain rfl := render_injective (hpath.trans hpath'.symm) (hrun.symm.trans hrun')
  have hk := hmd5' k
  rw [← List.getElem?_map,hmd5,List.getElem?_map,hl] at hk
  exact (Option.some.inj hk).symm

theorem updated_of_unmixed (h : Unmixed modified lines) : Updated modified lines := by
  intro closed hashFile
  obtain ⟨ls,hrun,hpath,hmd5⟩ := updateSums_render closed hashFile modified lines
  refine ⟨ls,hrun,hpath,List.ext_getElem? fun k => ?_⟩
  rw [List.getElem?_map,List.getElem?_map,hmd5]
  cases hl : lines[k]? with
  | none => rfl
  | some l =>
    have hlast := h k l hl
    rw [Option.map_some,Option.map_some]
    congr 1
    unfold written expected
    generalize (modified.filter fun m => hit lines m = some k).getLast? = a at hlast ⊢
    generalize (modified.filter fun m => m.path = l.path).getLast? = b at hlast ⊢
    cases a with
    | none =>
      cases b with
      | none => rfl
      | some m => cases hlast
    | some m =>
      cases b with
      | none => cases hlast
      | some m' =>
        dsimp only
        rw [show slashes m.name = slashes m'.name from Option.some.inj hlast]

/-- The sums are the right ones exactly when the names are not found in lines of other files. -/
theorem updateSums_iff (modified : List Modified) (lines : List Line) : Updated modified lines ↔ Unmixed modified lines :=
  ⟨unmixed_of_updated,updated_of_unmixed⟩

def zeroLine (path : List Char) (hline : '\n' ∉ path) (htext : nul ∉ path) : Line :=
  ⟨List.replicate 32 '0',path,rfl,by decide,hline,htext⟩

/-- The sum of `b` is written to the line of `a/b`. -/
theorem updateSums_suffix : ¬Updated [⟨'X','\\',['b'],Or.inr rfl,by decide,by decide⟩]
    [zeroLine "a/b".toList (by decide) (by decide),zeroLine "b".toList (by decide) (by decide)] :=
  fun h => absurd (unmixed_of_updated h 0 _ rfl) (by decide)

end Exact

end SecureWipeOut.Md5sum
