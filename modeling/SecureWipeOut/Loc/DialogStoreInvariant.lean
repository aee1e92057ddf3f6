import SecureWipeOut.Loc.DialogStore
import SecureWipeOut.Table.HtabRuns

/-! # The invariant of the dialog command store

As long as every data pointer of the hash table refers to a linked command, a command
that is added replaces the linked command for the same control, and no other.
-/
namespace SecureWipeOut.Loc
open CText Htab

/-- The names of the controls: short enough for the buffer of the key, in bytes other than NUL. -/
structure Nameable (name : List Char) : Prop where
  nonempty : name ≠ []
  short : name.length ≤ 125
  bytes : ∀ c ∈ name, 0 < c.toNat ∧ c.toNat < 256

/-- A command as it comes to `add_dialog_command`. -/
structure Addable (e : ℤ × LocCmd) : Prop where
  nonneg : 0 ≤ e.1
  small : e.1 < locDlgSize
  name : Nameable (e.2.txt.headD [])

/-- Whether a command is for a control. -/
def LocCmd.isFor (command : LocCommand) (control : List Char) (lcmd : LocCmd) : Bool :=
  decide (lcmd.command = command ∧ lcmd.txt.headD [] = control)

section Keys

theorem byte_ne_zero {n : ℕ} (h0 : 0 < n) (h : n < 256) : UInt8.ofNat n ≠ 0 := by
  intro heq
  have hn := congrArg UInt8.toNat heq
  simp only [UInt8.toNat_ofNat',UInt8.toNat_zero] at hn
  omega

theorem byte_injective {m n : ℕ} (hm : m < 256) (hn : n < 256) (h : UInt8.ofNat m = UInt8.ofNat n) : m = n := by
  have heq := congrArg UInt8.toNat h
  simp only [UInt8.toNat_ofNat'] at heq
  omega

theorem commandNumber_lt (command : LocCommand) : commandNumber command < 7 := by
  cases command <;> decide

theorem commandNumber_injective {c c' : LocCommand} (h : commandNumber c = commandNumber c') : c = c' := by
  cases c <;> cases c' <;> first | rfl | cases h

theorem map_byte_injective {s t : List Char} (hs : ∀ c ∈ s, c.toNat < 256) (ht : ∀ c ∈ t, c.toNat < 256)
    (h : s.map (fun c => UInt8.ofNat c.toNat) = t.map fun c => UInt8.ofNat c.toNat) : s = t := by
  induction s generalizing t with
  | nil => exact (List.map_eq_nil_iff.mp h.symm).symm
  | cons c s ih =>
    cases t with
    | nil => cases h
    | cons d t =>
      obtain ⟨hc,hst⟩ := List.cons.inj h
      obtain ⟨hs0,hs⟩ := List.forall_mem_cons.mp hs
      obtain ⟨ht0,ht⟩ := List.forall_mem_cons.mp ht
      rw [Char.toNat_inj.mp (byte_injective hs0 ht0 hc),ih hs ht hst]

theorem keyText_val {d : ℕ} {lcmd : LocCmd} (hd : d < 10) (hn : Nameable (lcmd.txt.headD [])) :
    (keyText d lcmd).val = UInt8.ofNat (d + 0x30) :: UInt8.ofNat (commandNumber lcmd.command + 0x30) ::
      (lcmd.txt.headD []).map fun c => UInt8.ofNat c.toNat := by
  have hcmd := commandNumber_lt lcmd.command
  have hall : ∀ b ∈ keyBytes d lcmd, (b != 0) = true := by
    simp only [keyBytes,List.forall_mem_cons,List.forall_mem_map,bne_iff_ne]
    refine ⟨byte_ne_zero (by omega) (by omega),byte_ne_zero (by omega) (by omega),fun c hc => ?_⟩
    have hb := hn.bytes c (List.mem_of_mem_take hc)
    exact byte_ne_zero hb.1 hb.2
  have hval : (keyText d lcmd).val = keyBytes d lcmd := List.takeWhile_eq_self_iff.mpr hall
  rw [hval,keyBytes,List.take_of_length_le hn.short]

/-- The key tells dialogs, commands and controls apart. -/
theorem keyText_inj {d d' : ℕ} {x y : LocCmd} (hd : d < 10) (hd' : d' < 10) (hx : Nameable (x.txt.headD []))
    (hy : Nameable (y.txt.headD [])) (h : keyText d x = keyText d' y) :
    d = d' ∧ x.isFor y.command (y.txt.headD []) = true := by
  have hval := congrArg Subtype.val h
  rw [keyText_val hd hx,keyText_val hd' hy] at hval
  obtain ⟨h1,hrest⟩ := List.cons.inj hval
  obtain ⟨h2,h3⟩ := List.cons.inj hrest
  have hcx := commandNumber_lt x.command
  have hcy := commandNumber_lt y.command
  have hindex : d + 0x30 = d' + 0x30 := byte_injective (by omega) (by omega) h1
  have hnum : commandNumber x.command + 0x30 = commandNumber y.command + 0x30 :=
    byte_injective (by omega) (by omega) h2
  have hcommand : x.command = y.command := commandNumber_injective (by omega)
  have hname := map_byte_injective (fun c hc => (hx.bytes c hc).2) (fun c hc => (hy.bytes c hc).2) h3
  exact ⟨by omega,decide_eq_true ⟨hcommand,hname⟩⟩

theorem keyText_congr {d : ℕ} {x y : LocCmd} (h : x.isFor y.command (y.txt.headD []) = true) :
    keyText d x = keyText d y := by
  obtain ⟨h1,h2⟩ := of_decide_eq_true h
  unfold keyText
  congr 1
  unfold keyBytes
  rw [h1,h2]

end Keys

/-- The last of the calls that was for a control of a dialog. -/
def lastFor (calls : List (ℤ × LocCmd)) (d : ℕ) (command : LocCommand) (control : List Char) : Option LocCmd :=
  (calls.filter fun e => decide (e.1 = (d : ℤ)) && e.2.isFor command control).getLast?.map Prod.snd

/-- The keys that the calls have asked for. -/
def keysOf (calls : List (ℤ × LocCmd)) : Finset CString :=
  (calls.map fun e => keyText e.1.toNat e.2).toFinset

/-- The store after the calls since it was cleared: the data pointers and the linked commands belong
together, and for every control the command of the last call is linked. -/
structure Kept (s : DialogStore) (calls : List (ℤ × LocCmd)) : Prop where
  table : Inv s.htab (keysOf calls)
  entry : ∀ d, ∀ x ∈ s.lists d, d < 10 ∧ Nameable (x.cmd.txt.headD []) ∧ x.address < s.fresh ∧
    ∃ i, contents s.htab i = some (keyText d x.cmd) ∧ s.data i = some x.address
  owner : ∀ i a, s.data i = some a → ∃ d, ∃ x ∈ s.lists d, x.address = a ∧
    contents s.htab i = some (keyText d x.cmd)
  filled : ∀ i str, contents s.htab i = some str → ∃ a, s.data i = some a
  apart : ∀ d d' x y, x ∈ s.lists d → y ∈ s.lists d' → x.address = y.address → d = d' ∧ x = y
  last : ∀ d command control, ((s.lists d).filter fun x => x.cmd.isFor command control).map Linked.cmd =
    (lastFor calls d command control).toList
  safe : s.misused = false

section Add
variable {s : DialogStore} {calls : List (ℤ × LocCmd)} {index : ℤ} {lcmd : LocCmd} {htab : HtabTable} {i : ℕ}

/-- The data pointer found under the key of a command refers to the linked command for
the same control, if there is one. -/
theorem Kept.data_eq_iff (h : Kept s calls) (ha : Addable (index,lcmd)) {K : Finset CString} (hI : Inv htab K)
    (hstr : contents htab i = some (keyText index.toNat lcmd))
    (hkeep : ∀ i str, contents s.htab i = some str → contents htab i = some str) {d : ℕ} {x : Linked}
    (hx : x ∈ s.lists d) : s.data i = some x.address ↔
      d = index.toNat ∧ x.cmd.isFor lcmd.command (lcmd.txt.headD []) = true := by
  obtain ⟨hd,hname,-,j,hj,hdata⟩ := h.entry d x hx
  constructor
  · intro hi
    obtain ⟨d',y,hy,haddress,hcontents⟩ := h.owner i _ hi
    obtain ⟨rfl,rfl⟩ := h.apart d' d y x hy hx haddress
    have hkey := Option.some.inj ((hkeep i _ hcontents).symm.trans hstr)
    have hsmall := ha.small
    have hnonneg := ha.nonneg
    exact keyText_inj hd (by simp only [locDlgSize] at hsmall; omega) hname ha.name hkey
  · rintro ⟨rfl,hfor⟩
    rw [keyText_congr hfor] at hj
    rw [← (indices_eq_iff hI (hkeep j _ hj) hstr).mpr rfl,hdata]

/-- Replacing takes the linked command for the control away and nothing else. -/
theorem Kept.replace_lists (h : Kept s calls) (ha : Addable (index,lcmd)) {K : Finset CString} (hI : Inv htab K)
    (hstr : contents htab i = some (keyText index.toNat lcmd))
    (hkeep : ∀ i str, contents s.htab i = some str → contents htab i = some str) :
    (∀ d, ((DialogStore.mk s.lists htab s.data s.fresh s.misused).replace i).lists d = (s.lists d).filter fun x =>
      !(decide (d = index.toNat) && x.cmd.isFor lcmd.command (lcmd.txt.headD []))) ∧
    ((DialogStore.mk s.lists htab s.data s.fresh s.misused).replace i).misused = false := by
  refine ⟨fun d => ?_,?_⟩
  · rw [DialogStore.replace_lists]
    refine List.filter_congr fun x hx => ?_
    rw [Bool.eq_iff_iff,bne_iff_ne,ne_eq,h.data_eq_iff ha hI hstr hkeep hx]
    simp [imp_iff_not_or]
  · rw [DialogStore.replace_misused,h.safe,Bool.false_or,Option.any_eq_false]
    intro a hdata
    obtain ⟨d,y,hy,haddress,-⟩ := h.owner i a hdata
    have hlinked : s.linked a = true :=
      DialogStore.linked_eq_true_iff.mpr ⟨d,(h.entry d y hy).1,y,hy,haddress⟩
    change (!s.linked a) = false
    rw [hlinked]
    rfl

theorem lastFor_append (d : ℕ) (command : LocCommand) (control : List Char) :
    lastFor (calls ++ [(index,lcmd)]) d command control =
      if index = (d : ℤ) ∧ lcmd.isFor command control = true then some lcmd else lastFor calls d command control := by
  unfold lastFor
  rw [List.filter_append]
  by_cases h : index = (d : ℤ) ∧ lcmd.isFor command control = true
  · rw [if_pos h]
    simp [h.1,h.2]
  · rw [if_neg h]
    have hnone : [(index,lcmd)].filter (fun e => decide (e.1 = (d : ℤ)) && e.2.isFor command control) = [] := by
      simpa using h
    rw [hnone,List.append_nil]

theorem keysOf_append : keysOf (calls ++ [(index,lcmd)]) = insert (keyText index.toNat lcmd) (keysOf calls) := by
  unfold keysOf
  rw [List.map_append,List.toFinset_append]
  ext x
  simp

/-- The store after the entry has been found. -/
def entered (s : DialogStore) (htab : HtabTable) (i : ℕ) (index : ℤ) (lcmd : LocCmd) : DialogStore :=
  ((DialogStore.mk s.lists htab s.data s.fresh s.misused).replace i).link index.toNat lcmd

theorem entered_htab : (entered s htab i index lcmd).htab = htab := DialogStore.replace_htab _ i

theorem entered_data : (entered s htab i index lcmd).data = Function.update s.data i (some s.fresh) :=
  DialogStore.replace_data _ i

theorem entered_fresh : (entered s htab i index lcmd).fresh = s.fresh + 1 :=
  congrArg (· + 1) (DialogStore.replace_fresh _ i)

/-- The new command stands in front of those that stay linked. -/
theorem entered_lists (hreplace : ∀ d, ((DialogStore.mk s.lists htab s.data s.fresh s.misused).replace i).lists d =
      (s.lists d).filter fun x => !(decide (d = index.toNat) && x.cmd.isFor lcmd.command (lcmd.txt.headD []))) (d : ℕ) :
    (entered s htab i index lcmd).lists d = (if d = index.toNat then [⟨s.fresh,lcmd⟩] else []) ++
      (s.lists d).filter fun x => !(decide (d = index.toNat) && x.cmd.isFor lcmd.command (lcmd.txt.headD [])) := by
  rw [← hreplace]
  change Function.update _ index.toNat _ d = _
  rw [Function.update_apply,DialogStore.replace_fresh]
  split
  next hdi =>
    rw [hdi]
    rfl
  next => rfl

/-- A command that stays linked is not for the same control. -/
def Stays (s : DialogStore) (index : ℤ) (lcmd : LocCmd) (d : ℕ) (x : Linked) : Prop :=
  x ∈ s.lists d ∧ ¬ (d = index.toNat ∧ x.cmd.isFor lcmd.command (lcmd.txt.headD []) = true)

theorem mem_entered (hreplace : ∀ d, ((DialogStore.mk s.lists htab s.data s.fresh s.misused).replace i).lists d =
      (s.lists d).filter fun x => !(decide (d = index.toNat) && x.cmd.isFor lcmd.command (lcmd.txt.headD [])))
    (d : ℕ) (x : Linked) : x ∈ (entered s htab i index lcmd).lists d ↔
      (d = index.toNat ∧ x = ⟨s.fresh,lcmd⟩) ∨ Stays s index lcmd d x := by
  rw [Stays,entered_lists hreplace,List.mem_append,List.mem_filter]
  by_cases hdi : d = index.toNat <;> simp [hdi]

/-- The entry of a command that stays linked is another one. -/
theorem Kept.entry_ne (h : Kept s calls) (ha : Addable (index,lcmd)) (hd : index.toNat < 10)
    (hstr : contents htab i = some (keyText index.toNat lcmd)) {d : ℕ} {x : Linked} (hx : Stays s index lcmd d x) {j : ℕ}
    (hj : contents htab j = some (keyText d x.cmd)) : j ≠ i := by
  rintro rfl
  obtain ⟨hd',hname,-⟩ := h.entry d x hx.1
  exact hx.2 (keyText_inj hd' hd hname ha.name (Option.some.inj (hj.symm.trans hstr)))

/-- The commands for a control: the new one, or those that were linked. -/
theorem filter_entered (hreplace : ∀ d, ((DialogStore.mk s.lists htab s.data s.fresh s.misused).replace i).lists d =
      (s.lists d).filter fun x => !(decide (d = index.toNat) && x.cmd.isFor lcmd.command (lcmd.txt.headD [])))
    (d : ℕ) (command : LocCommand) (control : List Char) :
    ((entered s htab i index lcmd).lists d).filter (fun x => x.cmd.isFor command control) =
      if d = index.toNat ∧ lcmd.isFor command control = true then [⟨s.fresh,lcmd⟩]
      else (s.lists d).filter fun x => x.cmd.isFor command control := by
  rw [entered_lists hreplace,List.filter_append,List.filter_filter]
  by_cases hlast : d = index.toNat ∧ lcmd.isFor command control = true
  · obtain ⟨rfl,hfor⟩ := hlast
    obtain ⟨rfl,rfl⟩ := of_decide_eq_true hfor
    have hnone : (s.lists index.toNat).filter (fun x => x.cmd.isFor lcmd.command (lcmd.txt.headD []) &&
        !(decide (index.toNat = index.toNat) && x.cmd.isFor lcmd.command (lcmd.txt.headD []))) = [] := by
      simp
    have hhead : [(⟨s.fresh,lcmd⟩ : Linked)].filter (fun x => x.cmd.isFor lcmd.command (lcmd.txt.headD [])) =
        [⟨s.fresh,lcmd⟩] := List.filter_eq_self.mpr fun x hx => List.mem_singleton.mp hx ▸ hfor
    rw [if_pos rfl,if_pos ⟨rfl,hfor⟩,hnone,hhead]
    rfl
  · have hsame : (s.lists d).filter (fun x => x.cmd.isFor command control &&
        !(decide (d = index.toNat) && x.cmd.isFor lcmd.command (lcmd.txt.headD []))) =
          (s.lists d).filter fun x => x.cmd.isFor command control := by
      refine List.filter_congr fun x _ => ?_
      cases hx : x.cmd.isFor command control with
      | false => rfl
      | true =>
        have hno : ¬ (d = index.toNat ∧ x.cmd.isFor lcmd.command (lcmd.txt.headD []) = true) := by
          rintro ⟨hdi,hfor⟩
          obtain ⟨h1,h2⟩ := of_decide_eq_true hx
          obtain ⟨h3,h4⟩ := of_decide_eq_true hfor
          exact hlast ⟨hdi,decide_eq_true ⟨h3.symm.trans h1,h4.symm.trans h2⟩⟩
        rw [Bool.true_and,Bool.not_eq_true',Bool.and_eq_false_iff,decide_eq_false_iff_not]
        rw [not_and_or,Bool.not_eq_true] at hno
        exact hno
    have hnone : (if d = index.toNat then [(⟨s.fresh,lcmd⟩ : Linked)] else []).filter
        (fun x => x.cmd.isFor command control) = [] := by
      split
      next hdi =>
        have hno : ¬ lcmd.isFor command control = true := fun hfor => hlast ⟨hdi,hfor⟩
        simp [hno]
      next => rfl
    rw [if_neg hlast,hnone,hsame,List.nil_append]

theorem Kept.entered (h : Kept s calls) (ha : Addable (index,lcmd))
    (hI : Inv htab (insert (keyText index.toNat lcmd) (keysOf calls)))
    (hstr : contents htab i = some (keyText index.toNat lcmd))
    (hkeep : ∀ i str, contents s.htab i = some str → contents htab i = some str) :
    Kept (entered s htab i index lcmd) (calls ++ [(index,lcmd)]) := by
  obtain ⟨hreplace,hsafe⟩ := h.replace_lists ha hI hstr hkeep
  have hd : index.toNat < 10 := by
    have hsmall := ha.small
    simp only [locDlgSize] at hsmall
    omega
  have hmem := mem_entered hreplace
  refine ⟨?_,?_,?_,?_,?_,?_,hsafe⟩
  · rw [entered_htab,keysOf_append]
    exact hI
  · intro d x hx
    rw [entered_htab,entered_data,entered_fresh]
    rcases (hmem d x).mp hx with ⟨rfl,rfl⟩ | hx
    · exact ⟨hd,ha.name,Nat.lt_succ_self _,i,hstr,Function.update_self ..⟩
    · obtain ⟨hd',hname,hfresh,j,hj,hdata⟩ := h.entry d x hx.1
      refine ⟨hd',hname,hfresh.trans (Nat.lt_succ_self _),j,hkeep j _ hj,?_⟩
      rw [Function.update_of_ne (h.entry_ne ha hd hstr hx (hkeep j _ hj)),hdata]
  · intro j a hja
    rw [entered_data,Function.update_apply] at hja
    rw [entered_htab]
    split at hja
    next hji =>
      obtain rfl := Option.some.inj hja
      exact ⟨index.toNat,⟨s.fresh,lcmd⟩,(hmem _ _).mpr (Or.inl ⟨rfl,rfl⟩),rfl,hji ▸ hstr⟩
    next hji =>
      obtain ⟨d,x,hx,haddress,hj⟩ := h.owner j a hja
      refine ⟨d,x,(hmem d x).mpr (Or.inr ⟨hx,?_⟩),haddress,hkeep j _ hj⟩
      rintro ⟨rfl,hfor⟩
      rw [keyText_congr hfor] at hj
      exact hji ((indices_eq_iff hI (hkeep j _ hj) hstr).mpr rfl)
  · intro j str hj
    rw [entered_htab] at hj
    rw [entered_data,Function.update_apply]
    split
    next => exact ⟨s.fresh,rfl⟩
    next hji =>
      rcases Finset.mem_insert.mp ((hI.keys str).mpr ⟨j,hj⟩) with rfl | hold
      · exact absurd ((indices_eq_iff hI hj hstr).mpr rfl) hji
      · obtain ⟨j',hj'⟩ := (h.table.keys str).mp hold
        rw [(indices_eq_iff hI hj (hkeep j' _ hj')).mpr rfl]
        exact h.filled j' str hj'
  · intro d d' x y hx hy hxy
    rcases (hmem d x).mp hx with ⟨rfl,rfl⟩ | ⟨hx,-⟩
    · rcases (hmem d' y).mp hy with ⟨rfl,rfl⟩ | ⟨hy,-⟩
      · exact ⟨rfl,rfl⟩
      · exact absurd hxy (h.entry d' y hy).2.2.1.ne'
    · rcases (hmem d' y).mp hy with ⟨rfl,rfl⟩ | ⟨hy,-⟩
      · exact absurd hxy (h.entry d x hx).2.2.1.ne
      · exact h.apart d d' x y hx hy hxy
  · intro d command control
    have hindex : index = (d : ℤ) ↔ d = index.toNat := by
      have hnonneg := ha.nonneg
      simp only at hnonneg
      omega
    rw [filter_entered hreplace,lastFor_append]
    simp only [hindex]
    split
    · rfl
    · exact h.last d command control

/-- A call of `add_dialog_command` that the table has room for. -/
theorem Kept.add (h : Kept s calls) (ha : Addable (index,lcmd))
    (hroom : (keysOf (calls ++ [(index,lcmd)])).card ≤ s.htab.size) :
    ∃ s', DialogStore.addDialogCommand index lcmd s = some s' ∧ Kept s' (calls ++ [(index,lcmd)]) ∧
      s'.htab.size = s.htab.size := by
  have hguard : ¬ (lcmd.txt = [] ∨ index < 0 ∨ locDlgSize ≤ index) := by
    have hnonneg := ha.nonneg
    have hsmall := ha.small
    have hname := ha.name.nonempty
    rintro (htxt | hlt | hle)
    · simp [htxt] at hname
    · exact absurd hnonneg (not_le.mpr hlt)
    · exact absurd hsmall (not_lt.mpr hle)
  have hfuel : s.htab.size ≤ hashFuel := h.table.small.le
  obtain ⟨i,htab,hhash,hcall⟩ := htabHash_spec h.table (keyText index.toNat lcmd) hfuel
  rw [DialogStore.addDialogCommand,if_neg hguard,hhash,Option.map_some]
  cases hcall with
  | indexed i htab hi hinv hsize hstr hkeep =>
    refine ⟨Loc.entered s htab i index lcmd,?_,h.entered ha hinv hstr hkeep,by rw [entered_htab,hsize]⟩
    have hi0 : i ≠ 0 := by omega
    simp only [if_pos hi0]
    rfl
  | full hfull hnew =>
    rw [keysOf_append,Finset.card_insert_of_notMem hnew,← h.table.filled] at hroom
    omega

theorem Kept.addAll (more : List (ℤ × LocCmd)) (h : Kept s calls) (ha : ∀ e ∈ more, Addable e)
    (hroom : (keysOf (calls ++ more)).card ≤ s.htab.size) :
    ∃ s', more.foldlM (fun s e => DialogStore.addDialogCommand e.1 e.2 s) s = some s' ∧
      Kept s' (calls ++ more) ∧ s'.htab.size = s.htab.size := by
  induction more generalizing s calls with
  | nil => exact ⟨s,rfl,by rwa [List.append_nil],rfl⟩
  | cons e more ih =>
    have hassoc : calls ++ e :: more = calls ++ [e] ++ more := by simp
    rw [hassoc] at hroom ⊢
    have hsub : keysOf (calls ++ [e]) ⊆ keysOf (calls ++ [e] ++ more) := by
      intro x hx
      simp only [keysOf,List.map_append,List.toFinset_append] at hx ⊢
      exact Finset.mem_union_left _ hx
    obtain ⟨s₁,hs₁,hkept₁,hsize₁⟩ := h.add (ha e List.mem_cons_self) ((Finset.card_le_card hsub).trans hroom)
    obtain ⟨s₂,hs₂,hkept₂,hsize₂⟩ := ih hkept₁ (fun x hx => ha x (List.mem_cons_of_mem e hx)) (by rwa [hsize₁])
    refine ⟨s₂,?_,hkept₂,hsize₂.trans hsize₁⟩
    rw [List.foldlM_cons,hs₁]
    exact hs₂

end Add

end SecureWipeOut.Loc
