import Mathlib.Data.List.GetD
import SecureWipeOut.Lib.Bytes
import SecureWipeOut.Lib.Loop

/-! # The auxiliary data vector of Syslinux

Two copies of a sector with small items of data under their tags, and a checksum in each. An
item that is stored replaces the one with its tag: the old one is moved over on the way through
the sector, and the new one goes behind all others.
-/
namespace SecureWipeOut.SyslinuxAdv
open CInt ByteStore Bytes

def advSize : ℕ := 512
def advLen : ℕ := advSize - 3 * 4
def advMagic1 : ℕ := 0x5a2d2fa5
def advMagic2 : ℕ := 0xa3041767
def advMagic3 : ℕ := 0xdd28bf64

/-- The global syslinux_adv, with the sectors one behind the other. -/
abbrev Adv := ℕ → UInt8

section functions

def memcpy (adv : Adv) (dst src len : ℕ) : Adv := overwrite adv dst len fun i => adv (src + i)

def cleanupAdv (adv : Adv) : Adv :=
  let adv := write adv 0 (dwordBytes advMagic1)
  let adv := write adv 4 (dwordBytes (dwordRest advMagic2 adv 8 (advLen / 4)))
  let adv := write adv (advSize - 4) (dwordBytes advMagic3)
  memcpy adv advSize 0 advSize

def syslinuxResetAdv (adv : Adv) : Adv := cleanupAdv (overwrite adv 8 advLen fun _ => 0)

def advConsistent (p : ℕ → UInt8) : Bool :=
  decide (readDword p 0 = advMagic1) && decide (readDword p (advSize - 4) = advMagic3) &&
    decide (dword (dwordTotal p 4 (advLen / 4 + 1)) = advMagic2)

inductive Reply where
  | ok
  | einval
  | enospc
  | reset
  deriving DecidableEq

def syslinuxValidateAdv (adv : Adv) : Reply × Adv :=
  if advConsistent adv then (.ok,memcpy adv advSize 0 advSize)
  else if advConsistent fun i => adv (advSize + i) then (.ok,memcpy adv 0 advSize advSize)
  else (.reset,syslinuxResetAdv adv)

/-- One pass of the loop on the working copy: what lies before p, and the rest of it. Moving the
bytes behind an item over it leaves the last ones of them where they were too. -/
def scanStep (tag : ℕ) (s : List UInt8 × List UInt8) :
    (List UInt8 × List UInt8) ⊕ (List UInt8 × List UInt8) :=
  if s.2.length < 2 then .inr s
  else
    let ptag := s.2.getD 0 0
    let plen := (s.2.getD 1 0).toNat + 2
    if ptag = 0 then .inr s
    else if ptag.toNat = tag then
      if s.2.length ≤ plen then .inr s
      else .inl (s.1,s.2.drop plen ++ s.2.drop (s.2.length - plen))
    else if s.2.length < plen then .inr s
    else .inl (s.1 ++ s.2.take plen,s.2.drop plen)

/-- The working copy with the new item in the place that was found. -/
def place (tag : ℕ) (data : List UInt8) (p : List UInt8 × List UInt8) : Option (List UInt8) :=
  if data.length = 0 then some (p.1 ++ List.replicate p.2.length 0)
  else if p.2.length < data.length + 2 then none
  else some (p.1 ++ (UInt8.ofNat tag :: UInt8.ofNat data.length :: data) ++
    List.replicate (p.2.length - (data.length + 2)) 0)

/-- Nothing when the loop takes more than the given number of passes. -/
def syslinuxSetadv (fuel : ℕ) (adv : Adv) (tag : UInt32) (data : List UInt8) : Option (Reply × Adv) :=
  if 254 < tag - 1 then some (.einval,adv)
  else if 255 < data.length then some (.enospc,adv)
  else
    match Loop.run (scanStep tag.toNat) fuel ([],slice adv 8 advLen) with
    | none => none
    | some p =>
      match place tag.toNat data p with
      | none => some (.enospc,adv)
      | some advtmp => some (.ok,cleanupAdv (write adv 8 advtmp))

end functions

section store

/-- An item as the sector can hold it. -/
structure Item where
  tag : UInt8
  data : List UInt8
  tag_ne : tag ≠ 0
  data_ne : data ≠ []
  length_le : data.length ≤ 255

def Item.bytes (x : Item) : List UInt8 := x.tag :: UInt8.ofNat x.data.length :: x.data

def encode (items : List Item) : List UInt8 := items.flatMap Item.bytes

/-- Items with different tags that fit into the sector. -/
structure Store where
  items : List Item
  nodup : (items.map Item.tag).Nodup
  fits : (encode items).length ≤ advLen

def Store.empty : Store := ⟨[],List.nodup_nil,Nat.zero_le _⟩

theorem Item.length_bytes (x : Item) : x.bytes.length = x.data.length + 2 := rfl

@[simp] theorem encode_nil : encode [] = [] := rfl

@[simp] theorem encode_cons (x : Item) (items : List Item) :
    encode (x :: items) = x.bytes ++ encode items := List.flatMap_cons

@[simp] theorem encode_append (xs ys : List Item) : encode (xs ++ ys) = encode xs ++ encode ys :=
  List.flatMap_append

theorem length_encode_filter (p : Item → Bool) (items : List Item) :
    (encode (items.filter p)).length ≤ (encode items).length := by
  induction items with
  | nil => exact le_rfl
  | cons x items ih =>
    rw [encode_cons,List.length_append,List.filter_cons]
    split
    · rw [encode_cons,List.length_append]
      omega
    · omega

def Store.erase (s : Store) (tag : UInt8) : Store where
  items := s.items.filter fun x => x.tag ≠ tag
  nodup := s.nodup.sublist (List.filter_sublist.map Item.tag)
  fits := (length_encode_filter _ _).trans s.fits

theorem Store.erase_tag_ne (s : Store) {tag : UInt8} {x : Item} (h : x ∈ (s.erase tag).items) :
    x.tag ≠ tag := of_decide_eq_true (List.mem_filter.mp h).2

/-- The store with an item in the place of the one that has its tag. -/
def Store.replace (s : Store) (x : Item)
    (h : (encode (s.erase x.tag).items).length + x.bytes.length ≤ advLen) : Store where
  items := (s.erase x.tag).items ++ [x]
  nodup := by
    rw [List.map_append,List.nodup_append]
    refine ⟨(s.erase x.tag).nodup,List.nodup_singleton _,fun a ha b hb => ?_⟩
    obtain ⟨y,hy,rfl⟩ := List.mem_map.mp ha
    obtain rfl := List.mem_singleton.mp hb
    exact s.erase_tag_ne hy
  fits := by
    rw [encode_append,List.length_append,encode_cons,encode_nil,List.append_nil]
    exact h

def itemOf (tag : ℕ) (data : List UInt8) (ht : ¬ (tag = 0 ∨ 256 ≤ tag)) (hl : ¬ 255 < data.length)
    (hd : data ≠ []) : Item where
  tag := UInt8.ofNat tag
  data := data
  tag_ne h := by
    have hmod := congrArg UInt8.toNat h
    rw [UInt8.toNat_ofNat'] at hmod
    have hzero : tag % 256 = 0 := hmod
    omega
  data_ne := hd
  length_le := Nat.not_lt.mp hl

/-- What storing means: the tag is looked at first, then the size, then the room. -/
def Store.set (s : Store) (tag : ℕ) (data : List UInt8) : Reply × Store :=
  if ht : tag = 0 ∨ 256 ≤ tag then (.einval,s)
  else if hl : 255 < data.length then (.enospc,s)
  else if hd : data = [] then (.ok,s.erase (UInt8.ofNat tag))
  else if hf : (encode (s.erase (UInt8.ofNat tag)).items).length + (data.length + 2) ≤ advLen then
    (.ok,s.replace (itemOf tag data ht hl hd) hf)
  else (.enospc,s)

/-- No item is moved over while the sector is full to its last byte. -/
def Store.Settled (s : Store) (tag : ℕ) : Prop :=
  (encode s.items).length < advLen ∨ ∀ x ∈ s.items.dropLast, x.tag.toNat ≠ tag

end store

section scanning
variable {tag : ℕ} {kept rest : List UInt8} {items : List Item}

/-- What is behind the items ends the way through them. -/
def EndsHere (rest : List UInt8) : Prop := rest.length < 2 ∨ rest.getD 0 0 = 0

theorem scanStep_end (h : EndsHere rest) : scanStep tag (kept,rest) = .inr (kept,rest) := by
  unfold scanStep
  by_cases hlen : rest.length < 2
  · exact if_pos hlen
  · rw [if_neg hlen]
    exact if_pos (h.resolve_left hlen)

theorem Item.length_byte (x : Item) : (UInt8.ofNat x.data.length).toNat = x.data.length := by
  have hle := x.length_le
  rw [UInt8.toNat_ofNat',Nat.mod_eq_of_lt (by omega)]

/-- A step at an item. -/
theorem scanStep_item (x : Item) : scanStep tag (kept,x.bytes ++ rest) =
    if x.tag.toNat = tag then
      if rest = [] then .inr (kept,x.bytes)
      else .inl (kept,rest ++ (x.bytes ++ rest).drop rest.length)
    else .inl (kept ++ x.bytes,rest) := by
  have hlen : (x.bytes ++ rest).length = x.data.length + 2 + rest.length := by
    rw [List.length_append,x.length_bytes]
  have hplen : ((x.bytes ++ rest).getD 1 0).toNat + 2 = x.bytes.length := by
    rw [x.length_bytes,← x.length_byte]
    rfl
  have hempty : rest = [] ↔ rest.length = 0 := List.length_eq_zero_iff.symm
  unfold scanStep
  rw [if_neg (by simp only [hlen]; omega)]
  simp only [hplen]
  rw [if_neg (show ¬ (x.bytes ++ rest).getD 0 0 = 0 from x.tag_ne)]
  by_cases htag : x.tag.toNat = tag
  · rw [if_pos (show ((x.bytes ++ rest).getD 0 0).toNat = tag from htag),if_pos htag]
    by_cases hrest : rest = []
    · subst hrest
      rw [if_pos (by rw [hlen,x.length_bytes]; exact le_rfl),if_pos rfl,List.append_nil]
    · rw [if_neg (by rw [hlen,x.length_bytes]; have := mt hempty.mpr hrest; omega),if_neg hrest,
        List.drop_left,hlen,x.length_bytes,Nat.add_sub_cancel_left]
  · rw [if_neg (show ¬ ((x.bytes ++ rest).getD 0 0).toNat = tag from htag),if_neg htag,
      if_neg (by rw [hlen,x.length_bytes]; omega),List.take_left,List.drop_left]

/-- Items with other tags are passed over. -/
theorem run_others (h : ∀ x ∈ items, x.tag.toNat ≠ tag) (fuel : ℕ) :
    Loop.run (scanStep tag) (items.length + fuel) (kept,encode items ++ rest) =
      Loop.run (scanStep tag) fuel (kept ++ encode items,rest) := by
  induction items generalizing kept with
  | nil => rw [encode_nil,List.append_nil,List.nil_append,List.length_nil,Nat.zero_add]
  | cons x items ih =>
    obtain ⟨hx,hitems⟩ := List.forall_mem_cons.mp h
    rw [List.length_cons,Nat.add_right_comm,Loop.run,encode_cons,List.append_assoc,scanStep_item,
      if_neg hx]
    exact (ih hitems).trans (by rw [List.append_assoc])

theorem run_end (h : EndsHere rest) (fuel : ℕ) :
    Loop.run (scanStep tag) (fuel + 1) (kept,rest) = some (kept,rest) := by
  rw [Loop.run,scanStep_end h]

theorem length_le_encode (items : List Item) : items.length ≤ (encode items).length := by
  induction items with
  | nil => exact le_rfl
  | cons x items ih =>
    rw [encode_cons,List.length_append,x.length_bytes,List.length_cons]
    omega

end scanning

section settled
variable {tag : ℕ} {s : Store}

/-- The bytes of the sector between the checksum and the signature at its end. -/
def Store.image (s : Store) : List UInt8 :=
  encode s.items ++ List.replicate (advLen - (encode s.items).length) 0

theorem Store.length_image (s : Store) : s.image.length = advLen := by
  rw [Store.image,List.length_append,List.length_replicate]
  exact Nat.add_sub_cancel' s.fits

theorem toNat_eq_iff {t : UInt8} (ht : tag < 256) : t = UInt8.ofNat tag ↔ t.toNat = tag := by
  rw [← UInt8.toNat_inj,UInt8.toNat_ofNat',Nat.mod_eq_of_lt ht]

theorem endsHere_zeros {n : ℕ} (h : 0 < n) (rest : List UInt8) :
    EndsHere (List.replicate n 0 ++ rest) := by
  obtain ⟨k,rfl⟩ := Nat.exists_eq_add_of_lt h
  exact Or.inr rfl

theorem filter_others (ht : tag < 256) {items : List Item} (h : ∀ x ∈ items, x.tag.toNat ≠ tag) :
    items.filter (fun x => x.tag ≠ UInt8.ofNat tag) = items :=
  List.filter_eq_self.mpr fun x hx => decide_eq_true (mt (toNat_eq_iff ht).mp (h x hx))

/-- No other item has the tag of one. -/
theorem Store.others {x : Item} {as bs : List Item} (hitems : s.items = as ++ x :: bs) :
    (∀ y ∈ as, y.tag.toNat ≠ x.tag.toNat) ∧ ∀ y ∈ bs, y.tag.toNat ≠ x.tag.toNat := by
  have hnodup := s.nodup
  rw [hitems,List.map_append,List.map_cons,List.nodup_append,List.nodup_cons] at hnodup
  obtain ⟨-,⟨hbs,-⟩,has⟩ := hnodup
  refine ⟨fun y hy heq => ?_,fun y hy heq => ?_⟩
  · exact has y.tag (List.mem_map_of_mem hy) x.tag List.mem_cons_self (UInt8.toNat_inj.mp heq)
  · exact hbs (UInt8.toNat_inj.mp heq ▸ List.mem_map_of_mem hy)

theorem Store.erase_items {x : Item} {as bs : List Item} (hitems : s.items = as ++ x :: bs) :
    (s.erase x.tag).items = as ++ bs := by
  obtain ⟨has,hbs⟩ := s.others hitems
  have hkept : (as ++ x :: bs).filter (fun y => y.tag ≠ x.tag) = as ++ bs := by
    rw [List.filter_append,List.filter_cons_of_neg (by simp),
      List.filter_eq_self.mpr fun y hy => decide_eq_true (mt (congrArg UInt8.toNat) (has y hy)),
      List.filter_eq_self.mpr fun y hy => decide_eq_true (mt (congrArg UInt8.toNat) (hbs y hy))]
  rw [← hkept,← hitems]
  rfl

theorem run_absent (h : ∀ x ∈ s.items, x.tag.toNat ≠ tag) {fuel : ℕ} (hfuel : advLen < fuel) :
    Loop.run (scanStep tag) fuel ([],s.image) =
      some (encode s.items,List.replicate (advLen - (encode s.items).length) 0) := by
  have hcount := (length_le_encode s.items).trans s.fits
  have hends : EndsHere (List.replicate (advLen - (encode s.items).length) (0 : UInt8)) := by
    by_cases hroom : (encode s.items).length < advLen
    · have hzeros := endsHere_zeros (Nat.sub_pos_of_lt hroom) []
      rwa [List.append_nil] at hzeros
    · refine Or.inl ?_
      rw [List.length_replicate]
      omega
  obtain ⟨f,rfl⟩ : ∃ f, fuel = s.items.length + (f + 1) := ⟨fuel - (s.items.length + 1),by omega⟩
  rw [Store.image,run_others h,List.nil_append,run_end hends]

/-- The item is found, and what is behind it is moved over it unless it is the last of all. -/
theorem run_found {x : Item} {as bs : List Item} (hitems : s.items = as ++ x :: bs) (fuel : ℕ) :
    Loop.run (scanStep x.tag.toNat) (as.length + (fuel + 1)) ([],s.image) =
      let rest := encode bs ++ List.replicate (advLen - (encode s.items).length) 0
      if rest = [] then some (encode as,x.bytes)
      else Loop.run (scanStep x.tag.toNat) fuel
        (encode as,rest ++ (x.bytes ++ rest).drop rest.length) := by
  have himage : s.image = encode as ++ (x.bytes ++
      (encode bs ++ List.replicate (advLen - (encode s.items).length) 0)) := by
    rw [Store.image]
    nth_rewrite 1 [hitems]
    rw [encode_append,encode_cons,List.append_assoc,List.append_assoc]
  rw [himage,run_others (s.others hitems).1,List.nil_append,Loop.run,scanStep_item,if_pos rfl]
  by_cases hrest : encode bs ++ List.replicate (advLen - (encode s.items).length) 0 = []
  · simp only [if_pos hrest]
  · simp only [if_neg hrest]

theorem run_present {x : Item} {as bs : List Item} (hitems : s.items = as ++ x :: bs)
    (h : (encode s.items).length < advLen ∨ bs = []) {fuel : ℕ} (hfuel : advLen < fuel) :
    ∃ rest, Loop.run (scanStep x.tag.toNat) fuel ([],s.image) = some (encode (as ++ bs),rest) ∧
      (encode (as ++ bs)).length + rest.length = advLen := by
  have hfits := s.fits
  have hcount := (length_le_encode s.items).trans hfits
  have hsize : (encode as).length + x.bytes.length + (encode bs).length =
      (encode s.items).length := by
    rw [hitems,encode_append,encode_cons,List.length_append,List.length_append,Nat.add_assoc]
  have hlen : as.length + bs.length + 1 ≤ advLen := by
    rw [hitems,List.length_append,List.length_cons] at hcount
    omega
  obtain ⟨f,rfl⟩ : ∃ f, fuel = as.length + (bs.length + (f + 1) + 1) :=
    ⟨fuel - (as.length + bs.length + 2),by omega⟩
  rw [run_found hitems]
  by_cases hrest : encode bs ++ List.replicate (advLen - (encode s.items).length) 0 = []
  · obtain ⟨hb,hz⟩ := List.append_eq_nil_iff.mp hrest
    have hfull := (List.replicate_eq_nil_iff _).mp hz
    refine ⟨x.bytes,(if_pos hrest).trans ?_,?_⟩
    · rw [encode_append,hb,List.append_nil]
    · rw [encode_append,List.length_append]
      omega
  · have hroom : (encode s.items).length < advLen := by
      rcases h with hlt | rfl
      · exact hlt
      · by_contra hfull
        exact hrest (by rw [Nat.sub_eq_zero_of_le (Nat.not_lt.mp hfull)]; rfl)
    have hnext : ∀ stale, Loop.run (scanStep x.tag.toNat) (bs.length + (f + 1)) (encode as,
        encode bs ++ List.replicate (advLen - (encode s.items).length) 0 ++ stale) =
        some (encode (as ++ bs),List.replicate (advLen - (encode s.items).length) 0 ++ stale) := by
      intro stale
      rw [List.append_assoc,run_others (s.others hitems).2,run_end (endsHere_zeros (by omega) _),
        encode_append]
    refine ⟨_,(if_neg hrest).trans (hnext _),?_⟩
    simp only [encode_append,List.length_append,List.length_replicate,List.length_drop]
    omega

/-- The way through a sector ends behind the items that stay. -/
theorem run_settled (ht : tag < 256) (h : s.Settled tag) {fuel : ℕ} (hfuel : advLen < fuel) :
    ∃ rest, Loop.run (scanStep tag) fuel ([],s.image) =
        some (encode (s.erase (UInt8.ofNat tag)).items,rest) ∧
      (encode (s.erase (UInt8.ofNat tag)).items).length + rest.length = advLen := by
  by_cases hmem : ∃ x ∈ s.items, x.tag.toNat = tag
  · obtain ⟨x,hx,rfl⟩ := hmem
    obtain ⟨as,bs,hitems⟩ := List.append_of_mem hx
    have hlast : (encode s.items).length < advLen ∨ bs = [] := by
      refine h.imp_right fun hlast => ?_
      by_contra hne
      have hmem : x ∈ s.items.dropLast := by
        rw [hitems,List.dropLast_append_of_ne_nil (List.cons_ne_nil _ _),
          List.dropLast_cons_of_ne_nil hne]
        exact List.mem_append_right _ List.mem_cons_self
      exact hlast x hmem rfl
    rw [UInt8.ofNat_toNat,s.erase_items hitems]
    exact run_present hitems hlast hfuel
  · have hall : ∀ y ∈ s.items, y.tag.toNat ≠ tag := fun y hy heq => hmem ⟨y,hy,heq⟩
    have hkeep : (s.erase (UInt8.ofNat tag)).items = s.items := filter_others ht hall
    rw [hkeep]
    refine ⟨_,run_absent hall hfuel,?_⟩
    rw [List.length_replicate]
    exact Nat.add_sub_cancel' s.fits

end settled

section copies
variable {adv : Adv} {s : Store}

theorem advConsistent_congr {p q : ℕ → UInt8} (h : ∀ i < advSize, p i = q i) :
    advConsistent p = advConsistent q := by
  have hsize : advSize = 512 := rfl
  have hlen : advLen = 500 := rfl
  rw [advConsistent,advConsistent,readDword_congr fun i _ hi => h i (by omega),
    readDword_congr fun i _ hi => h i (by omega),dwordTotal_congr fun i _ hi => h i (by omega)]

/-- The two copies agree and are consistent, and their data is what the items are encoded to. -/
structure Valid (adv : Adv) (s : Store) : Prop where
  holds : Holds adv 8 s.image
  consistent : advConsistent adv = true
  twin : ∀ i < advSize, adv (advSize + i) = adv i

theorem cleanupAdv_consistent (adv : Adv) : advConsistent (cleanupAdv adv) = true := by
  have hsize : advSize = 512 := rfl
  have hlen : advLen / 4 = 125 := rfl
  obtain ⟨head,hhead⟩ : ∃ m, write adv 0 (dwordBytes advMagic1) = m := ⟨_,rfl⟩
  obtain ⟨csum,hcsum⟩ : ∃ c, dwordRest advMagic2 head 8 (advLen / 4) = c := ⟨_,rfl⟩
  obtain ⟨body,hbody⟩ : ∃ m, write head 4 (dwordBytes csum) = m := ⟨_,rfl⟩
  have hclean : cleanupAdv adv =
      memcpy (write body (advSize - 4) (dwordBytes advMagic3)) advSize 0 advSize := by
    rw [← hbody,← hcsum,← hhead]
    rfl
  have hlt : csum < 2 ^ 32 := hcsum ▸ dwordRest_lt (by decide)
  have h0 : readDword body 0 = advMagic1 := by
    rw [← hbody,readDword_write (Or.inl (by decide)),← hhead,readDword_write_self (by decide)]
  have hdata : dwordTotal body 8 (advLen / 4) = dwordTotal head 8 (advLen / 4) := by
    rw [← hbody]
    exact dwordTotal_congr fun i hi _ => overwrite_outside _ _ (Or.inr (by rw [length_dwordBytes]; omega))
  have hsum : dword (dwordTotal body 4 (advLen / 4 + 1)) = advMagic2 := by
    rw [dwordTotal_succ,hdata,← hbody,readDword_write_self hlt,← hcsum,dwordRest_add]
    rfl
  have hinit : ∀ i < advSize,
      cleanupAdv adv i = write body (advSize - 4) (dwordBytes advMagic3) i := by
    intro i hi
    rw [hclean]
    exact overwrite_outside _ _ (Or.inl hi)
  have htotal : dwordTotal (write body (advSize - 4) (dwordBytes advMagic3)) 4 (advLen / 4 + 1) =
      dwordTotal body 4 (advLen / 4 + 1) :=
    dwordTotal_congr fun i _ hi => overwrite_outside _ _ (Or.inl (by omega))
  rw [advConsistent_congr hinit,advConsistent,readDword_write (Or.inl (by decide)),h0,
    readDword_write_self (by decide),htotal,hsum]
  rfl

theorem cleanupAdv_twin (adv : Adv) : ∀ i < advSize, cleanupAdv adv (advSize + i) = cleanupAdv adv i := by
  intro i hi
  unfold cleanupAdv memcpy
  rw [overwrite_inside _ _ (by omega) (by omega),overwrite_outside _ _ (Or.inl hi),
    Nat.add_sub_cancel_left,Nat.zero_add]

theorem cleanupAdv_holds (h : Holds adv 8 s.image) : Holds (cleanupAdv adv) 8 s.image := by
  have hlen := s.length_image
  have hsize : advSize = 512 := rfl
  have hdata : advLen = 500 := rfl
  refine (holds_congr fun i _ hi => ?_).mpr h
  unfold cleanupAdv memcpy write
  rw [overwrite_outside _ _ (Or.inl (by omega)),overwrite_outside _ _ (Or.inl (by omega)),
    overwrite_outside _ _ (Or.inr (by rw [length_dwordBytes]; omega)),
    overwrite_outside _ _ (Or.inr (by rw [length_dwordBytes]; omega))]

theorem cleanupAdv_valid (h : Holds adv 8 s.image) : Valid (cleanupAdv adv) s :=
  ⟨cleanupAdv_holds h,cleanupAdv_consistent adv,cleanupAdv_twin adv⟩

theorem resetAdv_valid (adv : Adv) : Valid (syslinuxResetAdv adv) Store.empty := by
  apply cleanupAdv_valid
  refine holds_of_get fun i hi => ?_
  rw [Store.length_image] at hi
  rw [overwrite_inside _ _ (by omega) (by omega)]
  exact (List.getD_replicate (0 : UInt8) hi).symm

end copies

section calls
variable {adv : Adv} {s : Store} {tag : ℕ} {data : List UInt8}

/-- The working copy as it is committed is the image of the new store. -/
theorem place_set (ht : ¬ (tag = 0 ∨ 256 ≤ tag)) (hl : ¬ 255 < data.length) {rest : List UInt8}
    (hlen : (encode (s.erase (UInt8.ofNat tag)).items).length + rest.length = advLen) :
    (place tag data (encode (s.erase (UInt8.ofNat tag)).items,rest) = none ∧
        s.set tag data = (.enospc,s)) ∨
      (place tag data (encode (s.erase (UInt8.ofNat tag)).items,rest) =
        some (s.set tag data).2.image ∧ (s.set tag data).1 = .ok) := by
  rw [Store.set,dif_neg ht,dif_neg hl]
  by_cases hd : data = []
  · refine Or.inr ⟨?_,?_⟩
    · rw [place,if_pos (List.length_eq_zero_iff.mpr hd),dif_pos hd,Store.image,← hlen,
        Nat.add_sub_cancel_left]
    · rw [dif_pos hd]
  · have hne : data.length ≠ 0 := mt List.length_eq_zero_iff.mp hd
    rw [place,if_neg hne,dif_neg hd]
    by_cases hf : (encode (s.erase (UInt8.ofNat tag)).items).length + (data.length + 2) ≤ advLen
    · refine Or.inr ⟨?_,?_⟩
      · have hitems : (s.replace (itemOf tag data ht hl hd) hf).items =
            (s.erase (UInt8.ofNat tag)).items ++ [itemOf tag data ht hl hd] := rfl
        have hbytes : encode [itemOf tag data ht hl hd] =
            UInt8.ofNat tag :: UInt8.ofNat data.length :: data := by
          rw [encode_cons,encode_nil,List.append_nil]
          rfl
        have hrest : advLen - ((encode (s.erase (UInt8.ofNat tag)).items).length +
            (data.length + 2)) = rest.length - (data.length + 2) := by omega
        rw [if_neg (show ¬ rest.length < data.length + 2 by omega),dif_pos hf,Store.image,hitems,
          encode_append,hbytes,List.length_append]
        exact congrArg (fun n => some (_ ++ List.replicate n 0)) hrest.symm
      · rw [dif_pos hf]
    · exact Or.inl ⟨if_pos (show rest.length < data.length + 2 by omega),dif_neg hf⟩

theorem tag_range (tag : UInt32) : 254 < tag - 1 ↔ tag.toNat = 0 ∨ 256 ≤ tag.toNat := by
  have hlt := tag.toNat_lt
  have hone : (1 : UInt32).toNat = 1 := rfl
  have hmax : (254 : UInt32).toNat = 254 := rfl
  rw [UInt32.lt_iff_toNat_lt,UInt32.toNat_sub,hone,hmax]
  omega

/-- A call answers as the store does and leaves its image, with both copies consistent. -/
theorem setadv_valid (hv : Valid adv s) (tag : UInt32) (data : List UInt8)
    (hset : s.Settled tag.toNat) {fuel : ℕ} (hfuel : advLen < fuel) :
    ∃ adv', syslinuxSetadv fuel adv tag data = some ((s.set tag.toNat data).1,adv') ∧
      Valid adv' (s.set tag.toNat data).2 := by
  unfold syslinuxSetadv
  by_cases ht : tag.toNat = 0 ∨ 256 ≤ tag.toNat
  · rw [if_pos ((tag_range tag).mpr ht),Store.set,dif_pos ht]
    exact ⟨adv,rfl,hv⟩
  · rw [if_neg (mt (tag_range tag).mp ht)]
    by_cases hl : 255 < data.length
    · rw [if_pos hl,Store.set,dif_neg ht,dif_pos hl]
      exact ⟨adv,rfl,hv⟩
    · obtain ⟨rest,hrun,hlen⟩ := run_settled (by omega) hset hfuel
      rw [if_neg hl,hv.holds.slice_eq s.length_image.symm,hrun]
      dsimp only
      rcases place_set ht hl hlen with ⟨hplace,hreply⟩ | ⟨hplace,hreply⟩
      · rw [hplace,hreply]
        exact ⟨adv,rfl,hv⟩
      · rw [hplace,hreply]
        exact ⟨_,rfl,cleanupAdv_valid (holds_write adv 8 _)⟩

theorem Valid.of_copies {adv' : Adv} (hv : Valid adv s) (hcopy : ∀ i < advSize, adv' i = adv i)
    (htwin : ∀ i < advSize, adv' (advSize + i) = adv' i) : Valid adv' s := by
  have hlen := s.length_image
  have hsize : advSize = 512 := rfl
  have hdata : advLen = 500 := rfl
  exact ⟨(holds_congr fun i _ hi => hcopy i (by omega)).mpr hv.holds,
    (advConsistent_congr hcopy).trans hv.consistent,htwin⟩

/-- The first copy brings the second one back. -/
theorem validateAdv_second (hv : Valid adv s) (bytes : ℕ → UInt8) :
    ∃ adv', syslinuxValidateAdv (overwrite adv advSize advSize bytes) = (.ok,adv') ∧ Valid adv' s := by
  have hfirst : ∀ i < advSize, overwrite adv advSize advSize bytes i = adv i := fun i hi =>
    overwrite_outside _ _ (Or.inl hi)
  have hcopy : ∀ i < advSize,
      memcpy (overwrite adv advSize advSize bytes) advSize 0 advSize i = adv i := fun i hi =>
    (overwrite_outside _ _ (Or.inl hi)).trans (hfirst i hi)
  refine ⟨_,if_pos ((advConsistent_congr hfirst).trans hv.consistent),
    hv.of_copies hcopy fun i hi => ?_⟩
  rw [hcopy i hi,memcpy,overwrite_inside _ _ (by omega) (by omega),Nat.add_sub_cancel_left,
    Nat.zero_add,hfirst i hi]

/-- The second copy brings the first one back, unless what stands there looks like a copy. -/
theorem validateAdv_first (hv : Valid adv s) {bytes : ℕ → UInt8} (h : advConsistent bytes = false) :
    ∃ adv', syslinuxValidateAdv (overwrite adv 0 advSize bytes) = (.ok,adv') ∧ Valid adv' s := by
  have hfirst : ∀ i < advSize, overwrite adv 0 advSize bytes i = bytes i := fun i hi =>
    overwrite_inside _ _ (Nat.zero_le i) (by omega)
  have hsecond : ∀ i < advSize, overwrite adv 0 advSize bytes (advSize + i) = adv i := fun i hi =>
    (overwrite_outside _ _ (Or.inr (by omega))).trans (hv.twin i hi)
  have hcopy : ∀ i < advSize,
      memcpy (overwrite adv 0 advSize bytes) 0 advSize advSize i = adv i := fun i hi =>
    (overwrite_inside _ _ (Nat.zero_le i) (by omega)).trans (hsecond i hi)
  have hresult : syslinuxValidateAdv (overwrite adv 0 advSize bytes) =
      (.ok,memcpy (overwrite adv 0 advSize bytes) 0 advSize advSize) := by
    rw [syslinuxValidateAdv,advConsistent_congr hfirst,h,advConsistent_congr hsecond,hv.consistent]
    rfl
  refine ⟨_,hresult,hv.of_copies hcopy fun i hi => ?_⟩
  rw [hcopy i hi,memcpy,overwrite_outside _ _ (Or.inr (by omega)),hsecond i hi]

end calls

section runs

/-- A call, or a copy that is lost and the check that follows. -/
inductive Event where
  | set (tag : UInt32) (data : List UInt8)
  | damage (second : Bool) (bytes : ℕ → UInt8)

def Event.step (fuel : ℕ) (adv : Adv) : Event → Option (Reply × Adv)
  | .set tag data => syslinuxSetadv fuel adv tag data
  | .damage second bytes =>
    some (syslinuxValidateAdv (overwrite adv (if second then advSize else 0) advSize bytes))

def run (fuel : ℕ) : Adv → List Event → Option (List Reply × Adv)
  | adv, [] => some ([],adv)
  | adv, e :: rest => (e.step fuel adv).bind fun r =>
    (run fuel r.2 rest).map fun q => (r.1 :: q.1,q.2)

def Event.means (s : Store) : Event → Reply × Store
  | .set tag data => s.set tag.toNat data
  | .damage _ _ => (.ok,s)

/-- The answers and the store that a run stands for. -/
def means : Store → List Event → List Reply × Store
  | s, [] => ([],s)
  | s, e :: rest => ((e.means s).1 :: (means (e.means s).2 rest).1,(means (e.means s).2 rest).2)

/-- What is written over the first copy is not taken for one. -/
def Event.Sound (s : Store) : Event → Prop
  | .set tag _ => s.Settled tag.toNat
  | .damage second bytes => second = true ∨ advConsistent bytes = false

def SoundRun : Store → List Event → Prop
  | _, [] => True
  | s, e :: rest => e.Sound s ∧ SoundRun (e.means s).2 rest

variable {adv : Adv} {s : Store} {events : List Event} {fuel : ℕ}

theorem step_valid (hv : Valid adv s) {e : Event} (he : e.Sound s) (hfuel : advLen < fuel) :
    ∃ adv', e.step fuel adv = some ((e.means s).1,adv') ∧ Valid adv' (e.means s).2 := by
  cases e with
  | set tag data => exact setadv_valid hv tag data he hfuel
  | damage second bytes =>
    cases second with
    | true =>
      obtain ⟨adv',hresult,hvalid⟩ := validateAdv_second hv bytes
      exact ⟨adv',congrArg some hresult,hvalid⟩
    | false =>
      obtain ⟨adv',hresult,hvalid⟩ := validateAdv_first hv (he.resolve_left Bool.false_ne_true)
      exact ⟨adv',congrArg some hresult,hvalid⟩

theorem run_valid (hv : Valid adv s) (h : SoundRun s events) (hfuel : advLen < fuel) :
    ∃ adv', run fuel adv events = some ((means s events).1,adv') ∧
      Valid adv' (means s events).2 := by
  induction events generalizing adv s with
  | nil => exact ⟨adv,rfl,hv⟩
  | cons e rest ih =>
    obtain ⟨adv₁,hstep,hv₁⟩ := step_valid hv h.1 hfuel
    obtain ⟨adv₂,hrun,hv₂⟩ := ih hv₁ h.2
    refine ⟨adv₂,?_,hv₂⟩
    rw [run,hstep,Option.bind_some,hrun]
    rfl

/-- In every run from a vector that has just been reset, the calls answer as a store of items by
their tags does, and after each run both copies are consistent and hold that store. -/
theorem adv_refines (adv : Adv) (h : SoundRun Store.empty events) (hfuel : advLen < fuel) :
    ∃ adv', run fuel (syslinuxResetAdv adv) events = some ((means Store.empty events).1,adv') ∧
      Valid adv' (means Store.empty events).2 := run_valid (resetAdv_valid adv) h hfuel

/-- Two items are stored, one of them is removed, and the second copy is lost. -/
def keptEvents : List Event :=
  [.set 1 [0x41],.set 2 [0x42,0x43],.set 1 [],.damage true fun _ => 0]

theorem adv_refines_kept : ∃ adv', run 501 (syslinuxResetAdv fun _ => 0) keptEvents =
      some ((means Store.empty keptEvents).1,adv') ∧ Valid adv' (means Store.empty keptEvents).2 :=
  adv_refines _ ⟨Or.inl (by decide),Or.inl (by decide),Or.inl (by decide),Or.inl rfl,trivial⟩
    (by decide)

end runs

section hanging
variable {adv : Adv} {s : Store} {x : Item} {as bs : List Item} {k : ℕ}

theorem scanStep_period {tag m : UInt8} {q : List UInt8} (hne : tag ≠ 0) (hq : q.length = m.toNat)
    (kept : List UInt8) (k : ℕ) :
    scanStep tag.toNat (kept,(List.replicate (k + 2) (tag :: m :: q)).flatten) =
      .inl (kept,(List.replicate (k + 2) (tag :: m :: q)).flatten) := by
  have hfront : (List.replicate (k + 2) (tag :: m :: q)).flatten =
      (tag :: m :: q) ++ (List.replicate (k + 1) (tag :: m :: q)).flatten := by
    rw [List.replicate_succ,List.flatten_cons]
  have hback : (List.replicate (k + 2) (tag :: m :: q)).flatten =
      (List.replicate (k + 1) (tag :: m :: q)).flatten ++ (tag :: m :: q) := by
    rw [List.replicate_succ',List.flatten_append,List.flatten_singleton]
  have hlen : (tag :: m :: q).length = m.toNat + 2 := congrArg (· + 2) hq
  have htotal : (List.replicate (k + 2) (tag :: m :: q)).flatten.length =
      (List.replicate (k + 1) (tag :: m :: q)).flatten.length + (m.toNat + 2) := by
    rw [hback,List.length_append,hlen]
  have hmore : 0 < (List.replicate (k + 1) (tag :: m :: q)).flatten.length := by
    rw [List.replicate_succ,List.flatten_cons,List.length_append,hlen]
    omega
  have hhead : (List.replicate (k + 2) (tag :: m :: q)).flatten.getD 0 0 = tag := by
    rw [hfront]
    rfl
  have hsize : (List.replicate (k + 2) (tag :: m :: q)).flatten.getD 1 0 = m := by
    rw [hfront]
    rfl
  have hmoved : (List.replicate (k + 2) (tag :: m :: q)).flatten.drop (m.toNat + 2) =
      (List.replicate (k + 1) (tag :: m :: q)).flatten := by
    rw [hfront,← hlen,List.drop_left]
  have hstale : (List.replicate (k + 2) (tag :: m :: q)).flatten.drop
      (List.replicate (k + 1) (tag :: m :: q)).flatten.length = tag :: m :: q := by
    rw [hback,List.drop_left]
  unfold scanStep
  simp only [hhead,hsize,htotal,Nat.add_sub_cancel,hmoved,hstale]
  rw [if_neg (by omega),if_neg hne,if_pos trivial,if_neg (by omega),← hback]

theorem run_period {tag m : UInt8} {q : List UInt8} (hne : tag ≠ 0) (hq : q.length = m.toNat)
    (kept : List UInt8) (k fuel : ℕ) :
    Loop.run (scanStep tag.toNat) fuel (kept,(List.replicate (k + 2) (tag :: m :: q)).flatten) =
      none := by
  have hstep : ∀ p : List UInt8 × List UInt8,
      p.2 = (List.replicate (k + 2) (tag :: m :: q)).flatten →
      ∃ p', scanStep tag.toNat p = .inl p' ∧
        p'.2 = (List.replicate (k + 2) (tag :: m :: q)).flatten := by
    rintro ⟨kept',rest⟩ rfl
    exact ⟨_,scanStep_period hne hq kept' k,rfl⟩
  exact Loop.run_eq_none hstep fuel rfl

/-- The bytes that the move leaves behind are the repeated ones, and they stay in front. -/
theorem run_hangs (hitems : s.items = as ++ x :: bs) (hfull : (encode s.items).length = advLen)
    {m : UInt8} {q pre : List UInt8} (hq : q.length = m.toNat)
    (hk : (k + 2) * (m.toNat + 2) = x.bytes.length)
    (htail : encode bs = pre ++ (List.replicate (k + 2) (x.tag :: m :: q)).flatten) (fuel : ℕ) :
    Loop.run (scanStep x.tag.toNat) fuel ([],s.image) = none := by
  have hlen : (List.replicate (k + 2) (x.tag :: m :: q)).flatten.length = x.bytes.length := by
    rw [List.length_flatten,List.map_replicate,List.sum_replicate,← hk,List.length_cons,
      List.length_cons,hq]
    rfl
  have hstale : (x.bytes ++ encode bs).drop (encode bs).length =
      (List.replicate (k + 2) (x.tag :: m :: q)).flatten := by
    have hsum : (encode bs).length = (x.bytes ++ pre).length := by
      rw [htail,List.length_append,List.length_append,hlen,Nat.add_comm]
    rw [hsum,htail,← List.append_assoc,List.drop_left]
  have hne : encode bs ≠ [] := by
    rw [htail]
    intro hnil
    have hzero := congrArg List.length (List.append_eq_nil_iff.mp hnil).2
    rw [hlen,x.length_bytes] at hzero
    exact absurd hzero (Nat.succ_ne_zero _)
  cases hrun : Loop.run (scanStep x.tag.toNat) fuel ([],s.image) with
  | none => rfl
  | some r =>
    have hmono := Loop.run_mono hrun (show fuel ≤ as.length + (bs.length + fuel + 1) by omega)
    have hfound := run_found hitems (bs.length + fuel)
    simp only [hfull,Nat.sub_self,List.replicate_zero,List.append_nil,if_neg hne,hstale] at hfound
    rw [hfound,run_others (s.others hitems).2,run_period x.tag_ne hq] at hmono
    cases hmono

/-- A full vector whose last bytes repeat what looks like an item with the tag of another one, for
as long as that one is: storing under the tag never comes to an end. -/
theorem setadv_hangs (hv : Valid adv s) (hitems : s.items = as ++ x :: bs)
    (hfull : (encode s.items).length = advLen) {m : UInt8} {q pre : List UInt8}
    (hq : q.length = m.toNat) (hk : (k + 2) * (m.toNat + 2) = x.bytes.length)
    (htail : encode bs = pre ++ (List.replicate (k + 2) (x.tag :: m :: q)).flatten)
    {data : List UInt8} (hdata : data.length ≤ 255) (fuel : ℕ) :
    syslinuxSetadv fuel adv (UInt32.ofNat x.tag.toNat) data = none := by
  have htag : (UInt32.ofNat x.tag.toNat).toNat = x.tag.toNat := by
    have hlt := x.tag.toNat_lt
    rw [UInt32.toNat_ofNat',Nat.mod_eq_of_lt (by omega)]
  have hpos : x.tag.toNat ≠ 0 := fun h => x.tag_ne (UInt8.toNat_inj.mp h)
  have hbyte := x.tag.toNat_lt
  unfold syslinuxSetadv
  rw [if_neg (by rw [tag_range,htag]; omega),if_neg (by omega),htag,
    hv.holds.slice_eq s.length_image.symm,run_hangs hitems hfull hq hk htail]

theorem length_zeros (n : ℕ) (l : List UInt8) :
    (List.replicate n 0 ++ l).length = n + l.length := by
  rw [List.length_append,List.length_replicate]

/-- An item whose data ends in the given bytes. -/
def zerosItem (tag : UInt8) (n : ℕ) (l : List UInt8) (ht : tag ≠ 0) (hl : l ≠ [])
    (hn : n + l.length ≤ 255) : Item where
  tag := tag
  data := List.replicate n 0 ++ l
  tag_ne := ht
  data_ne := List.append_ne_nil_of_right_ne_nil _ hl
  length_le := (length_zeros n l).trans_le hn

def firstItem : Item := zerosItem 1 3 [7] (by decide) (by decide) (by decide)
def middleItem : Item := zerosItem 2 254 [7] (by decide) (by decide) (by decide)
def lastItem : Item := zerosItem 3 229 [1,1,9,1,1,9] (by decide) (by decide) (by decide)

def fullItems : List Item := [firstItem,middleItem,lastItem]

theorem encode_lastItem : encode [middleItem,lastItem] =
    (middleItem.bytes ++ 3 :: 235 :: List.replicate 229 0) ++ (List.replicate 2 [1,1,9]).flatten := by
  rw [encode_cons,encode_cons,encode_nil,List.append_nil,List.append_assoc]
  exact congrArg (middleItem.bytes ++ ·) (by decide +kernel)

theorem length_fullItems : (encode fullItems).length = advLen := by
  simp only [fullItems,firstItem,middleItem,lastItem,encode_cons,encode_nil,List.length_append,
    Item.length_bytes,zerosItem,List.length_replicate]
  rfl

def fullStore : Store := ⟨fullItems,by decide,length_fullItems.le⟩

theorem setadv_hangs_full :
    syslinuxSetadv 1000 (cleanupAdv (write (fun _ => 0) 8 fullStore.image)) 1 [7] = none :=
  have hvalid : Valid (cleanupAdv (write (fun _ => 0) 8 fullStore.image)) fullStore :=
    cleanupAdv_valid (holds_write _ 8 _)
  have hitems : fullStore.items = [] ++ firstItem :: [middleItem,lastItem] := rfl
  setadv_hangs hvalid hitems length_fullItems rfl rfl encode_lastItem (by decide) 1000

end hanging

end SecureWipeOut.SyslinuxAdv
