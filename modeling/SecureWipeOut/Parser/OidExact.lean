import SecureWipeOut.Parser.OidEncoding

/-! # When an object identifier is converted

Every text within the limits is converted to its encoding, and the bytes never exceed the buffer.
A text with an arc of 2 ^ 32 or more should give nothing, but the arc is taken for the largest
number, or, when it is the second one, wraps to a small one.
-/
namespace SecureWipeOut.Oid
open CText Base128

section Bound

theorem digits_lt (num : List Char) : digits 10 num < 10 ^ num.length := by
  have hfold : ∀ (ds : List Char) (n : ℕ), (∀ c ∈ ds, digit c < 10) →
      ds.foldl (fun n c => 10 * n + digit c) n < (n + 1) * 10 ^ ds.length := by
    intro ds
    induction ds with
    | nil =>
      intro n _
      simp
    | cons c ds ih =>
      intro n hds
      have hc := hds c List.mem_cons_self
      have hrest := ih (10 * n + digit c) fun d hd => hds d (List.mem_cons_of_mem c hd)
      rw [List.foldl_cons,List.length_cons,pow_succ]
      calc ds.foldl (fun n c => 10 * n + digit c) (10 * n + digit c)
          < (10 * n + digit c + 1) * 10 ^ ds.length := hrest
        _ ≤ ((n + 1) * 10) * 10 ^ ds.length := Nat.mul_le_mul_right _ (by omega)
        _ = (n + 1) * (10 ^ ds.length * 10) := by ring
  have hall := hfold (num.takeWhile fun c => decide (digit c < 10)) 0 fun c hc => by
    simpa using List.mem_takeWhile_imp hc
  rw [zero_add,one_mul] at hall
  exact hall.trans_le (Nat.pow_le_pow_right (by omega) (List.takeWhile_sublist _).length_le)

theorem pow_ten_le {k n : ℕ} (h : n < 10 ^ k) (hk : k ≠ 0) : n + 80 < 128 ^ k := by
  obtain ⟨k,rfl⟩ := Nat.exists_eq_succ_of_ne_zero hk
  have hle : 10 ^ k ≤ 128 ^ k := Nat.pow_le_pow_left (by omega) k
  have hpos : 0 < 128 ^ k := Nat.pow_pos (by omega)
  rw [Nat.succ_eq_add_one,pow_succ] at h ⊢
  omega

/-- No arc takes more bytes than it has digits. -/
theorem length_encode_arc {num : List Char} (h : IsNum num) {n : ℕ} (hn : n ≤ digits 10 num + 80) :
    (encode n).length ≤ num.length := by
  have hpos : num.length ≠ 0 := fun h0 => h.1 (List.length_eq_zero_iff.mp h0)
  have hlt := pow_ten_le (digits_lt num) hpos
  obtain ⟨k,hk⟩ := Nat.exists_eq_succ_of_ne_zero hpos
  rw [hk] at hlt ⊢
  exact length_encode_le (hn.trans_lt hlt)

theorem length_oidArc {num : List Char} (h : IsNum num) {arcno val1 v : ℕ} (harc : arcno ≠ 1) {oid oid' : List UInt8}
    (hstep : oidArc arcno val1 (clamp (digits 10 num)) oid = some (v,oid')) :
    oid'.length ≤ oid.length + num.length := by
  have hclamp : clamp (digits 10 num) ≤ digits 10 num := Nat.min_le_right _ _
  have hpos : 0 < num.length := List.length_pos_of_ne_nil h.1
  rw [oidArc,if_neg harc] at hstep
  split at hstep
  · split at hstep
    · split at hstep
      · cases hstep
      · cases hstep
        rw [List.length_append,List.length_singleton]
        omega
    · cases hstep
      rw [makeFlaggedInt_eq (Nat.mod_lt _ (by omega)),List.length_append]
      exact Nat.add_le_add_left (length_encode_arc h ((Nat.mod_le _ _).trans (by omega))) _
  · cases hstep
    rw [makeFlaggedInt_eq (clamp_lt _),List.length_append]
    exact Nat.add_le_add_left (length_encode_arc h (by omega)) _

theorem length_oidLoop (text : List Char) : ∀ {arcno : ℕ}, arcno ≠ 0 → ∀ (val1 : ℕ) (oid : List UInt8),
    (oidLoop arcno val1 oid text).oid.length ≤ oid.length + text.length := by
  induction hlen : text.length using Nat.strongRecOn generalizing text with
  | ind k ih =>
    intro arcno harc val1 oid
    cases hreads : reads text with
    | false =>
      rw [oidLoop_not_reads hreads]
      exact Nat.le_add_right _ _
    | true =>
      rcases reads_cases hreads with ⟨num,rest,hnum,rfl⟩ | hnum
      · rw [List.length_append,List.length_cons] at hlen
        rw [oidLoop_dot hnum harc]
        cases hstep : oidArc (arcno + 1) val1 (clamp (digits 10 num)) oid with
        | none => exact Nat.le_add_right _ _
        | some p =>
          have hone := length_oidArc hnum (by omega) hstep
          have hrest := ih rest.length (by omega) rest rfl (show arcno + 1 ≠ 0 by omega) p.1 p.2
          dsimp only
          omega
      · rw [oidLoop_num hnum harc]
        cases hstep : oidArc (arcno + 1) val1 (clamp (digits 10 text)) oid with
        | none => exact Nat.le_add_right _ _
        | some p =>
          have hone := length_oidArc hnum (by omega) hstep
          dsimp only
          omega

/-- The buffer is long enough for every text. -/
theorem length_written (text : List Char) : (written text).length ≤ text.length := by
  rw [written]
  cases hreads : reads text with
  | false =>
    rw [oidLoop_not_reads hreads]
    exact Nat.zero_le _
  | true =>
    rcases reads_cases hreads with ⟨num,rest,hnum,rfl⟩ | hnum
    · rw [oidLoop_first hnum]
      split
      · exact Nat.zero_le _
      · have hloop := length_oidLoop rest (Nat.one_ne_zero) (digits 10 num) []
        rw [List.length_append,List.length_cons]
        rw [List.length_nil] at hloop
        omega
    · rw [oidLoop_first_num hnum]
      exact Nat.zero_le _

end Bound

section Result

/-- The numbers that are written for the arcs. -/
def stored : List ℕ → List ℕ
  | a :: b :: rest => (if a < 2 then 40 * a + b else (clamp b + 80) % 2 ^ 32) :: rest.map clamp
  | _ => []

theorem flatMap_clamp (rest : List ℕ) : (rest.flatMap fun n => encode (clamp n)) = (rest.map clamp).flatMap encode := by
  rw [List.flatMap_map]

/-- The second arc is joined to the first one. -/
theorem oidArc_second {a b : ℕ} (ha : a ≤ 2) :
    oidArc 2 a (clamp b) [] = if allowed [a,b] then some (a,(stored [a,b]).flatMap encode) else none := by
  have hclamp : 39 < clamp b ↔ 39 < b := by
    unfold clamp
    omega
  rw [oidArc,if_neg (by omega),if_pos rfl,allowed,decide_eq_true ha,Bool.true_and,stored]
  by_cases h2 : a < 2
  · rw [if_pos h2,if_pos h2,decide_eq_false (by omega),Bool.false_or]
    by_cases hb : 39 < b
    · rw [if_pos (hclamp.mpr hb),decide_eq_false (by omega)]
      rfl
    · have hlt : 40 * a + b < 128 := by omega
      rw [if_neg (by rwa [hclamp]),if_pos (decide_eq_true (by omega)),List.map_nil,List.flatMap_singleton,encode_of_lt hlt,
        clamp_of_lt (by omega),mul_comm]
      rfl
  · rw [if_neg h2,if_neg h2,decide_eq_true (by omega),makeFlaggedInt_eq (Nat.mod_lt _ (by omega))]
    simp

/-- What the loop does with the text behind the first arc. -/
theorem oidLoop_second {a : ℕ} (ha : a ≤ 2) (text : List Char) :
    match arcsOf text with
    | none => (oidLoop 1 a [] text).err = true
    | some arcs =>
      if allowed (a :: arcs) then oidLoop 1 a [] text = ⟨1 + arcs.length,(stored (a :: arcs)).flatMap encode,false⟩
      else (oidLoop 1 a [] text).err = true := by
  cases hreads : reads text with
  | false => rw [arcsOf_not_reads hreads,oidLoop_not_reads hreads]
  | true =>
    rcases reads_cases hreads with ⟨num,rest,hnum,rfl⟩ | hnum
    · have hlater := oidLoop_later rest (le_refl 2) a ((stored [a,digits 10 num]).flatMap encode)
      rw [arcsOf_dot hnum,oidLoop_dot hnum (by omega),oidArc_second ha]
      by_cases hallowed : allowed [a,digits 10 num] = true
      · rw [if_pos hallowed]
        cases harcs : arcsOf rest with
        | none =>
          rw [harcs] at hlater
          exact hlater
        | some arcs =>
          rw [harcs] at hlater
          dsimp only [Option.map_some] at hlater ⊢
          rw [if_pos (show allowed (a :: digits 10 num :: arcs) = true from hallowed),hlater,flatMap_clamp,
            ← List.flatMap_append,List.length_cons,← Nat.add_assoc,Nat.add_right_comm]
          rfl
      · rw [if_neg hallowed]
        cases harcs : arcsOf rest with
        | none => rfl
        | some arcs =>
          dsimp only [Option.map_some]
          rw [if_neg (show ¬allowed (a :: digits 10 num :: arcs) = true from hallowed)]
    · rw [arcsOf_num hnum,oidLoop_num hnum (by omega),oidArc_second ha]
      by_cases hallowed : allowed [a,digits 10 text] = true
      · rw [if_pos hallowed]
        dsimp only
        rw [if_pos hallowed]
        rfl
      · rw [if_neg hallowed]
        dsimp only
        rw [if_neg hallowed]

/-- What a text is converted to. -/
theorem oidFromStr_eq (text : List Char) :
    oidFromStr (some text) =
      match arcsOf text with
      | none => none
      | some arcs =>
        if allowed arcs = true ∧ 2 ≤ ((stored arcs).flatMap encode).length ∧ ((stored arcs).flatMap encode).length ≤ 254 then
          some ((stored arcs).flatMap encode)
        else none := by
  have hrun : oidFromStr (some text) =
      if (oidLoop 0 0 [] text).err ∨ (oidLoop 0 0 [] text).arcno = 1 ∨ (oidLoop 0 0 [] text).oid.length < 2 ∨
        254 < (oidLoop 0 0 [] text).oid.length then none else some (oidLoop 0 0 [] text).oid := by
    cases text with
    | nil =>
      rw [oidLoop_not_reads rfl]
      rfl
    | cons c text => rfl
  rw [hrun]
  cases hreads : reads text with
  | false =>
    rw [arcsOf_not_reads hreads,oidLoop_not_reads hreads]
    exact if_pos (Or.inl rfl)
  | true =>
    rcases reads_cases hreads with ⟨num,rest,hnum,rfl⟩ | hnum
    · rw [arcsOf_dot hnum,oidLoop_first hnum]
      by_cases h2 : 2 < digits 10 num
      · rw [if_pos h2,if_pos (Or.inr (Or.inl rfl))]
        cases harcs : arcsOf rest with
        | none => rfl
        | some arcs =>
          have hnot : ¬allowed (digits 10 num :: arcs) = true := by
            cases arcs with
            | nil => exact Bool.false_ne_true
            | cons b arcs =>
              rw [allowed,decide_eq_false (by omega)]
              exact Bool.false_ne_true
          exact (if_neg fun h => hnot h.1).symm
      · have hsecond := oidLoop_second (not_lt.mp h2) rest
        rw [if_neg h2]
        cases harcs : arcsOf rest with
        | none =>
          rw [harcs] at hsecond
          exact if_pos (Or.inl hsecond)
        | some arcs =>
          rw [harcs] at hsecond
          dsimp only [Option.map_some] at hsecond ⊢
          by_cases hallowed : allowed (digits 10 num :: arcs) = true
          · have hlen : arcs.length ≠ 0 := by
              intro h0
              rw [List.length_eq_zero_iff.mp h0] at hallowed
              exact Bool.false_ne_true hallowed
            rw [if_pos hallowed] at hsecond
            rw [hsecond]
            dsimp only
            split
            next h =>
              refine (if_neg fun h' => ?_).symm
              obtain h | h | h | h := h
              · exact Bool.false_ne_true h
              · omega
              · omega
              · omega
            next h => exact (if_pos ⟨hallowed,by omega,by omega⟩).symm
          · rw [if_neg hallowed] at hsecond
            rw [if_pos (Or.inl hsecond),if_neg fun h => hallowed h.1]
    · rw [arcsOf_num hnum,oidLoop_first_num hnum,if_pos (Or.inr (Or.inl rfl))]
      exact (if_neg fun h => Bool.false_ne_true h.1).symm

/-- Without an arc that is too large the numbers written are those of the arcs. -/
theorem stored_eq {arcs : List ℕ} (hallowed : allowed arcs = true) (hlt : ∀ n ∈ combined arcs, n < 2 ^ 32) :
    stored arcs = combined arcs := by
  match arcs with
  | [] => rfl
  | [_] => rfl
  | a :: b :: rest =>
    have ha : a ≤ 2 := by
      rw [allowed,Bool.and_eq_true] at hallowed
      exact of_decide_eq_true hallowed.1
    have hfirst : 40 * a + b < 2 ^ 32 := hlt _ List.mem_cons_self
    have hrest : rest.map clamp = rest := by
      refine (List.map_congr_left fun n hn => clamp_of_lt (hlt n (List.mem_cons_of_mem _ hn))).trans ?_
      exact List.map_id rest
    rw [stored,combined,hrest]
    split
    · rfl
    · rw [clamp_of_lt (by omega),show a = 2 by omega,Nat.mod_eq_of_lt (by omega),Nat.add_comm]

theorem length_clamp (n : ℕ) :
    (encode (clamp n)).length = if 2 ^ 32 ≤ n then 5 else (encode n).length := by
  split
  next h =>
    have hmax : clamp n = 2 ^ 32 - 1 := by
      unfold clamp
      omega
    have hle : (encode (clamp n)).length ≤ 4 + 1 := length_encode_le (by omega)
    have hlt : 4 < (encode (clamp n)).length := lt_length_encode (by omega)
    omega
  next h => rw [clamp_of_lt (by omega)]

theorem length_stored {arcs : List ℕ} (hallowed : allowed arcs = true) :
    ((stored arcs).flatMap encode).length = clampedLength arcs := by
  match arcs with
  | [] => rfl
  | [_] => rfl
  | a :: b :: rest =>
    rw [allowed,Bool.and_eq_true,Bool.or_eq_true] at hallowed
    have ha : a ≤ 2 := of_decide_eq_true hallowed.1
    have hb : 2 ≤ a ∨ b ≤ 39 := hallowed.2.imp of_decide_eq_true of_decide_eq_true
    have hrest : ((rest.map clamp).flatMap encode).length =
        (rest.map fun n => if 2 ^ 32 ≤ n then 5 else (encode n).length).sum := by
      rw [List.length_flatMap,List.map_map]
      congr 1
      exact List.map_congr_left fun n _ => length_clamp n
    rw [stored,List.flatMap_cons,List.length_append,hrest,clampedLength]
    congr 1
    by_cases h2 : a < 2
    · rw [if_pos h2,if_neg (by omega)]
    · obtain rfl : a = 2 := by omega
      rw [if_neg h2]
      split
      next h =>
        have hwrap : (clamp b + 80) % 2 ^ 32 < 128 := by
          unfold clamp
          omega
        rw [encode_of_lt hwrap]
        rfl
      next h => rw [clamp_of_lt (by omega),Nat.mod_eq_of_lt (by omega),Nat.add_comm]

end Result

section Exact

theorem separated_combined {arcs : List ℕ} (h : allowed arcs = true) : separated (combined arcs) = arcs := by
  match arcs with
  | [] => exact absurd h Bool.false_ne_true
  | [_] => exact absurd h Bool.false_ne_true
  | a :: b :: rest =>
    rw [allowed,Bool.and_eq_true,Bool.or_eq_true] at h
    have ha : a ≤ 2 := of_decide_eq_true h.1
    have hb : 2 ≤ a ∨ b ≤ 39 := h.2.imp of_decide_eq_true of_decide_eq_true
    have hfirst : min 2 ((40 * a + b) / 40) = a := by omega
    rw [combined,separated,hfirst,Nat.add_sub_cancel_left]

theorem Clamped.not_converts {text : List Char} (h : Clamped text) : ¬Converts text := by
  obtain ⟨arcs,harcs,hallowed,⟨n,hn,hlarge⟩,htwo,hle⟩ := h
  intro hconv
  have hfrom := oidFromStr_eq text
  have hnone := hconv.rejected fun arcs' harcs' henc => by
    obtain rfl : arcs = arcs' := Option.some.inj (harcs.symm.trans harcs')
    exact absurd (henc.lt n hn) (by omega)
  rw [harcs] at hfrom
  dsimp only at hfrom
  rw [length_stored hallowed,if_pos ⟨hallowed,htwo,hle⟩,hnone] at hfrom
  cases hfrom

/-- The conversion meets what is asked of it unless an arc is too large and the bytes written
for it still have a length that can be. -/
theorem oidFromStr_iff (text : List Char) : Converts text ↔ ¬Clamped text := by
  have hfrom := oidFromStr_eq text
  constructor
  · exact fun hconv hclamped => hclamped.not_converts hconv
  · intro hclamped
    have hdecode : ∀ arcs, decode 0 (contents arcs) = combined arcs := fun arcs => decode_flatMap _
    refine ⟨fun arcs harcs henc => ?_,fun arcs _ henc => ?_,fun arcs _ _ => minimal_flatMap _,fun hnone => ?_,?_⟩
    · rw [harcs] at hfrom
      rw [hfrom]
      dsimp only
      rw [stored_eq henc.allowed henc.lt]
      exact if_pos ⟨henc.allowed,henc.two_le,henc.le⟩
    · rw [hdecode,separated_combined henc.allowed]
    · rw [hfrom]
      cases harcs : arcsOf text with
      | none => rfl
      | some arcs =>
        refine if_neg fun ⟨hallowed,htwo,hle⟩ => ?_
        by_cases hlarge : ∃ n ∈ combined arcs, 2 ^ 32 ≤ n
        · rw [length_stored hallowed] at htwo hle
          exact hclamped ⟨arcs,harcs,hallowed,hlarge,htwo,hle⟩
        · have hlt : ∀ n ∈ combined arcs, n < 2 ^ 32 := fun n hn => not_le.mp fun h => hlarge ⟨n,hn,h⟩
          rw [stored_eq hallowed hlt] at htwo hle
          exact hnone arcs harcs ⟨hallowed,hlt,htwo,hle⟩
    · exact (length_written text).trans (Nat.le_add_right _ 3)

/-- An arc of 2 ^ 32 is encoded as if it were the number before it. -/
theorem oidFromStr_clamps : ¬Converts "1.2.4294967296".toList ∧
    oidFromStr (some "1.2.4294967296".toList) = oidFromStr (some "1.2.4294967295".toList) := by
  have hlarge : arcsOf "1.2.4294967296".toList = some [1,2,4294967296] := by decide
  have hmax : arcsOf "1.2.4294967295".toList = some [1,2,4294967295] := by decide
  have hlen : clampedLength [1,2,4294967296] = 6 := by
    rw [clampedLength,encode_of_lt (by decide)]
    rfl
  constructor
  · apply Clamped.not_converts
    refine ⟨_,hlarge,rfl,⟨4294967296,by decide,by omega⟩,?_,?_⟩
    · rw [hlen]
      omega
    · rw [hlen]
      omega
  · rw [oidFromStr_eq,oidFromStr_eq,hlarge,hmax]
    rfl

end Exact

end SecureWipeOut.Oid
