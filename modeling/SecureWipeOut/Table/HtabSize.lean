import SecureWipeOut.Table.Htab
import Mathlib.NumberTheory.LucasLehmer

/-! # The size of the string hash table

Trial division is exact for the odd numbers from 5 that `htab_create` tests, and the
number it stops at is below `2 ^ 31`, since `2 ^ 31 - 1` is prime. Squares of the
dividers tried therefore never wrap.
-/
namespace SecureWipeOut.Htab
open CInt Loop

section Isprime

def DividersFail (number divider : ℕ) : Prop :=
  3 ≤ divider ∧ divider % 2 = 1 ∧ ∀ d, 1 < d → d < divider → ¬ d ∣ number

theorem dividersFail_three {number : ℕ} (hodd : number % 2 = 1) : DividersFail number 3 := by
  refine ⟨le_rfl,rfl,?_⟩
  intro d hd hd3
  obtain rfl : d = 2 := by omega
  omega

theorem isprimeStep_inl {number divider d : ℕ} (hodd : number % 2 = 1) (hn : number < 2 ^ 31)
    (hI : DividersFail number divider ∧ divider ≤ 46343)
    (h : isprimeStep number divider = .inl d) :
    (DividersFail number d ∧ d ≤ 46343) ∧ d = divider + 2 := by
  obtain ⟨⟨h3,hdodd,hfail⟩,hle⟩ := hI
  have hsq : divider * divider ≤ 46343 * 46343 := Nat.mul_le_mul hle hle
  rw [isprimeStep,dword_of_lt (by omega),dword_of_lt (by omega)] at h
  split at h
  next hc =>
    obtain rfl : divider + 2 = d := Sum.inl.inj h
    have hlt : divider < 46342 := by
      by_contra hge
      have : 46342 * 46342 ≤ divider * divider := Nat.mul_le_mul (by omega) (by omega)
      omega
    refine ⟨⟨⟨by omega,by omega,?_⟩,by omega⟩,rfl⟩
    intro e he hed hdvd
    have hcases : e < divider ∨ e = divider ∨ e = divider + 1 := by omega
    rcases hcases with hlt' | rfl | rfl
    · exact hfail e he hlt' hdvd
    · exact hc.2 (Nat.mod_eq_zero_of_dvd hdvd)
    · have h2 : 2 ∣ number := Nat.dvd_trans (by omega) hdvd
      omega
  next => cases h

theorem isprimeStep_inr {number divider : ℕ} {b : Bool} (h5 : 5 ≤ number) (hn : number < 2 ^ 31)
    (hI : DividersFail number divider ∧ divider ≤ 46343)
    (hprev : divider = 3 ∨ (divider - 2) * (divider - 2) < number)
    (h : isprimeStep number divider = .inr b) : b = decide number.Prime := by
  obtain ⟨⟨h3,_,hfail⟩,hle⟩ := hI
  have hsq : divider * divider ≤ 46343 * 46343 := Nat.mul_le_mul hle hle
  rw [isprimeStep,dword_of_lt (by omega)] at h
  have hdn : divider < number := by
    rcases hprev with rfl | hp
    · omega
    · rcases Nat.lt_or_ge divider 5 with h4 | h5'
      · omega
      · have : 3 * (divider - 2) ≤ (divider - 2) * (divider - 2) := Nat.mul_le_mul_right _ (by omega)
        omega
  split at h
  next => cases h
  next hc =>
    obtain rfl := Sum.inr.inj h
    by_cases hmod : number % divider = 0
    · have hnp : ¬ number.Prime := by
        intro hp
        rcases (Nat.dvd_prime hp).mp (Nat.dvd_of_mod_eq_zero hmod) with h1 | h1 <;> omega
      simp [hmod,hnp]
    · have hge : number ≤ divider * divider := by
        by_contra hlt
        exact hc ⟨by omega,hmod⟩
      have hp : number.Prime := by
        by_contra hnp
        have hmin := Nat.minFac_sq_le_self (by omega) hnp
        have hpr := Nat.minFac_prime (n := number) (by omega)
        have hmf : number.minFac ≤ divider := by
          by_contra hgt
          have : divider * divider < number.minFac * number.minFac :=
            Nat.mul_lt_mul'' (by omega) (by omega)
          rw [pow_two] at hmin
          omega
        rcases hmf.lt_or_eq with hlt | heq
        · exact hfail _ hpr.one_lt hlt (Nat.minFac_dvd number)
        · exact hmod (Nat.mod_eq_zero_of_dvd (heq ▸ Nat.minFac_dvd number))
      simp [hmod,hp]

/-- For odd numbers from 5 the test is exact; it rejects 3. -/
theorem isprime_spec {fuel number : ℕ} (hodd : number % 2 = 1) (h5 : 5 ≤ number)
    (hn : number < 2 ^ 31) (hfuel : 46343 ≤ fuel) :
    isprime fuel number = some (decide number.Prime) := by
  let I := fun d => (DividersFail number d ∧ d ≤ 46343) ∧ (d = 3 ∨ (d - 2) * (d - 2) < number)
  have hI3 : I 3 := ⟨⟨dividersFail_three hodd,by omega⟩,Or.inl rfl⟩
  have hstep : ∀ s s', I s → isprimeStep number s = .inl s' → I s' ∧ 46344 - s' < 46344 - s := by
    intro s s' hs h
    obtain ⟨hI,rfl⟩ := isprimeStep_inl hodd hn hs.1 h
    have hlt : s * s < number := by
      have hsq : s * s ≤ 46343 * 46343 := Nat.mul_le_mul hs.1.2 hs.1.2
      rw [isprimeStep,dword_of_lt (by omega)] at h
      split at h
      next hc => exact hc.1
      next => cases h
    exact ⟨⟨hI,Or.inr (by simpa using hlt)⟩,by omega⟩
  have hm : 46344 - 3 < fuel := by omega
  obtain ⟨b,hb⟩ := run_terminates (fun d => 46344 - d) hstep hI3 hm
  have : b = decide number.Prime :=
    run_rule (fun s s' hs h => (hstep s s' hs h).1)
      (fun s r hs h => isprimeStep_inr h5 hn hs.1 hs.2 h) hI3 hb
  rw [isprime,hb,this]

theorem isprime_three {fuel : ℕ} (hfuel : 1 ≤ fuel) : isprime fuel 3 = some false := by
  obtain ⟨k,rfl⟩ : ∃ k, fuel = k + 1 := ⟨fuel - 1,by omega⟩
  rfl

end Isprime

section Create

theorem prime_two_pow_31_sub_one : (2 ^ 31 - 1).Prime := by
  have h : (mersenne 31).Prime := lucas_lehmer_sufficiency 31 (by norm_num) (by norm_num)
  simpa [mersenne] using h

def NelOk (nel : ℕ) : Prop := 3 ≤ nel ∧ nel % 2 = 1 ∧ nel < 2 ^ 31

theorem nelStep_cases {fuel nel : ℕ} (hfuel : 2 ^ 31 ≤ fuel) (h : NelOk nel) :
    (5 ≤ nel ∧ nel.Prime ∧ nelStep fuel nel = .inr (some nel)) ∨
      (NelOk (nel + 2) ∧ nelStep fuel nel = .inl (nel + 2)) := by
  obtain ⟨h3,hodd,hlt⟩ := h
  rcases Nat.lt_or_ge nel 5 with h5 | h5
  · obtain rfl : nel = 3 := by omega
    refine Or.inr ⟨⟨by omega,by omega,by omega⟩,?_⟩
    rw [nelStep,isprime_three (by omega)]
    rfl
  · have hf : 46343 ≤ fuel := by omega
    have htest := isprime_spec hodd h5 hlt hf
    by_cases hp : nel.Prime
    · left
      refine ⟨h5,hp,?_⟩
      simp [nelStep,htest,hp]
    · right
      have hne : nel ≠ 2 ^ 31 - 1 := fun h => hp (h ▸ prime_two_pow_31_sub_one)
      refine ⟨⟨by omega,by omega,by omega⟩,?_⟩
      simp [nelStep,htest,hp,dword_of_lt (show nel + 2 < 2 ^ 32 by omega)]

theorem firstPrime_spec {fuel nel : ℕ} (hfuel : 2 ^ 31 ≤ fuel) (h : NelOk nel) :
    ∃ p, firstPrime fuel nel = some p ∧ p.Prime ∧ 5 ≤ p ∧ nel ≤ p ∧ p < 2 ^ 31 := by
  have hstep : ∀ s s', (NelOk s ∧ nel ≤ s) → nelStep fuel s = .inl s' →
      (NelOk s' ∧ nel ≤ s') ∧ 2 ^ 31 - s' < 2 ^ 31 - s := by
    rintro s s' ⟨hs,hle⟩ hst
    rcases nelStep_cases hfuel hs with ⟨_,_,heq⟩ | ⟨hs',heq⟩
    · rw [hst] at heq
      cases heq
    · obtain rfl : s' = s + 2 := Sum.inl.inj (hst.symm.trans heq)
      exact ⟨⟨hs',by omega⟩,by have := hs'.2.2; omega⟩
  have hm : 2 ^ 31 - nel < fuel := by
    have := h.1
    omega
  obtain ⟨r,hr⟩ := run_terminates (fun n => 2 ^ 31 - n) hstep ⟨h,le_rfl⟩ hm
  have hQ : ∃ p, r = some p ∧ p.Prime ∧ 5 ≤ p ∧ nel ≤ p ∧ p < 2 ^ 31 := by
    refine run_rule (Q := fun r => ∃ p, r = some p ∧ p.Prime ∧ 5 ≤ p ∧ nel ≤ p ∧ p < 2 ^ 31)
      (fun s s' hs hst => (hstep s s' hs hst).1) ?_ ⟨h,le_rfl⟩ hr
    rintro s q ⟨hs,hle⟩ hst
    rcases nelStep_cases hfuel hs with ⟨h5,hp,heq⟩ | ⟨_,heq⟩
    · exact ⟨s,Sum.inr.inj (hst.symm.trans heq),hp,h5,hle,hs.2.2⟩
    · rw [hst] at heq
      cases heq
  obtain ⟨p,rfl,hp⟩ := hQ
  exact ⟨p,by rw [firstPrime,hr]; rfl,hp⟩

theorem or_one_ok {nel : ℕ} (h3 : 3 ≤ nel) (h31 : nel < 2 ^ 31) :
    NelOk (nel ||| 1) ∧ nel ≤ nel ||| 1 := by
  have hlt : nel ||| 1 < 2 ^ 31 := Nat.or_lt_two_pow h31 (by norm_num)
  have hle : nel ≤ nel ||| 1 := Nat.left_le_or
  have hodd : (nel ||| 1) % 2 = 1 := by
    rw [Nat.or_mod_two_eq_one]
    omega
  exact ⟨⟨by omega,hodd,hlt⟩,hle⟩

/-- A table of prime size, all entries free. -/
theorem htabCreate_spec {fuel nel : ℕ} (hfuel : 2 ^ 31 ≤ fuel) (h3 : 3 ≤ nel) (h31 : nel < 2 ^ 31) :
    ∃ p, htabCreate fuel true nel htabEmpty =
        some (true,⟨List.replicate (p + 1) ⟨0,none⟩,p,0⟩) ∧
      p.Prime ∧ 5 ≤ p ∧ nel ≤ p ∧ p < 2 ^ 31 := by
  obtain ⟨hok,hle⟩ := or_one_ok h3 h31
  obtain ⟨p,hfp,hp,h5,hnp,hlt⟩ := firstPrime_spec hfuel hok
  refine ⟨p,?_,hp,h5,hle.trans hnp,hlt⟩
  simp [htabCreate,htabEmpty,hfp]

end Create

end SecureWipeOut.Htab
