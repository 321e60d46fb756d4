import NougatArt.Core.MagicDivision

/-!
# The search for magic numbers

This is `CalculateMagicAndShiftForDivRem`: a loop that doubles two long divisions until
the power of two is large enough. The arithmetic is that of unsigned 64 bit integers.
The loop ends, nothing in it overflows, and the quotient that it finds is that of the
first sufficient power.
-/

namespace NougatArt.Codegen

open List Nat

open MagicDivision

def u64 (value : ℤ) : ℕ := (value % 2 ^ 64).toNat

theorem u64_of_lt {v : ℕ} (hvalue : v < 2 ^ 64) : u64 v = v := by
  rw [u64]
  omega

structure Search where
  p : ℕ
  quotient1 : ℕ
  remainder1 : ℕ
  quotient2 : ℕ
  remainder2 : ℕ
  deriving DecidableEq

/-- One half of the body of the loop. -/
def double (divisor quotient remainder : ℕ) : ℕ × ℕ :=
  let quotient := u64 (2 * quotient)
  let remainder := u64 (2 * remainder)
  if divisor ≤ remainder then
    (u64 (quotient + 1), u64 (remainder - divisor))
  else
    (quotient, remainder)

namespace Search

def step (absNc absD : ℕ) (search : Search) : Search :=
  let first := double absNc search.quotient1 search.remainder1
  let second := double absD search.quotient2 search.remainder2
  ⟨search.p + 1, first.1, first.2, second.1, second.2⟩

def delta (absD : ℕ) (search : Search) : ℕ := u64 (absD - search.remainder2)

def continues (absD : ℕ) (search : Search) : Bool := search.quotient1 < search.delta absD ||
    (search.quotient1 = search.delta absD && search.remainder1 = 0)

end Search

def searchLoop (absNc absD : ℕ) : ℕ → Search → Option Search
  | 0, _ => none
  | fuel + 1, search =>
    let search := search.step absNc absD
    if search.continues absD then searchLoop absNc absD fuel search else some search

/-! ## The variables before the loop -/

def startPower (isLong : Bool) : ℕ :=
  if isLong then 63 else 31

def absDivisor (divisor : ℤ) : ℕ := u64 (if 0 ≤ divisor then divisor else -divisor)

def signBit (divisor : ℤ) (isLong : Bool) : ℕ :=
  if isLong then u64 divisor / 2 ^ 63 else (divisor % 2 ^ 32).toNat / 2 ^ 31

def absNumerator (divisor : ℤ) (isLong : Bool) : ℕ :=
  let tmp := u64 (2 ^ startPower isLong + signBit divisor isLong)
  u64 (tmp - 1 - (tmp % absDivisor divisor : ℕ))

def startSearch (divisor : ℤ) (isLong : Bool) : Search :=
  let exp := 2 ^ startPower isLong
  ⟨startPower isLong, exp / absNumerator divisor isLong, exp % absNumerator divisor isLong,
    exp / absDivisor divisor, exp % absDivisor divisor⟩

def calculateMagicAndShiftForDivRem (divisor : ℤ) (isLong : Bool) : Option (ℤ × ℕ) :=
  match searchLoop (absNumerator divisor isLong) (absDivisor divisor) 64
      (startSearch divisor isLong) with
  | none => none
  | some search =>
    let magic : ℤ := Int.bmod (if 0 < divisor then search.quotient2 + 1 else
      -search.quotient2 - 1) (2 ^ 64)
    if isLong then
      some (magic, search.p - 64)
    else
      some (Int.bmod magic (2 ^ 32), search.p - 32)

/-! ## Intermediate values -/

def doubleIntermediates (divisor quotient remainder : ℕ) : List ℤ :=
  [2 * (quotient : ℤ), 2 * (remainder : ℤ)] ++
    if divisor ≤ u64 (2 * remainder) then
      [(u64 (2 * quotient) : ℤ) + 1, (u64 (2 * remainder) : ℤ) - divisor]
    else
      []

def Search.intermediates (absNc absD : ℕ) (search : Search) : List ℤ :=
  doubleIntermediates absNc search.quotient1 search.remainder1 ++
    doubleIntermediates absD search.quotient2 search.remainder2 ++
    [(absD : ℤ) - (search.step absNc absD).remainder2]

inductive Visits (absNc absD : ℕ) (start : Search) : Search → Prop
  | start : Visits absNc absD start start
  | again {search : Search} : Visits absNc absD start search →
      (search.step absNc absD).continues absD = true →
      Visits absNc absD start (search.step absNc absD)

def IsUnsigned (value : ℤ) : Prop := 0 ≤ value ∧ value < 2 ^ 64

/-! ## The loop divides powers of two -/

def exactSearch (absNc absD p : ℕ) : Search :=
  ⟨p, 2 ^ p / absNc, 2 ^ p % absNc, 2 ^ p / absD, 2 ^ p % absD⟩

theorem double_exact {dividend divisor : ℕ} (hpos : 0 < divisor) (hdivisor : divisor ≤ 2 ^ 63)
    (hquot : dividend / divisor < 2 ^ 63) :
    double divisor (dividend / divisor) (dividend % divisor) =
        (2 * dividend / divisor, 2 * dividend % divisor) ∧
      ∀ v ∈ doubleIntermediates divisor (dividend / divisor) (dividend % divisor),
        IsUnsigned v := by
  have hmod := mod_lt dividend hpos
  have hfirst : u64 (2 * (dividend / divisor : ℕ)) = 2 * (dividend / divisor) := by
    exact_mod_cast u64_of_lt (show 2 * (dividend / divisor) < 2 ^ 64 by omega)
  have hsnd : u64 (2 * (dividend % divisor : ℕ)) = 2 * (dividend % divisor) := by
    exact_mod_cast u64_of_lt (show 2 * (dividend % divisor) < 2 ^ 64 by omega)
  simp only [double, doubleIntermediates]
  rw [hfirst, hsnd]
  by_cases hle : divisor ≤ 2 * (dividend % divisor)
  · obtain ⟨hdiv, hrest⟩ := double_of_le hpos hle
    rw [if_pos hle, if_pos hle, hdiv, hrest]
    refine ⟨Prod.ext ?_ ?_, ?_⟩
    · exact_mod_cast u64_of_lt (show 2 * (dividend / divisor) + 1 < 2 ^ 64 by omega)
    · rw [← u64_of_lt (show 2 * (dividend % divisor) - divisor < 2 ^ 64 by omega), cast_sub hle]
    · simp only [cons_append, nil_append, forall_mem_cons, not_mem_nil,
        false_imp_iff, implies_true, and_true, IsUnsigned]
      omega
  · obtain ⟨hdiv, hrest⟩ := double_of_lt hpos (Nat.lt_of_not_le hle)
    rw [if_neg hle, if_neg hle, hdiv, hrest]
    refine ⟨rfl, ?_⟩
    simp only [append_nil, forall_mem_cons, not_mem_nil,
      false_imp_iff, implies_true, and_true, IsUnsigned]
    omega

structure Sizes (absNc absD power : ℕ) : Prop where
  two_le : 2 ≤ absD
  absD_le : absD ≤ 2 ^ power
  absNc_le : absNc ≤ 2 ^ power
  dvd : absD ∣ absNc + 1
  lt_add : 2 ^ power < absNc + 1 + absD

/-- What keeps the values of the loop below `2 ^ 64`. -/
structure Fits (absNc absD : ℕ) : Prop where
  absD_lt : absD < 2 ^ 63
  absNc_le : absNc ≤ 2 ^ 63
  strict : absNc < 2 ^ 63 ∨ ∀ p, ¬ absD ∣ 2 ^ p

variable {search : Search}

section Loop

variable {absNc absD power p : ℕ} (hsizes : Sizes absNc absD power)

include hsizes

theorem Sizes.absD_pos : 0 < absD := lt_of_lt_of_le zero_lt_two hsizes.two_le

theorem Sizes.absNc_pos : 0 < absNc := by
  have hle := le_of_dvd (succ_pos _) hsizes.dvd
  have htwo := hsizes.two_le
  omega

def excess (absD p : ℕ) : ℕ := absD - 2 ^ p % absD

theorem Sizes.excess_pos (p : ℕ) : 0 < excess absD p := by
  have hmod := mod_lt (2 ^ p) hsizes.absD_pos
  rw [excess]
  omega

omit hsizes in
theorem excess_le (absD p : ℕ) : excess absD p ≤ absD := sub_le _ _

theorem continues_exactSearch (hfits : Fits absNc absD) (p : ℕ) :
    (exactSearch absNc absD p).continues absD ↔ 2 ^ p ≤ absNc * excess absD p := by
  have hmod := mod_lt (2 ^ p) hsizes.absNc_pos
  have hsplit := div_add_mod (2 ^ p) absNc
  have hlt := hfits.absD_lt
  have hmodD := mod_lt (2 ^ p) hsizes.absD_pos
  have hdelta : (exactSearch absNc absD p).delta absD = excess absD p := by
    rw [Search.delta, excess, ← u64_of_lt (show absD - 2 ^ p % absD < 2 ^ 64 by omega),
      cast_sub hmodD.le]
    rfl
  rw [Search.continues, hdelta]
  simp only [Bool.or_eq_true, Bool.and_eq_true, decide_eq_true_eq]
  change 2 ^ p / absNc < _ ∨ 2 ^ p / absNc = _ ∧ 2 ^ p % absNc = 0 ↔ _
  generalize excess absD p = delta at *
  generalize 2 ^ p / absNc = quotient at *
  generalize 2 ^ p % absNc = remainder at *
  constructor
  · rintro (hless | ⟨rfl, rfl⟩)
    · calc 2 ^ p = absNc * quotient + remainder := hsplit.symm
        _ ≤ absNc * (quotient + 1) := by rw [mul_add]; omega
        _ ≤ absNc * delta := mul_le_mul_left _ hless
    · omega
  · intro hle
    have hquot : quotient ≤ delta := by
      refine le_of_mul_le_mul_left (?_ : absNc * quotient ≤ absNc * delta) hsizes.absNc_pos
      omega
    rcases lt_or_eq_of_le hquot with hless | heq
    · exact .inl hless
    · refine .inr ⟨heq, ?_⟩
      rw [heq] at hsplit
      omega

def Continued (absNc absD power p : ℕ) : Prop := p = power ∨ 2 ^ p ≤ absNc * excess absD p

section

variable (hfits : Fits absNc absD) (hpower : 31 ≤ power ∧ power ≤ 63)

include hfits hpower

theorem Sizes.quotients_lt (hcontinued : Continued absNc absD power p) :
    2 ^ p / absNc < 2 ^ 63 ∧ 2 ^ p / absD < 2 ^ 63 := by
  have hD := hfits.absD_lt
  have hNc := hfits.absNc_le
  rw [div_lt_iff_lt_mul hsizes.absNc_pos, div_lt_iff_lt_mul hsizes.absD_pos]
  rcases hcontinued with rfl | hle
  · -- Both divisors are at least two, the numerator even about half of the power.
    have hpow : 2 ^ p ≤ 2 ^ 63 := Nat.pow_le_pow_right Nat.zero_lt_two hpower.2
    have hpow' : 2 ^ 31 ≤ 2 ^ p := Nat.pow_le_pow_right Nat.zero_lt_two hpower.1
    have htwo := hsizes.two_le
    have hadd := hsizes.lt_add
    have hle := le_of_dvd (succ_pos _) hsizes.dvd
    constructor
    · calc 2 ^ p < 2 ^ 63 * 2 := by omega
        _ ≤ 2 ^ 63 * absNc := mul_le_mul_left _ (by omega)
    · calc 2 ^ p < 2 ^ 63 * 2 := by omega
        _ ≤ 2 ^ 63 * absD := mul_le_mul_left _ htwo
  · have hexcess := excess_le absD p
    constructor
    · calc 2 ^ p ≤ absNc * excess absD p := hle
        _ ≤ absNc * absD := mul_le_mul_left _ hexcess
        _ < 2 ^ 63 * absNc := by
            rw [mul_comm]
            exact mul_lt_mul_of_pos_right hD hsizes.absNc_pos
    · rcases hfits.strict with hless | hdvd
      · calc 2 ^ p ≤ absNc * excess absD p := hle
          _ ≤ absNc * absD := mul_le_mul_left _ hexcess
          _ < 2 ^ 63 * absD := mul_lt_mul_of_pos_right hless hsizes.absD_pos
      · have hne : 2 ^ p % absD ≠ 0 := fun hzero => hdvd p (dvd_of_mod_eq_zero hzero)
        have hless : excess absD p < absD := by
          have hpos := hsizes.absD_pos
          rw [excess]
          omega
        calc 2 ^ p ≤ absNc * excess absD p := hle
          _ < absNc * absD := mul_lt_mul_of_pos_left hless hsizes.absNc_pos
          _ ≤ 2 ^ 63 * absD := mul_le_mul_right _ hNc

theorem Sizes.step_exactSearch (hcontinued : Continued absNc absD power p) :
    (exactSearch absNc absD p).step absNc absD = exactSearch absNc absD (p + 1) ∧
      ∀ v ∈ (exactSearch absNc absD p).intermediates absNc absD, IsUnsigned v := by
  obtain ⟨hfirst, hsnd⟩ := hsizes.quotients_lt hfits hpower hcontinued
  obtain ⟨hdouble, hvalues⟩ := double_exact hsizes.absNc_pos hfits.absNc_le hfirst
  obtain ⟨hdouble', hvalues'⟩ := double_exact hsizes.absD_pos hfits.absD_lt.le hsnd
  have hstep : (exactSearch absNc absD p).step absNc absD = exactSearch absNc absD (p + 1) := by
    simp only [Search.step, exactSearch]
    rw [hdouble, hdouble', pow_succ']
  refine ⟨hstep, ?_⟩
  rw [Search.intermediates, hstep]
  intro v hvalue
  rcases mem_append.mp hvalue with hrest | hlast
  · rcases mem_append.mp hrest with hmem | hmem
    · exact hvalues _ hmem
    · exact hvalues' _ hmem
  · rw [mem_singleton.mp hlast]
    have hlt := hfits.absD_lt
    have hmod := mod_lt (2 ^ (p + 1)) hsizes.absD_pos
    change 0 ≤ (absD : ℤ) - (2 ^ (p + 1) % absD : ℕ) ∧
      (absD : ℤ) - (2 ^ (p + 1) % absD : ℕ) < 2 ^ 64
    omega

/-- The states of the loop, and that nothing overflows in it. -/
theorem Sizes.visits_exactSearch
    (hvisits : Visits absNc absD (exactSearch absNc absD power) search) :
    ∃ p, search = exactSearch absNc absD p ∧ Continued absNc absD power p := by
  induction hvisits with
  | start => exact ⟨power, rfl, .inl rfl⟩
  | again _ hcontinues ih =>
    obtain ⟨p, rfl, hcontinued⟩ := ih
    have hstep := (hsizes.step_exactSearch hfits hpower hcontinued).1
    rw [hstep] at hcontinues ⊢
    exact ⟨p + 1, rfl, .inr ((continues_exactSearch hsizes hfits (p + 1)).mp hcontinues)⟩

end

theorem Sizes.lt_of_le_power (hp : 2 * power + 1 ≤ p) : absNc * excess absD p < 2 ^ p := by
  calc absNc * excess absD p ≤ 2 ^ power * 2 ^ power :=
        Nat.mul_le_mul hsizes.absNc_le ((excess_le absD p).trans hsizes.absD_le)
    _ = 2 ^ (power + power) := (pow_add 2 power power).symm
    _ < 2 ^ p := Nat.pow_lt_pow_right Nat.one_lt_two (by omega)

/-- The loop ends with the first sufficient power. -/
theorem Sizes.exists_searchLoop (hfits : Fits absNc absD) (hpower : 31 ≤ power ∧ power ≤ 63)
    (fuel : ℕ) : ∀ p, power ≤ p → 2 * power + 1 ≤ p + fuel → 0 < fuel →
      Continued absNc absD power p → ∃ last, searchLoop absNc absD fuel (exactSearch absNc absD p) =
          some (exactSearch absNc absD (last + 1)) ∧
        power ≤ last ∧ last ≤ 2 * power ∧ Continued absNc absD power last ∧
        absNc * excess absD (last + 1) < 2 ^ (last + 1) := by
  induction fuel with
  | zero => intro p _ _ hfuel; omega
  | succ fuel ih =>
    intro p hp hfuel _ hcontinued
    rw [searchLoop, (hsizes.step_exactSearch hfits hpower hcontinued).1]
    split
    next hcontinues =>
      have hle := (continues_exactSearch hsizes hfits (p + 1)).mp hcontinues
      have hnot : ¬ 2 * power + 1 ≤ p + 1 := fun hlarge =>
        absurd (hsizes.lt_of_le_power hlarge) (Nat.not_lt_of_le hle)
      exact ih (p + 1) (by omega) (by omega) (by omega) (.inr hle)
    next hends =>
      rw [continues_exactSearch hsizes hfits, not_le] at hends
      refine ⟨p, rfl, hp, ?_, hcontinued, hends⟩
      by_contra hlarge
      rcases hcontinued with rfl | hle
      · omega
      · exact absurd (hsizes.lt_of_le_power (by omega)) (Nat.not_lt_of_le hle)

end Loop

/-! ## The search for a divisor -/

/-- A divisor of the type that is not zero, one or minus one. -/
structure IsDivisor (divisor : ℤ) (isLong : Bool) : Prop where
  two_le : 2 ≤ divisor.natAbs
  lower : -2 ^ startPower isLong ≤ divisor
  upper : divisor < 2 ^ startPower isLong

section Divisor

variable {divisor : ℤ} {isLong : Bool} (hdivisor : IsDivisor divisor isLong)

theorem startPower_cases (isLong : Bool) : startPower isLong = 31 ∨ startPower isLong = 63 := by
  cases isLong
  · exact .inl rfl
  · exact .inr rfl

theorem startPower_bounds (isLong : Bool) : 31 ≤ startPower isLong ∧ startPower isLong ≤ 63 := by
  rcases startPower_cases isLong with hpower | hpower <;> omega

theorem pow_startPower_le (isLong : Bool) : 2 ^ startPower isLong ≤ 2 ^ 63 :=
  Nat.pow_le_pow_right Nat.zero_lt_two (startPower_bounds isLong).2

include hdivisor

theorem IsDivisor.natAbs_le : divisor.natAbs ≤ 2 ^ startPower isLong := by
  have hlower := hdivisor.lower
  have hupper := hdivisor.upper
  zify
  exact abs_le.mpr ⟨hlower, hupper.le⟩

theorem IsDivisor.absDivisor_eq : absDivisor divisor = divisor.natAbs := by
  have hle := hdivisor.natAbs_le
  have hpow := pow_startPower_le isLong
  have hcast : (if 0 ≤ divisor then divisor else -divisor) = divisor.natAbs := by
    split <;> omega
  rw [absDivisor, hcast, u64_of_lt (by omega)]

theorem IsDivisor.signBit_eq : signBit divisor isLong = if divisor < 0 then 1 else 0 := by
  have hlower := hdivisor.lower
  have hupper := hdivisor.upper
  cases isLong with
  | false =>
    change -2 ^ 31 ≤ divisor at hlower
    change divisor < 2 ^ 31 at hupper
    change (divisor % 2 ^ 32).toNat / 2 ^ 31 = _
    split <;> omega
  | true =>
    change -2 ^ 63 ≤ divisor at hlower
    change divisor < 2 ^ 63 at hupper
    change (divisor % 2 ^ 64).toNat / 2 ^ 63 = _
    split <;> omega

/-- The numerator is the largest one that is next to a multiple of the divisor. -/
theorem IsDivisor.absNumerator_spec : divisor.natAbs ∣ absNumerator divisor isLong + 1 ∧
      absNumerator divisor isLong ≤ 2 ^ startPower isLong ∧
      2 ^ startPower isLong + (if divisor < 0 then 1 else 0) <
        absNumerator divisor isLong + 1 + divisor.natAbs ∧
      (0 ≤ divisor → absNumerator divisor isLong < 2 ^ startPower isLong) := by
  have htwo := hdivisor.two_le
  have hle := hdivisor.natAbs_le
  have hpow := pow_startPower_le isLong
  have hsign : (if divisor < 0 then 1 else 0) ≤ 1 ∧
      (0 ≤ divisor → (if divisor < 0 then 1 else 0) = 0) := by
    split <;> omega
  simp only [absNumerator]
  rw [hdivisor.absDivisor_eq, hdivisor.signBit_eq]
  generalize (if divisor < 0 then 1 else 0) = sign at hsign
  generalize divisor.natAbs = size at htwo hle
  have htmp : u64 (2 ^ startPower isLong + (sign : ℕ)) = 2 ^ startPower isLong + sign := by
    exact_mod_cast u64_of_lt (show 2 ^ startPower isLong + sign < 2 ^ 64 by omega)
  rw [htmp]
  generalize 2 ^ startPower isLong = exp at hle hpow
  have hmod := mod_lt (exp + sign) (show 0 < size by omega)
  have hsplit := mod_add_div (exp + sign) size
  have hquot : size ≤ size * ((exp + sign) / size) :=
    Nat.le_mul_of_pos_right _ (Nat.div_pos (by omega) (by omega))
  have hnum : u64 (((exp + sign : ℕ) : ℤ) - 1 - ((exp + sign) % size : ℕ)) =
      exp + sign - 1 - (exp + sign) % size := by
    rw [← u64_of_lt (show exp + sign - 1 - (exp + sign) % size < 2 ^ 64 by omega)]
    congr 1
    omega
  refine ⟨⟨(exp + sign) / size, by omega⟩, by omega, by omega, by omega⟩

theorem IsDivisor.sizes :
    Sizes (absNumerator divisor isLong) (absDivisor divisor) (startPower isLong) := by
  obtain ⟨hdvd, hle, hlt, -⟩ := hdivisor.absNumerator_spec
  rw [hdivisor.absDivisor_eq]
  exact ⟨hdivisor.two_le, hdivisor.natAbs_le, hle, hdvd, lt_of_le_of_lt (le_add_right _ _) hlt⟩

section

variable (hpower : isLong = true → ∀ p, divisor.natAbs ≠ 2 ^ p)

include hpower

/-- Integers of 32 bits are small enough, of those of 64 bits the powers of two are not. -/
theorem IsDivisor.fits : Fits (absNumerator divisor isLong) (absDivisor divisor) := by
  have hsizes := hdivisor.sizes
  rw [hdivisor.absDivisor_eq] at hsizes ⊢
  cases isLong with
  | false =>
    have hD : divisor.natAbs ≤ 2 ^ 31 := hsizes.absD_le
    have hNc : absNumerator divisor false ≤ 2 ^ 31 := hsizes.absNc_le
    exact ⟨by omega, by omega, .inl (by omega)⟩
  | true =>
    have hD := hsizes.absD_le
    have hNc := hsizes.absNc_le
    refine ⟨lt_of_le_of_ne hD (hpower rfl 63), hNc, .inr fun p hdvd => ?_⟩
    obtain ⟨q, -, heq⟩ := (dvd_prime_pow prime_two).mp hdvd
    exact hpower rfl q heq

theorem IsDivisor.exists_search :
    ∃ last, searchLoop (absNumerator divisor isLong) (absDivisor divisor) 64
        (startSearch divisor isLong) =
          some (exactSearch (absNumerator divisor isLong) (absDivisor divisor) (last + 1)) ∧
      startPower isLong ≤ last ∧ last ≤ 2 * startPower isLong ∧
      Continued (absNumerator divisor isLong) (absDivisor divisor) (startPower isLong) last ∧
      absNumerator divisor isLong * excess (absDivisor divisor) (last + 1) < 2 ^ (last + 1) := by
  have hbounds := startPower_bounds isLong
  exact hdivisor.sizes.exists_searchLoop (hdivisor.fits hpower) hbounds 64 (startPower isLong)
    le_rfl (by omega) (by omega) (.inl rfl)

theorem IsDivisor.isUnsigned (hvisits : Visits (absNumerator divisor isLong) (absDivisor divisor)
      (startSearch divisor isLong) search) :
    ∀ v ∈ search.intermediates (absNumerator divisor isLong) (absDivisor divisor),
      IsUnsigned v := by
  have hbounds := startPower_bounds isLong
  obtain ⟨p, rfl, hcontinued⟩ :=
    hdivisor.sizes.visits_exactSearch (hdivisor.fits hpower) hbounds hvisits
  exact (hdivisor.sizes.step_exactSearch (hdivisor.fits hpower) hbounds hcontinued).2

end

end Divisor

/-! ## Magic numbers of 32 bits -/

section Magic

variable {last : ℕ}
variable {divisor : ℤ} (hdivisor : IsDivisor divisor false)

include hdivisor

/-- The factor of the first sufficient power has 32 bits. -/
theorem IsDivisor.quotient_lt (hlast : 31 ≤ last)
    (hcontinued : Continued (absNumerator divisor false) divisor.natAbs 31 last) :
    2 ^ (last + 1) / divisor.natAbs + 1 < 2 ^ 32 := by
  obtain ⟨hdvd, hNc, -, -⟩ := hdivisor.absNumerator_spec
  change absNumerator divisor false ≤ 2 ^ 31 at hNc
  have hD : divisor.natAbs ≤ 2 ^ 31 := hdivisor.natAbs_le
  have htwo := hdivisor.two_le
  have hpos : 0 < divisor.natAbs := by omega
  generalize absNumerator divisor false = limit at *
  generalize divisor.natAbs = size at *
  suffices hlt : 2 ^ (last + 1) < (2 ^ 32 - 1) * size by
    have hdiv := (div_lt_iff_lt_mul hpos).mpr hlt
    omega
  rw [pow_succ']
  rcases hcontinued with rfl | hle
  · omega
  have hexcess := excess_le size last
  rcases lt_or_eq_of_le hNc with hlt | rfl
  · calc 2 * 2 ^ last ≤ 2 * (limit * size) :=
          mul_le_mul_left _ (hle.trans (mul_le_mul_left _ hexcess))
      _ = 2 * limit * size := (mul_assoc _ _ _).symm
      _ < (2 ^ 32 - 1) * size := mul_lt_mul_of_pos_right (by omega) hpos
  · -- The divisor is odd, and no power of two is a multiple of it.
    have hstrict : excess size last ≤ size - 1 := by
      have hne : 2 ^ last % size ≠ 0 := by
        intro hzero
        obtain ⟨q, -, rfl⟩ := (dvd_prime_pow prime_two).mp (dvd_of_mod_eq_zero hzero)
        have hdvdTwo : 2 ∣ 2 ^ q := dvd_pow_self 2 (by rintro rfl; omega)
        have hodd := hdvdTwo.trans hdvd
        omega
      rw [excess]
      omega
    calc 2 * 2 ^ last ≤ 2 * (2 ^ 31 * (size - 1)) :=
          mul_le_mul_left _ (hle.trans (mul_le_mul_left _ hstrict))
      _ < (2 ^ 32 - 1) * size := by omega

/-- The smallest dividend of a positive divisor is not beyond what the excess allows. -/
theorem IsDivisor.dividend_cases (hlast : 31 ≤ last) {dividend : ℤ}
    (hlower : -2 ^ 31 ≤ dividend) (hupper : dividend < 2 ^ 31) :
    dividend.natAbs < absNumerator divisor false + divisor.natAbs ∨ dividend < 0 ∧ 0 < divisor ∧
        dividend.natAbs * excess divisor.natAbs (last + 1) ≤ 2 ^ (last + 1) := by
  obtain ⟨hdvd, -, hlt, -⟩ := hdivisor.absNumerator_spec
  change 2 ^ 31 + (if divisor < 0 then 1 else 0) < _ at hlt
  have htwo := hdivisor.two_le
  by_cases hsmall : dividend.natAbs < absNumerator divisor false + divisor.natAbs
  · exact .inl hsmall
  right
  have hpositive : 0 < divisor := by
    by_contra hnot
    rw [if_pos (by omega)] at hlt
    omega
  refine ⟨by omega, hpositive, ?_⟩
  have hdividend : dividend.natAbs = 2 ^ 31 := by omega
  have hsum : 2 ^ 31 + 1 = absNumerator divisor false + 1 + divisor.natAbs := by omega
  -- The divisor divides `2 ^ 31 + 1`, so that the excess is at most the rest of the power.
  have hdvdSum : divisor.natAbs ∣ 2 ^ 31 + 1 := hsum ▸ dvd_add hdvd (dvd_refl _)
  obtain ⟨rest, rfl⟩ := Nat.exists_eq_add_of_le hlast
  have hpow : 2 ^ (31 + rest + 1) = 2 ^ 31 * 2 ^ (rest + 1) := by
    rw [add_assoc, pow_add]
  have hexcess : excess divisor.natAbs (31 + rest + 1) ≤ 2 ^ (rest + 1) := by
    have hdvdPow : divisor.natAbs ∣ 2 ^ (31 + rest + 1) + 2 ^ (rest + 1) := by
      have hfactor : 2 ^ (31 + rest + 1) + 2 ^ (rest + 1) = (2 ^ 31 + 1) * 2 ^ (rest + 1) := by
        ring
      rw [hfactor]
      exact Nat.dvd_mul_right_of_dvd hdvdSum _
    have hdvdRest : divisor.natAbs ∣ 2 ^ (31 + rest + 1) % divisor.natAbs + 2 ^ (rest + 1) := by
      rw [dvd_iff_mod_eq_zero] at hdvdPow ⊢
      rwa [mod_add_mod]
    have hle := Nat.le_of_dvd (Nat.add_pos_right _ (Nat.two_pow_pos _)) hdvdRest
    rw [excess]
    omega
  rw [hdividend, hpow]
  exact mul_le_mul_left _ hexcess

theorem IsDivisor.exists_magic : ∃ factor shift : ℕ, calculateMagicAndShiftForDivRem divisor false =
        some (Int.bmod (if 0 < divisor then factor else -factor) (2 ^ 32), shift) ∧
      shift < 32 ∧ factor < 2 ^ 32 ∧ ∀ dividend : ℤ, -2 ^ 31 ≤ dividend → dividend < 2 ^ 31 →
        towardsZero ((if 0 < divisor then (factor : ℤ) else -factor) * dividend /
          2 ^ (32 + shift)) = dividend.tdiv divisor := by
  obtain ⟨last, hsearch, hlast, hupper, hcontinued, hends⟩ := hdivisor.exists_search nofun
  change 31 ≤ last at hlast
  change last ≤ 2 * 31 at hupper
  rw [hdivisor.absDivisor_eq] at hsearch hcontinued hends
  have hpos : 0 < divisor.natAbs := lt_of_lt_of_le zero_lt_two hdivisor.two_le
  refine ⟨2 ^ (last + 1) / divisor.natAbs + 1, last + 1 - 32, ?_, by omega,
    hdivisor.quotient_lt hlast hcontinued, ?_⟩
  · rw [calculateMagicAndShiftForDivRem, hdivisor.absDivisor_eq, hsearch]
    dsimp only
    rw [if_neg Bool.false_ne_true, Int.bmod_bmod_of_dvd (by norm_num)]
    have hquot : (exactSearch (absNumerator divisor false) divisor.natAbs (last + 1)).quotient2 =
        2 ^ (last + 1) / divisor.natAbs := rfl
    rw [hquot]
    congr 3
    split
    · norm_cast
    · push_cast
      ring
  · have happrox : Approximates divisor.natAbs (2 ^ (last + 1) / divisor.natAbs + 1)
        (excess divisor.natAbs (last + 1)) (2 ^ (last + 1)) (absNumerator divisor false) := by
      refine ⟨?_, hdivisor.absDivisor_eq ▸ hdivisor.sizes.excess_pos _, hends,
        hdivisor.absNumerator_spec.1⟩
      have hmod := mod_lt (2 ^ (last + 1)) hpos
      have hsplit := div_add_mod' (2 ^ (last + 1)) divisor.natAbs
      rw [add_mul, one_mul, excess]
      omega
    intro dividend hlower hupper
    have hcases := hdivisor.dividend_cases hlast hlower hupper
    have hscale : (2 : ℤ) ^ (32 + (last + 1 - 32)) = (2 ^ (last + 1) : ℕ) := by
      rw [show 32 + (last + 1 - 32) = last + 1 by omega]
      norm_cast
    rw [hscale]
    split
    next hpositive =>
      have hdivisorEq : divisor = divisor.natAbs := by omega
      rw [happrox.towardsZero_mul hpos
        (hcases.imp_right fun hcase => ⟨hcase.1, hcase.2.2⟩), ← hdivisorEq]
    next hnegative =>
      have hdivisorEq : divisor = -divisor.natAbs := by
        have htwo := hdivisor.two_le
        omega
      rw [happrox.towardsZero_neg_mul hpos
        (hcases.resolve_right fun hcase => hnegative hcase.2.1), ← hdivisorEq]

end Magic

end NougatArt.Codegen
