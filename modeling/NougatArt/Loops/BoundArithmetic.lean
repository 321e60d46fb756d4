import NougatArt.Loops.BoundInformation

/-!
# The arithmetic of the bound information

The number of increments that `ComputeBoundInformation` stores is the number of values
of the induction variable that satisfy the condition, as long as the distance of the
borders is representable.
-/

namespace NougatArt.LoopBound.HLoopInformation

open PrimitiveType Int IfCondition Nat

variable {increment : ℤ}

theorem ceil_spec {distance : ℤ} (hincrement : 0 < increment) (hpos : 0 < distance) :
    let n := if distance.tmod increment ≠ 0 then distance.tdiv increment + 1
      else distance.tdiv increment
    (n - 1) * increment < distance ∧ distance ≤ n * increment := by
  rw [tdiv_eq_ediv_of_nonneg hpos.le, tmod_eq_emod_of_nonneg hpos.le]
  have hdivision := mul_ediv_add_emod distance increment
  have hmod := emod_nonneg distance hincrement.ne'
  have hmodLt := emod_lt_of_pos distance hincrement
  split
  next hne => constructor <;> nlinarith [lt_of_le_of_ne hmod hne.symm]
  next heq => constructor <;> nlinarith [not_not.mp heq]

variable {startValue endValue : ℤ}

/-- The division of the distance by the increment has a result. -/
def Divides (increment startValue endValue : ℤ) : Prop :=
  ¬ (endValue - startValue = -2 ^ 63 ∧ increment = -1)

instance : Decidable (Divides increment startValue endValue) := instDecidableNot

theorem incrementCount_of_fits (hfits : long.Fits (endValue - startValue)) :
    incrementCount increment startValue endValue =
      if Divides increment startValue endValue then
        some (if (endValue - startValue).tmod increment ≠ 0 then
          (endValue - startValue).tdiv increment + 1 else (endValue - startValue).tdiv increment)
      else none := by
  simp only [incrementCount, Divides, wrap64, convert_of_fits hfits, ite_not, apply_ite some]

/-- The number of increments is the least one that reaches the end value. -/
theorem exists_incrementCount (hincrement : 0 < increment)
    (hlt : startValue < endValue) (hdistance : endValue - startValue < 2 ^ 63) :
    ∃ n, incrementCount increment startValue endValue = some n ∧
      startValue + (n - 1) * increment < endValue ∧ endValue ≤ startValue + n * increment := by
  have hfits : long.Fits (endValue - startValue) := by
    rw [fits_long_iff]
    omega
  obtain ⟨hless, hreaches⟩ := ceil_spec hincrement (sub_pos.mpr hlt)
  rw [incrementCount_of_fits hfits, if_pos (by rw [Divides]; omega)]
  exact ⟨_, rfl, by linarith, by linarith⟩

theorem exists_incrementCount_of_neg (hincrement : increment < 0) (hlt : endValue < startValue)
    (hfits : long.Fits (endValue - startValue)) (hdivides : Divides increment startValue endValue) :
    ∃ n, incrementCount increment startValue endValue = some n ∧
      endValue < startValue + (n - 1) * increment ∧ startValue + n * increment ≤ endValue := by
  obtain ⟨hless, hreaches⟩ := ceil_spec (neg_pos.mpr hincrement) (sub_pos.mpr hlt)
  simp only [← neg_sub endValue, Int.neg_tdiv_neg, Int.neg_tmod, Int.tmod_neg, ne_eq, neg_eq_zero]
    at hless hreaches
  rw [incrementCount_of_fits hfits, if_pos hdivides]
  exact ⟨_, rfl, by linarith, by linarith⟩

/-! ## The values of the induction variable -/

def ivType (isWide : Bool) : PrimitiveType :=
  if isWide then .long else .int

def ivSequence (isWide : Bool) (start increment : ℤ) (k : ℕ) : ℤ :=
  (fun value => (ivType isWide).convert (value + increment))^[k] start

/-- The number is that of the leading values which satisfy the condition, none of them wraps, and
the compiler's own arithmetic does not overflow. -/
structure ExactCount (isWide : Bool) (comparison : IfCondition) (start bound increment endValue : ℤ)
    (n : ℕ) : Prop where
  satisfied : ∀ k < n, comparison.holds (ivSequence isWide start increment k) bound = true
  failed : comparison.holds (ivSequence isWide start increment n) bound = false
  noWrap : ∀ k ≤ n, ivSequence isWide start increment k = start + k * increment
  countUp : 0 < increment → long.Fits (maxValue isWide - increment) ∧
    long.Fits (maxValue isWide - increment + 1)
  countDown : increment < 0 → long.Fits (minValue isWide - increment) ∧
    long.Fits (minValue isWide - increment - 1)
  distance : long.Fits (endValue - start)

variable {isWide : Bool} {comparison normalized : IfCondition} {start bound : ℤ}

theorem fits_ivType {v : ℤ} :
    (ivType isWide).Fits v ↔ minValue isWide ≤ v ∧ v ≤ maxValue isWide := by
  cases isWide <;> rfl

theorem ranges (isWide : Bool) : minValue isWide = -2 ^ 31 ∧ maxValue isWide = 2 ^ 31 - 1 ∨
    minValue isWide = -2 ^ 63 ∧ maxValue isWide = 2 ^ 63 - 1 := by
  cases isWide
  · exact .inl ⟨rfl, rfl⟩
  · exact .inr ⟨rfl, rfl⟩

section

variable (hbound : (ivType isWide).Fits bound)
  (hnormal : normalizeBound isWide comparison bound = some (normalized, endValue))

include hbound hnormal

/-- The normalized condition decides like the original one. -/
theorem holds_normalized (v : ℤ) : comparison.holds v bound = normalized.holds v endValue := by
  have hranges := ranges isWide
  rw [fits_ivType] at hbound
  have hwrap : ∀ off : ℤ, long.Fits (bound + off) → wrap64 (bound + off) = bound + off :=
    fun _ => convert_of_fits
  cases comparison <;> simp only [normalizeBound, Option.some.injEq, Prod.mk.injEq,
    Option.ite_none_left_eq_some] at hnormal
  case condLE =>
    obtain ⟨hne, rfl, rfl⟩ := hnormal
    rw [hwrap, holds, holds, decide_eq_decide]
    · omega
    · rw [fits_long_iff]
      omega
  case condGE =>
    obtain ⟨hne, rfl, rfl⟩ := hnormal
    rw [sub_eq_add_neg, hwrap, holds, holds, decide_eq_decide]
    · omega
    · rw [fits_long_iff]
      omega
  all_goals
    obtain ⟨rfl, rfl⟩ := hnormal
    rfl

theorem exactCount_of_terms {n : ℕ} (hstart : (ivType isWide).Fits start)
    (hincrement : (ivType isWide).Fits increment) (hdistance : long.Fits (endValue - start))
    (hend : (ivType isWide).Fits (start + n * increment))
    (hterm : ∀ k < n, normalized.holds (start + k * increment) endValue)
    (hlast : normalized.holds (start + n * increment) endValue = false) :
    ExactCount isWide comparison start bound increment endValue n := by
  have hranges := ranges isWide
  rw [fits_ivType] at hstart hincrement hend
  -- The values are between the first and the last one.
  have hfits : ∀ k ≤ n, (ivType isWide).Fits (start + k * increment) := by
    intro k hk
    have hle : (k : ℤ) ≤ n := cast_le.mpr hk
    rw [fits_ivType]
    constructor <;> cases le_total 0 increment <;> nlinarith
  have hnoWrap : ∀ k ≤ n, ivSequence isWide start increment k = start + k * increment := by
    intro k hk
    induction k with
    | zero => simp [ivSequence]
    | succ k ih =>
      have hnext : start + k * increment + increment = start + (k + 1 : ℕ) * increment := by
        push_cast
        ring
      rw [ivSequence, Function.iterate_succ_apply', ← ivSequence, ih (le_of_succ_le hk), hnext,
        convert_of_fits (hfits _ hk)]
  refine ⟨fun k hk => ?_, ?_, hnoWrap, fun hpos => ?_, fun hneg => ?_, hdistance⟩
  · rw [hnoWrap k hk.le, holds_normalized hbound hnormal, hterm k hk]
  · rw [hnoWrap n le_rfl, holds_normalized hbound hnormal, hlast]
  all_goals
    rw [fits_long_iff, fits_long_iff]
    omega

/-- Accepted borders whose distance is an `int64_t` give the exact count, if the division has a
result. -/
theorem exists_exactCount (hstart : (ivType isWide).Fits start)
    (hincrement : (ivType isWide).Fits increment)
    (haccepted : bordersAccepted isWide increment normalized start endValue = true)
    (hdistance : long.Fits (endValue - start)) (hdivides : Divides increment start endValue) :
    ∃ n : ℕ, incrementCount increment start endValue = some (n : ℤ) ∧
      ExactCount isWide comparison start bound increment endValue n := by
  have hfirst := fits_ivType.mp hstart
  rw [bordersAccepted] at haccepted
  split at haccepted
  next hpos =>
    obtain ⟨rfl, hlt, hend⟩ := of_decide_eq_true haccepted
    obtain ⟨count, hcount, hless, hreaches⟩ := exists_incrementCount hpos (lt_of_not_ge hlt)
      (lt_of_le_sub_one hdistance.2)
    obtain ⟨n, rfl⟩ := eq_ofNat_of_zero_le (a := count) (by by_contra hneg; nlinarith)
    refine ⟨n, hcount, exactCount_of_terms hbound hnormal hstart hincrement hdistance
      (fits_ivType.mpr ⟨by linarith, by linarith⟩) (fun k hk => decide_eq_true ?_)
      (decide_eq_false (not_lt.mpr hreaches))⟩
    have hnext : (k + 1 : ℤ) * increment ≤ n * increment :=
      mul_le_mul_of_nonneg_right (by exact_mod_cast hk) hpos.le
    linarith
  next hpos =>
    split at haccepted
    next hneg =>
      obtain ⟨rfl, hlt, hend⟩ := of_decide_eq_true haccepted
      obtain ⟨count, hcount, hless, hreaches⟩ :=
        exists_incrementCount_of_neg hneg (lt_of_not_ge hlt) hdistance hdivides
      obtain ⟨n, rfl⟩ := eq_ofNat_of_zero_le (a := count) (by by_contra hneg; nlinarith)
      refine ⟨n, hcount, exactCount_of_terms hbound hnormal hstart hincrement hdistance
        (fits_ivType.mpr ⟨by linarith, by linarith⟩) (fun k hk => decide_eq_true ?_)
        (decide_eq_false (not_lt.mpr hreaches))⟩
      have hnext : n * increment ≤ (k + 1 : ℤ) * increment :=
        mul_le_mul_of_nonpos_right (by exact_mod_cast hk) hneg.le
      linarith
    · cases haccepted

/-- The exact count is stored just when the distance is an `int64_t` and its division has a
result. -/
theorem exactCount_iff (hstart : (ivType isWide).Fits start)
    (hincrement : (ivType isWide).Fits increment)
    (haccepted : bordersAccepted isWide increment normalized start endValue = true) :
    (∃ n : ℕ, incrementCount increment start endValue = some (n : ℤ) ∧
        ExactCount isWide comparison start bound increment endValue n) ↔
      long.Fits (endValue - start) ∧ Divides increment start endValue := by
  constructor
  · rintro ⟨n, hcount, hexact⟩
    refine ⟨hexact.distance, ?_⟩
    by_contra hnot
    rw [incrementCount_of_fits hexact.distance, if_neg hnot] at hcount
    cases hcount
  · rintro ⟨hdistance, hdivides⟩
    exact exists_exactCount hbound hnormal hstart hincrement haccepted hdistance hdivides

end

/-- A loop that counts down in steps of three, with an inclusive bound. -/
theorem countDown_exact : ∃ n : ℕ, incrementCount (-3) 10 1 = some (n : ℤ) ∧
    ExactCount false .condGE 10 2 (-3) 1 n :=
  (exactCount_iff (by decide) rfl (by decide) (by decide) (by decide)).mpr ⟨by decide, by decide⟩

/-- The distance of the borders of a `long` loop overflows, and no iteration is counted. -/
theorem countUp_overflows : bordersAccepted true 2 .condLT (-2 ^ 63) (2 ^ 63 - 3) = true ∧
    incrementCount 2 (-2 ^ 63) (2 ^ 63 - 3) = some 0 ∧
    IfCondition.condLT.holds (ivSequence true (-2 ^ 63) 2 0) (2 ^ 63 - 3) = true := by
  decide

-- A `long` loop that counts down from zero to the smallest value makes the compiler trap.
example : bordersAccepted true (-1) .condGT 0 (-2 ^ 63) = true ∧
    incrementCount (-1) 0 (-2 ^ 63) = none := by
  decide

end NougatArt.LoopBound.HLoopInformation
