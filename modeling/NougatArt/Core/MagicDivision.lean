import Mathlib

/-!
# Division by multiplication

A factor whose product with the divisor is a little more than a scale gives the
quotient by the divisor: multiply with the factor, divide by the scale and round
towards zero. The product may exceed the scale by an excess that is small compared to
the largest dividend of interest.
-/

namespace NougatArt.MagicDivision

open Nat Int

/-! ## Long division by doubling -/

theorem two_mul_div_add_mod (dividend divisor : ℕ) :
    2 * dividend = 2 * (dividend % divisor) + divisor * (2 * (dividend / divisor)) := by
  calc 2 * dividend = 2 * (dividend % divisor + divisor * (dividend / divisor)) := by
        rw [mod_add_div]
    _ = 2 * (dividend % divisor) + divisor * (2 * (dividend / divisor)) := by ring

variable {divisor dividend : ℕ}

theorem double_of_le (hdiv : 0 < divisor) (hle : divisor ≤ 2 * (dividend % divisor)) :
    2 * dividend / divisor = 2 * (dividend / divisor) + 1 ∧
      2 * dividend % divisor = 2 * (dividend % divisor) - divisor := by
  have hmod := mod_lt dividend hdiv
  have hsplit : 2 * (dividend % divisor) - divisor + divisor * (2 * (dividend / divisor) + 1) =
      2 * dividend := by
    rw [two_mul_div_add_mod dividend divisor, mul_add, mul_one]
    omega
  exact (Nat.div_mod_unique hdiv).mpr ⟨hsplit, by omega⟩

theorem double_of_lt (hdiv : 0 < divisor)
    (hlt : 2 * (dividend % divisor) < divisor) : 2 * dividend / divisor = 2 * (dividend / divisor) ∧
      2 * dividend % divisor = 2 * (dividend % divisor) :=
  (Nat.div_mod_unique hdiv).mpr ⟨(two_mul_div_add_mod dividend divisor).symm, hlt⟩

/-- A quotient that was rounded down is rounded towards zero. -/
def towardsZero (quotient : ℤ) : ℤ := quotient + if quotient < 0 then 1 else 0

theorem towardsZero_natCast (quotient : ℕ) : towardsZero quotient = quotient := by
  rw [towardsZero, if_neg (by omega), add_zero]

theorem towardsZero_neg_sub_one (quotient : ℕ) :
    towardsZero (-(quotient : ℤ) - 1) = -(quotient : ℤ) := by
  rw [towardsZero, if_pos (by omega), sub_add_cancel]

/-- The product of the factor and the divisor exceeds the scale, by an excess that is harmless up
to the limit. -/
structure Approximates (divisor factor excess scale limit : ℕ) : Prop where
  product : factor * divisor = scale + excess
  excess_pos : 0 < excess
  limit_mul : limit * excess < scale
  dvd : divisor ∣ limit + 1

section Bounds

variable {factor excess scale limit : ℕ}
  (happrox : Approximates divisor factor excess scale limit) (hdiv : 0 < divisor)

include happrox

theorem Approximates.mul_mul (dividend : ℕ) :
    factor * dividend * divisor = dividend * scale + dividend * excess := by
  calc factor * dividend * divisor = dividend * (factor * divisor) := by ring
    _ = dividend * scale + dividend * excess := by rw [happrox.product, mul_add]

section Divisor

include hdiv

omit happrox hdiv in
theorem div_mul_mul_le (dividend scale : ℕ) :
    dividend / divisor * scale * divisor ≤ dividend * scale := by
  rw [mul_right_comm]
  exact mul_le_mul_right _ (div_mul_le_self _ _)

theorem Approximates.lower_le (dividend : ℕ) : dividend / divisor * scale ≤ factor * dividend := by
  refine le_of_mul_le_mul_right ?_ hdiv
  rw [happrox.mul_mul]
  exact (div_mul_mul_le _ _).trans (le_add_right _ _)

omit hdiv in
theorem Approximates.lower_lt (hpos : 0 < dividend) :
    dividend / divisor * scale < factor * dividend := by
  refine Nat.lt_of_mul_lt_mul_right (a := divisor) ?_
  rw [happrox.mul_mul]
  exact (div_mul_mul_le _ _).trans_lt
    (Nat.lt_add_of_pos_right (Nat.mul_pos hpos happrox.excess_pos))

omit happrox in
/-- The distance of a dividend to the next multiple of the divisor. -/
theorem mul_succ_eq (dividend scale : ℕ) : (dividend / divisor + 1) * scale * divisor =
    dividend * scale + (divisor - dividend % divisor) * scale := by
  have hmod := mod_lt dividend hdiv
  have hsplit := mod_add_div dividend divisor
  rw [mul_right_comm, ← add_mul, add_mul, one_mul, mul_comm _ divisor]
  congr 1
  omega

/-- The excess of the product is less than what is left to the next multiple of the divisor. -/
theorem Approximates.upper_lt (hdividend : dividend < limit + divisor) :
    factor * dividend < (dividend / divisor + 1) * scale := by
  have hmod := mod_lt dividend hdiv
  have hexcess : dividend * excess < (divisor - dividend % divisor) * scale := by
    by_cases hle : dividend ≤ limit
    · calc dividend * excess ≤ limit * excess := mul_le_mul_right _ hle
        _ < scale := happrox.limit_mul
        _ ≤ (divisor - dividend % divisor) * scale := Nat.le_mul_of_pos_left _ (by omega)
    · -- Beyond the limit the next multiple is at least two away.
      obtain ⟨multiple, hmultiple⟩ := happrox.dvd
      obtain ⟨rest, hrest⟩ := Nat.exists_eq_add_of_le (Nat.lt_of_not_le hle)
      have hrest' : dividend % divisor = rest := by
        rw [hrest, succ_eq_add_one, hmultiple, mul_add_mod, mod_eq_of_lt (by omega)]
      have htwo : 2 ≤ divisor - dividend % divisor := by omega
      have hlimit : divisor ≤ limit + 1 := le_of_dvd (by omega) happrox.dvd
      calc dividend * excess ≤ 2 * limit * excess := mul_le_mul_right _ (by omega)
        _ = 2 * (limit * excess) := mul_assoc _ _ _
        _ < 2 * scale := by have hmul := happrox.limit_mul; omega
        _ ≤ (divisor - dividend % divisor) * scale := mul_le_mul_right _ htwo
  refine Nat.lt_of_mul_lt_mul_right (a := divisor) ?_
  rw [happrox.mul_mul, mul_succ_eq hdiv]
  exact Nat.add_lt_add_left hexcess _

end Divisor

/-- The scale bounds the products up to the last dividend before a multiple of the divisor. -/
theorem Approximates.upper_le (hdiv : 0 < divisor) (hexcess : dividend * excess ≤ scale) :
    factor * dividend ≤ (dividend / divisor + 1) * scale := by
  have hmod := mod_lt dividend hdiv
  refine le_of_mul_le_mul_right ?_ hdiv
  rw [happrox.mul_mul, mul_succ_eq hdiv]
  exact Nat.add_le_add_left (hexcess.trans (Nat.le_mul_of_pos_left _ (by omega))) _

/-! ## Signed dividends -/

theorem Approximates.scale_pos : 0 < scale := zero_lt_of_lt happrox.limit_mul

theorem Approximates.floor_of_pos (hdiv : 0 < divisor) (hdividend : dividend < limit + divisor) :
    (factor * dividend : ℤ) / scale = (dividend / divisor : ℕ) := by
  have hnat : factor * dividend / scale = dividend / divisor :=
    Nat.div_eq_of_lt_le (happrox.lower_le hdiv dividend) (happrox.upper_lt hdiv hdividend)
  norm_cast

theorem Approximates.floor_of_neg (hpos : 0 < dividend)
    (hupper : factor * dividend ≤ (dividend / divisor + 1) * scale) :
    -(factor * dividend : ℤ) / scale = -(dividend / divisor : ℕ) - 1 := by
  have hscale : (0 : ℤ) < scale := by exact_mod_cast happrox.scale_pos
  have hlower : ((dividend / divisor : ℕ) * scale : ℤ) < factor * dividend := by
    exact_mod_cast happrox.lower_lt hpos
  have hupper' : (factor * dividend : ℤ) ≤ ((dividend / divisor : ℕ) + 1) * scale := by
    exact_mod_cast hupper
  apply le_antisymm
  · refine Int.le_sub_one_of_lt ((Int.ediv_lt_iff_lt_mul hscale).mpr ?_)
    rw [Int.neg_mul]
    exact neg_lt_neg hlower
  · refine (Int.le_ediv_iff_mul_le hscale).mpr ?_
    linarith

section Signed

variable (hdiv : 0 < divisor) {dividend : ℤ}

include hdiv

theorem Approximates.towardsZero_mul (hdividend : dividend.natAbs < limit + divisor ∨
      dividend < 0 ∧ dividend.natAbs * excess ≤ scale) :
    towardsZero (factor * dividend / scale) = dividend.tdiv divisor := by
  obtain ⟨size, rfl | rfl⟩ := Int.eq_nat_or_neg dividend
  · rw [natAbs_natCast] at hdividend
    rw [happrox.floor_of_pos hdiv (hdividend.resolve_right fun hneg => by omega),
      towardsZero_natCast]
    norm_cast
  · rw [natAbs_neg, natAbs_natCast] at hdividend
    rcases Nat.eq_zero_or_pos size with rfl | hpos
    · simp [towardsZero]
    · have hupper : factor * size ≤ (size / divisor + 1) * scale := by
        rcases hdividend with hlt | ⟨-, hexcess⟩
        · exact (happrox.upper_lt hdiv hlt).le
        · exact happrox.upper_le hdiv hexcess
      rw [mul_neg, happrox.floor_of_neg hpos hupper, towardsZero_neg_sub_one, Int.neg_tdiv]
      norm_cast

theorem Approximates.towardsZero_neg_mul (hdividend : dividend.natAbs < limit + divisor) :
    towardsZero (-factor * dividend / scale) = dividend.tdiv (-divisor) := by
  obtain ⟨size, rfl | rfl⟩ := Int.eq_nat_or_neg dividend
  · rcases Nat.eq_zero_or_pos size with rfl | hpos
    · simp [towardsZero]
    · rw [neg_mul, happrox.floor_of_neg hpos (happrox.upper_lt hdiv hdividend).le,
        towardsZero_neg_sub_one, Int.tdiv_neg]
      norm_cast
  · rw [natAbs_neg, natAbs_natCast] at hdividend
    rw [neg_mul_neg, happrox.floor_of_pos hdiv hdividend, towardsZero_natCast,
      Int.neg_tdiv, Int.tdiv_neg, Int.neg_neg]
    norm_cast

end Signed

end Bounds

end NougatArt.MagicDivision
