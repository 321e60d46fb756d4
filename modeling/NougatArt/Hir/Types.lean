import Mathlib

/-!
# Primitive types, conversions and conditions of the HIR

The values of the integral types are integers that lie in the range of their
type. A conversion reduces an integer to the range of the target type in two's
complement, as the Java language prescribes for narrowing. Conditions carry
the two rewritings the loop analyses apply to them; both stop the compiler on
an unsigned condition, which is the result `none` here.
-/

namespace NougatArt

open Option

inductive PrimitiveType
  | not
  | boolean
  | byte
  | char
  | short
  | int
  | long
  | float
  | double
  | void
  deriving DecidableEq, Repr

namespace PrimitiveType

/-- The range of an integral type. Types without integral values are given
the range of an `int`, the computational type of the smaller ones. -/
def minValue : PrimitiveType → ℤ
  | byte => -2 ^ 7
  | short => -2 ^ 15
  | boolean | char => 0
  | long => -2 ^ 63
  | not | int | float | double | void => -2 ^ 31

def maxValue : PrimitiveType → ℤ
  | boolean => 1
  | byte => 2 ^ 7 - 1
  | short => 2 ^ 15 - 1
  | char => 2 ^ 16 - 1
  | long => 2 ^ 63 - 1
  | not | int | float | double | void => 2 ^ 31 - 1

def span (type : PrimitiveType) : ℤ := type.maxValue - type.minValue + 1

/-- The value of the type's range that is congruent to the argument. -/
def convert (type : PrimitiveType) (value : ℤ) : ℤ :=
  (value - type.minValue) % type.span + type.minValue

def Fits (type : PrimitiveType) (value : ℤ) : Prop := type.minValue ≤ value ∧ value ≤ type.maxValue

instance (type : PrimitiveType) (value : ℤ) : Decidable (type.Fits value) :=
  inferInstanceAs (Decidable (_ ∧ _))

variable {v : ℤ}

theorem fits_int_iff : int.Fits v ↔ -2 ^ 31 ≤ v ∧ v ≤ 2 ^ 31 - 1 := Iff.rfl

theorem fits_long_iff : long.Fits v ↔ -2 ^ 63 ≤ v ∧ v ≤ 2 ^ 63 - 1 := Iff.rfl

theorem convert_of_fits {type : PrimitiveType} (hfits : type.Fits v) : type.convert v = v := by
  unfold Fits at hfits
  have hmod : (v - type.minValue) % type.span = v - type.minValue := by
    apply Int.emod_eq_of_lt
    · omega
    · unfold span
      omega
  rw [convert, hmod]
  omega

end PrimitiveType

/-- `std::numeric_limits<int64_t>` arithmetic of the compiler itself. -/
def wrap64 (value : ℤ) : ℤ := PrimitiveType.long.convert value

inductive IfCondition
  | condEQ
  | condNE
  | condLT
  | condLE
  | condGT
  | condGE
  | condB
  | condBE
  | condA
  | condAE
  deriving DecidableEq, Repr

namespace IfCondition

def unsigned (value : ℤ) : ℤ := value % 2 ^ 64

def holds : IfCondition → ℤ → ℤ → Bool
  | condEQ, left, right => left = right
  | condNE, left, right => left ≠ right
  | condLT, left, right => left < right
  | condLE, left, right => left ≤ right
  | condGT, left, right => left > right
  | condGE, left, right => left ≥ right
  | condB, left, right => unsigned left < unsigned right
  | condBE, left, right => unsigned left ≤ unsigned right
  | condA, left, right => unsigned left > unsigned right
  | condAE, left, right => unsigned left ≥ unsigned right

/-- `NegateCondition`; the unsigned conditions are a fatal error. -/
def negateCondition : IfCondition → Option IfCondition
  | condNE => some condEQ
  | condEQ => some condNE
  | condLT => some condGE
  | condGE => some condLT
  | condGT => some condLE
  | condLE => some condGT
  | _ => none

/-- `FlipConditionForOperandSwap`; the unsigned conditions are a fatal error. -/
def flipConditionForOperandSwap : IfCondition → Option IfCondition
  | condEQ => some condEQ
  | condNE => some condNE
  | condLT => some condGT
  | condLE => some condGE
  | condGT => some condLT
  | condGE => some condLE
  | _ => none

variable {condition : IfCondition}

theorem holds_of_negateCondition {negated : IfCondition}
    (hnegated : condition.negateCondition = some negated) (left right : ℤ) :
    negated.holds left right = !condition.holds left right := by
  cases condition <;> simp only [negateCondition, some.injEq,
    reduceCtorEq] at hnegated <;> subst hnegated <;> grind [holds]

theorem holds_of_flipConditionForOperandSwap {flipped : IfCondition}
    (hflipped : condition.flipConditionForOperandSwap = some flipped) (left right : ℤ) :
    flipped.holds right left = condition.holds left right := by
  cases condition <;> simp only [flipConditionForOperandSwap, some.injEq,
    reduceCtorEq] at hflipped <;> subst hflipped <;> simp [holds, eq_comm]

def compareValue (left right : ℤ) : ℤ :=
  if left < right then -1 else if left = right then 0 else 1

/-- A signed condition on an `HCompare` and zero decides like the same condition
on the operands. -/
theorem holds_compareValue_zero (hsigned : condition.negateCondition.isSome) (left right : ℤ) :
    condition.holds (compareValue left right) 0 = condition.holds left right := by
  unfold compareValue
  cases condition <;> simp only [negateCondition, isSome_none,
    Bool.false_eq_true] at hsigned <;> grind [holds]

end IfCondition

end NougatArt
