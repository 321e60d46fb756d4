import Mathlib

/-!
# Constant calculation sinking

An accumulator of a loop, `acc = acc op c`, is replaced after the loop by one operation
with a constant. This is `EvaluateIntegerOperation` for `int` and `long` accumulators,
with what `DoConstantCalculation` and `DoConstantSinking` do for one of them.
-/

namespace NougatArt.ConstantSinking

open BitVec (eq_of_toInt_eq intMin ofInt_mul ofInt_toInt toInt_sdiv_of_ne_or_ne toInt_srem)

inductive InstructionKind
  | add
  | sub
  | mul
  | div
  | rem
  deriving DecidableEq

/-- `finalizedCalculation`: the constant is the result. -/
structure AccumulatorAssociation (width : ℕ) where
  constInstruction : BitVec width
  finalizedCalculation : Bool
  deriving DecidableEq

variable {width : ℕ}

def InstructionKind.compute (kind : InstructionKind) (left right : BitVec width) : BitVec width :=
  match kind with
  | .add => left + right
  | .sub => left - right
  | .mul => left * right
  | .div => left.sdiv right
  | .rem => left.srem right

/-- How often the largest number can be divided. As many steps as it has bits are enough. -/
def countDivisions (absOperand : ℕ) : ℕ → ℕ → ℕ
  | 0, _ => 0
  | fuel + 1, maxRepresentable =>
    if absOperand ≤ maxRepresentable then
      countDivisions absOperand fuel (maxRepresentable / absOperand) + 1
    else
      0

def multiplied (operand : BitVec width) (count : ℕ) : BitVec width := (· * operand)^[count] 1

section

variable (iterations : ℤ) (operand : BitVec width)

def allowedIterations : ℤ :=
  let absOperand := operand.toInt.natAbs
  let allowed := countDivisions absOperand width (2 ^ (width - 1) - 1)
  if operand = intMin width then 1
  else if absOperand = 0 ∨ absOperand = 1 then (BitVec.ofInt 32 iterations).toInt
  -- One more iteration may reach the smallest number.
  else if operand.toInt < 0 ∧ allowed % 2 = 0 ∧
      multiplied operand allowed * operand = intMin width then allowed + 1
  else allowed

/-- The power of the operand, or what it is after `max` iterations. -/
def evaluatedValue (max : ℕ) : BitVec width :=
  if operand = 0 then 0
  else if operand = 1 then 1
  else if operand = -1 then if iterations % 2 = 0 then 1 else -1
  else multiplied operand max

def evaluatePower (kind : InstructionKind) : Option (AccumulatorAssociation width) :=
  -- `kMaximumEvaluationIterations` is 65.
  let max := min 65 iterations
  let overflowed : Bool := allowedIterations iterations operand < max
  let value := evaluatedValue iterations operand max.toNat
  if max ≤ 0 then none
  else if overflowed ∧ kind = .div then some ⟨0, true⟩
  else if value = 0 ∨ ¬ overflowed then some ⟨value, decide (value = 0 ∧ kind = .mul)⟩
  else none

/-- The product of the iterations and the operand is truncated to the width. -/
def evaluateIntegerOperation (kind : InstructionKind) : Option (AccumulatorAssociation width) :=
  match kind with
  | .add | .sub => some ⟨BitVec.ofInt width (iterations * operand.toInt), false⟩
  | .rem => if operand ≠ 0 then some ⟨operand, false⟩ else evaluatePower iterations operand .rem
  | kind => evaluatePower iterations operand kind

/-- `DoConstantCalculation` for one accumulator. -/
def doConstantCalculation (kind : InstructionKind) : Option (AccumulatorAssociation width) :=
  if (kind = .rem ∨ kind = .div) ∧ operand = 0 then none
  else evaluateIntegerOperation iterations operand kind

/-- `DoConstantSinking`: what replaces an accumulator that starts with the initial value. -/
def doConstantSinking (kind : InstructionKind) (initial : BitVec width) : Option (BitVec width) :=
  (doConstantCalculation iterations operand kind).map fun accumAssoc =>
    if accumAssoc.finalizedCalculation then accumAssoc.constInstruction
    else kind.compute initial accumAssoc.constInstruction

end

def InstructionKind.iterate (kind : InstructionKind) (operand : BitVec width) (n : ℕ)
    (initial : BitVec width) : BitVec width :=
  (kind.compute · operand)^[n] initial

variable {operand : BitVec width} {n : ℕ}

theorem multiplied_eq (operand : BitVec width) (count : ℕ) :
    multiplied operand count = operand ^ count := by
  rw [multiplied, mul_right_iterate]
  exact one_mul _

theorem pow_eq_ofInt (operand : BitVec width) (n : ℕ) :
    operand ^ n = BitVec.ofInt width (operand.toInt ^ n) := by
  induction n with
  | zero => simp
  | succ n ih => rw [pow_succ, ih, pow_succ, ofInt_mul, ofInt_toInt]

theorem countDivisions_eq {absOperand : ℕ} (hone : 1 < absOperand) (fuel bound : ℕ)
    (hfuel : bound < 2 ^ fuel) :
    countDivisions absOperand fuel bound = Nat.log absOperand bound := by
  induction fuel generalizing bound with
  | zero =>
    obtain rfl : bound = 0 := by simpa using hfuel
    simp [countDivisions]
  | succ fuel ih =>
    rw [countDivisions]
    split
    next hle =>
      have hlt : bound / absOperand < 2 ^ fuel := by
        refine Nat.div_lt_of_lt_mul (hfuel.trans_le ?_)
        rw [pow_succ']
        exact Nat.mul_le_mul_right _ hone
      rw [ih _ hlt, Nat.log_of_one_lt_of_le hone hle]
    next hlt => rw [Nat.log_of_lt (Nat.lt_of_not_le hlt)]

/-! ## Powers of the operand -/

/-- The powers of these operands are known without any iteration. -/
def IsSmall (operand : BitVec width) : Prop := operand = 0 ∨ operand = 1 ∨ operand = -1

/-- The first power of a negative operand that is not representable has the bits of the
smallest number. -/
def ReachesMin (operand : BitVec width) (n : ℕ) : Prop :=
  operand.toInt < 0 ∧ n % 2 = 1 ∧ operand.toInt.natAbs ^ (n - 1) < 2 ^ (width - 1) ∧
    2 ^ (width - 1) ≤ operand.toInt.natAbs ^ n ∧ operand ^ n = intMin width

theorem reachesMin_iff {log : ℕ}
    (hless : ∀ n, operand.toInt.natAbs ^ n < 2 ^ (width - 1) ↔ n ≤ log) (n : ℕ) :
    ReachesMin operand n ↔ n = log + 1 ∧ operand.toInt < 0 ∧ log % 2 = 0 ∧
      operand ^ (log + 1) = intMin width := by
  have hover : 2 ^ (width - 1) ≤ operand.toInt.natAbs ^ n ↔ log < n := by
    rw [← not_lt, hless, not_le]
  rw [ReachesMin, hless, hover]
  constructor
  · rintro ⟨hneg, hodd, hle, hlt, hpow⟩
    obtain rfl : n = log + 1 := by omega
    exact ⟨rfl, hneg, by omega, hpow⟩
  · rintro ⟨rfl, hneg, heven, hpow⟩
    exact ⟨hneg, by omega, by omega, by omega, hpow⟩

theorem one_lt_natAbs (hlarge : ¬ IsSmall operand) : 1 < operand.toInt.natAbs := by
  by_contra hle
  have hint : operand.toInt = 0 ∨ operand.toInt = 1 ∨ operand.toInt = -1 := by omega
  apply hlarge
  rw [← ofInt_toInt (x := operand)]
  rcases hint with heq | heq | heq
  · exact .inl (by rw [heq]; rfl)
  · exact .inr (.inl (by rw [heq]; rfl))
  · exact .inr (.inr (by rw [heq, BitVec.ofInt_neg]; rfl))

theorem evaluatedValue_of_isSmall (hpos : 0 < n) (hsmall : IsSmall operand) (max : ℕ) :
    evaluatedValue n operand max = operand ^ n := by
  rw [evaluatedValue]
  split_ifs with hzero hone hneg heven
  · rw [hzero, zero_pow hpos.ne']
  · rw [hone, one_pow]
  · rw [hneg, (Nat.even_iff.mpr (by omega)).neg_one_pow]
  · rw [hneg, (Nat.odd_iff.mpr (by omega)).neg_one_pow]
  · exact (hsmall.elim hzero fun h => h.elim hone hneg).elim

theorem evaluatedValue_of_not_isSmall (hlarge : ¬ IsSmall operand) (max : ℕ) :
    evaluatedValue n operand max = operand ^ max := by
  rw [evaluatedValue, if_neg fun h => hlarge (.inl h), if_neg fun h => hlarge (.inr (.inl h)),
    if_neg fun h => hlarge (.inr (.inr h)), multiplied_eq]

section

variable (hwidth : 1 < width)

include hwidth

theorem natAbs_intMin : (intMin width).toInt.natAbs = 2 ^ (width - 1) := by
  rw [BitVec.toInt_intMin_of_pos (by omega), Int.natAbs_neg, Int.natAbs_pow]
  rfl

/-- So many iterations are allowed as have a representable power, and the next one if it
reaches the smallest number. -/
theorem allowedIterations_spec (iterations : ℤ) (hlarge : 1 < operand.toInt.natAbs) :
    allowedIterations iterations operand ≤ width ∧
      ∀ n : ℕ, n ≤ allowedIterations iterations operand ↔
        operand.toInt.natAbs ^ n < 2 ^ (width - 1) ∨ ReachesMin operand n := by
  have hone : 1 < 2 ^ (width - 1) := Nat.one_lt_two_pow (by omega)
  by_cases hmin : operand = intMin width
  · have hless : ∀ n, operand.toInt.natAbs ^ n < 2 ^ (width - 1) ↔ n ≤ 0 := fun n => by
      rw [hmin, natAbs_intMin hwidth]
      cases n with
      | zero => simpa using hone
      | succ n => simpa using Nat.le_self_pow n.succ_ne_zero _
    have hneg : operand.toInt < 0 := by
      rw [hmin, BitVec.toInt_intMin_of_pos (by omega)]
      exact neg_neg_of_pos (by positivity)
    rw [allowedIterations, if_pos hmin]
    simp only [hless, reachesMin_iff hless, zero_add, pow_one]
    exact ⟨by omega, fun n => by rw [and_iff_left ⟨hneg, trivial, hmin⟩]; omega⟩
  have hcount : countDivisions operand.toInt.natAbs width (2 ^ (width - 1) - 1) =
      Nat.log operand.toInt.natAbs (2 ^ (width - 1) - 1) :=
    countDivisions_eq hlarge _ _ ((Nat.sub_le _ _).trans_lt
      (Nat.pow_lt_pow_right Nat.one_lt_two (by omega)))
  have hfits := Nat.pow_log_le_self operand.toInt.natAbs (Nat.sub_ne_zero_of_lt hone)
  have hover := Nat.lt_pow_succ_log_self hlarge (2 ^ (width - 1) - 1)
  rw [allowedIterations, if_neg hmin, if_neg (by omega), hcount]
  generalize Nat.log operand.toInt.natAbs (2 ^ (width - 1) - 1) = log at hfits hover ⊢
  have hlog : log < width - 1 := by
    refine (Nat.pow_lt_pow_iff_right Nat.one_lt_two).mp ?_
    exact (Nat.pow_le_pow_left hlarge log).trans_lt (by omega)
  have hless : ∀ n, operand.toInt.natAbs ^ n < 2 ^ (width - 1) ↔ n ≤ log := fun n => by
    refine ⟨fun hlt => ?_, fun hle => (Nat.pow_le_pow_right (by omega) hle).trans_lt (by omega)⟩
    exact Nat.lt_succ_iff.mp ((Nat.pow_lt_pow_iff_right hlarge).mp (by omega))
  rw [multiplied_eq, ← pow_succ]
  simp only [hless, reachesMin_iff hless]
  split
  next hreached => exact ⟨by omega, fun n => by rw [and_iff_left hreached]; omega⟩
  next hreached => exact ⟨by omega, fun n => by rw [or_iff_left fun h => hreached h.2]; omega⟩

/-- An accepted power is the one of all iterations, unless a division overflows. -/
theorem evaluatePower_cases (hle : width ≤ 64) {kind : InstructionKind}
    {accumAssoc : AccumulatorAssociation width}
    (haccepted : evaluatePower n operand kind = some accumAssoc) : 0 < n ∧
      (kind = .div ∧ accumAssoc = ⟨0, true⟩ ∧ allowedIterations n operand < (min 65 n : ℤ) ∨
        accumAssoc = ⟨operand ^ n, decide (operand ^ n = 0 ∧ kind = .mul)⟩ ∧
          (kind = .div → (min 65 n : ℤ) ≤ allowedIterations n operand)) := by
  simp only [evaluatePower] at haccepted
  split at haccepted
  · cases haccepted
  next hpos =>
    have hpos : 0 < n := by omega
    split at haccepted
    next hdiv =>
      cases haccepted
      exact ⟨hpos, .inl ⟨hdiv.2, rfl, of_decide_eq_true hdiv.1⟩⟩
    next hdiv =>
      split at haccepted
      next hvalue =>
        cases haccepted
        have hpower : evaluatedValue n operand (min 65 n : ℤ).toNat = operand ^ n := by
          by_cases hsmall : IsSmall operand
          · exact evaluatedValue_of_isSmall hpos hsmall _
          rw [evaluatedValue_of_not_isSmall hsmall] at hvalue ⊢
          have hallowed := (allowedIterations_spec hwidth n (one_lt_natAbs hsmall)).1
          rcases hvalue with hzero | hfits
          · rw [hzero, pow_eq_zero_of_le (by omega) hzero]
          · have hmax : (min 65 n : ℤ).toNat = n := by
              simp at hfits
              omega
            rw [hmax]
        refine ⟨hpos, .inr ⟨by rw [hpower], fun hkind => ?_⟩⟩
        by_contra hlt
        exact hdiv ⟨decide_eq_true (lt_of_not_ge hlt), hkind⟩
      · cases haccepted

/-- Addition, subtraction and multiplication. -/
theorem doConstantSinking_eq (hle : width ≤ 64) (kind : InstructionKind)
    (hkind : kind = .add ∨ kind = .sub ∨ kind = .mul) (n : ℕ) (operand initial value : BitVec width)
    (hsunk : doConstantSinking n operand kind initial = some value) :
    value = kind.iterate operand n initial := by
  have hproduct : BitVec.ofInt width (n * operand.toInt) = n • operand := by
    rw [ofInt_mul, ofInt_toInt, nsmul_eq_mul]
    rfl
  rcases hkind with rfl | rfl | rfl
  · cases hsunk
    exact (congrArg (initial + ·) hproduct).trans
      (congrFun (add_right_iterate operand n) initial).symm
  · cases hsunk
    have hiterate := congrFun (add_right_iterate (-operand) n) initial
    simp only [← sub_eq_add_neg, smul_neg] at hiterate
    exact (congrArg (initial - ·) hproduct).trans hiterate.symm
  · obtain ⟨accumAssoc, haccepted, rfl⟩ := Option.map_eq_some_iff.mp hsunk
    obtain ⟨-, ⟨hkind, -⟩ | ⟨rfl, -⟩⟩ := evaluatePower_cases hwidth hle haccepted
    · cases hkind
    have hiterate : InstructionKind.mul.iterate operand n initial = initial * operand ^ n := by
      exact congrFun (mul_right_iterate operand n) initial
    rw [hiterate]
    split
    next hfinal => rw [(of_decide_eq_true hfinal).1, mul_zero]
    next => rfl

end

theorem multiplied_thrice : (875 : BitVec 32) = InstructionKind.mul.iterate 5 3 7 :=
  doConstantSinking_eq (by decide) (by decide) .mul (.inr (.inr rfl)) 3 5 7 875 (by decide)

theorem iterate_rem (operand initial : BitVec width) (hpos : 0 < n) :
    InstructionKind.rem.iterate operand n initial = initial.srem operand := by
  induction n, hpos using Nat.le_induction with
  | base => rfl
  | succ n _ ih =>
    rw [InstructionKind.iterate, Function.iterate_succ_apply', ← InstructionKind.iterate, ih]
    apply eq_of_toInt_eq
    rw [InstructionKind.compute, toInt_srem, toInt_srem, Int.tmod_tmod]

/-- The remainder is taken once, so it must be the initial value if there is no iteration. -/
theorem doConstantSinking_rem_iff (operand initial : BitVec width) (n : ℕ) (hne : operand ≠ 0) :
    doConstantSinking n operand .rem initial =
        some (InstructionKind.rem.iterate operand n initial) ↔
      0 < n ∨ initial.srem operand = initial := by
  have hsunk : doConstantSinking n operand .rem initial = some (initial.srem operand) := by
    rw [doConstantSinking, doConstantCalculation, if_neg fun h => hne h.2,
      evaluateIntegerOperation, if_pos hne]
    rfl
  rw [hsunk, Option.some.injEq]
  obtain rfl | hpos := n.eq_zero_or_pos
  · simp [InstructionKind.iterate]
  · simp [iterate_rem, hpos]

theorem reduced_twice : doConstantSinking 2 5 .rem 7 =
    some (InstructionKind.rem.iterate 5 2 (7 : BitVec 32)) :=
  (doConstantSinking_rem_iff 5 7 2 (by decide)).mpr (.inl (by decide))

/-- The remainder is also taken when the block is never executed. -/
theorem reduced_never : doConstantSinking 0 5 .rem 7 = some (2 : BitVec 32) ∧
    InstructionKind.rem.iterate 5 0 7 = (7 : BitVec 32) := by
  decide

/-! ## Division -/

theorem tdiv_tdiv (a b c : ℤ) : (a.tdiv b).tdiv c = a.tdiv (b * c) := by
  obtain ⟨a, rfl | rfl⟩ := a.eq_nat_or_neg <;> obtain ⟨b, rfl | rfl⟩ := b.eq_nat_or_neg <;>
    obtain ⟨c, rfl | rfl⟩ := c.eq_nat_or_neg <;>
    simp only [Int.neg_tdiv, Int.tdiv_neg, neg_mul, mul_neg, ← Int.ofNat_tdiv,
      ← Nat.cast_mul, Nat.div_div_eq_div_mul]

theorem tdiv_eq_zero_iff {a b : ℤ} (hne : b ≠ 0) : a.tdiv b = 0 ↔ a.natAbs < b.natAbs := by
  rw [← Int.natAbs_eq_zero, Int.natAbs_tdiv]
  exact Nat.div_eq_zero_iff_lt (Int.natAbs_pos.mpr hne)

variable {initial : BitVec width}

theorem toInt_iterate_div (hne : operand ≠ -1) (n : ℕ) :
    (InstructionKind.div.iterate operand n initial).toInt =
      initial.toInt.tdiv (operand.toInt ^ n) := by
  induction n with
  | zero => simp [InstructionKind.iterate]
  | succ n ih =>
    rw [InstructionKind.iterate, Function.iterate_succ_apply', ← InstructionKind.iterate,
      InstructionKind.compute, toInt_sdiv_of_ne_or_ne _ _ (.inr hne), ih, tdiv_tdiv, pow_succ]

theorem iterate_div_eq_zero_iff (hlarge : 1 < operand.toInt.natAbs) (hne : operand ≠ -1) :
    InstructionKind.div.iterate operand n initial = 0 ↔
      initial.toInt.natAbs < operand.toInt.natAbs ^ n := by
  have hzero : BitVec.toInt (0 : BitVec width) = 0 := BitVec.toInt_zero
  rw [← BitVec.toInt_inj, toInt_iterate_div hne, hzero, tdiv_eq_zero_iff (pow_ne_zero _ (by omega)),
    Int.natAbs_pow]

section

variable (hwidth : 1 < width)

include hwidth

theorem toInt_pow (hlt : operand.toInt.natAbs ^ n < 2 ^ (width - 1)) :
    (operand ^ n).toInt = operand.toInt ^ n := by
  rw [← Int.natAbs_pow] at hlt
  zify at hlt
  obtain ⟨hlow, hhigh⟩ := abs_lt.mp hlt
  rw [pow_eq_ofInt, BitVec.toInt_ofInt_eq_self (by omega) hlow.le hhigh]

theorem natAbs_of_unit (hunit : operand = 1 ∨ operand = -1) : operand.toInt.natAbs = 1 := by
  have hpos : (1 : ℤ) < 2 ^ (width - 1) := one_lt_pow₀ one_lt_two (by omega)
  have hsame : ∀ v : ℤ, v.natAbs = 1 → (BitVec.ofInt width v).toInt.natAbs = 1 := by
    intro v hvalue
    rw [BitVec.toInt_ofInt_eq_self (by omega) (by omega) (by omega), hvalue]
  rcases hunit with rfl | rfl
  · exact hsame 1 rfl
  · have hneg := hsame (-1) rfl
    rwa [BitVec.ofInt_neg] at hneg

theorem ne_intMin_of_unit (hunit : operand = 1 ∨ operand = -1) : operand ≠ intMin width := by
  intro heq
  have habs := natAbs_of_unit hwidth hunit
  rw [heq, natAbs_intMin hwidth] at habs
  exact absurd habs (Nat.one_lt_two_pow (by omega)).ne'

theorem sdiv_eq_mul (hunit : operand = 1 ∨ operand = -1) :
    initial.sdiv operand = initial * operand := by
  have hone : initial.sdiv 1 = initial := BitVec.sdiv_one
  rcases hunit with rfl | rfl
  · rw [hone, mul_one]
  · rw [BitVec.sdiv_neg (ne_intMin_of_unit hwidth (.inl rfl)), hone, mul_neg_one]

theorem natAbs_lt (hmin : initial ≠ intMin width) :
    initial.toInt.natAbs < 2 ^ (width - 1) := by
  have hne : initial.toInt ≠ -2 ^ (width - 1) := by
    intro heq
    apply hmin
    apply eq_of_toInt_eq
    rw [heq, BitVec.toInt_intMin_of_pos (by omega)]
  zify
  exact abs_lt.mpr ⟨lt_of_le_of_ne initial.le_toInt hne.symm, BitVec.toInt_lt⟩

theorem iterate_div_of_unit (hunit : operand = 1 ∨ operand = -1) (n : ℕ) :
    InstructionKind.div.iterate operand n initial = initial * operand ^ n := by
  rw [InstructionKind.iterate, ← congrFun (mul_right_iterate operand n) initial]
  exact congrFun (congrArg (·^[n]) (funext fun _ => sdiv_eq_mul hwidth hunit)) initial

end

/-- The smallest number is divided by the power that an allowed iteration has reached, or by none:
the power must be a half of the range then exactly if it was reached. The number of divisions by 1
and -1 is kept in 32 bits. -/
def DivisionIsExact (operand initial : BitVec width) (n : ℕ) : Prop :=
  if operand = 1 ∨ operand = -1 then (min 65 n : ℤ) ≤ (BitVec.ofInt 32 n).toInt ∨ initial = 0
  else initial = intMin width →
    (ReachesMin operand n ↔ operand.toInt.natAbs ^ n = 2 ^ (width - 1))

section

variable (hwidth : 1 < width)

include hwidth

theorem divisionIsExact_of_unit (hunit : operand = 1 ∨ operand = -1)
    {accumAssoc : AccumulatorAssociation width}
    (hcases : accumAssoc = ⟨0, true⟩ ∧ allowedIterations n operand < (min 65 n : ℤ) ∨
      accumAssoc = ⟨operand ^ n, false⟩ ∧ (min 65 n : ℤ) ≤ allowedIterations n operand) :
    (if accumAssoc.finalizedCalculation then accumAssoc.constInstruction
      else initial.sdiv accumAssoc.constInstruction) =
        InstructionKind.div.iterate operand n initial ↔ DivisionIsExact operand initial n := by
  have hpow : operand ^ n = 1 ∨ operand ^ n = -1 := by
    rcases hunit with rfl | rfl
    · exact .inl (one_pow n)
    · exact neg_one_pow_eq_or _ n
  have hallowed : allowedIterations n operand = (BitVec.ofInt 32 n).toInt := by
    rw [allowedIterations, if_neg (ne_intMin_of_unit hwidth hunit),
      if_pos (.inr (natAbs_of_unit hwidth hunit))]
  rw [iterate_div_of_unit hwidth hunit, DivisionIsExact, if_pos hunit, ← hallowed]
  rcases hcases with ⟨rfl, hlt⟩ | ⟨rfl, hle⟩
  · have hzero : initial * operand ^ n = 0 ↔ initial = 0 := by
      rcases hpow with heq | heq <;> simp [heq]
    rw [if_pos rfl, eq_comm, hzero, or_iff_right hlt.not_ge]
  · exact iff_of_true (sdiv_eq_mul hwidth hpow) (.inl hle)

theorem natAbs_intMin_lt_iff (hle : 2 ^ (width - 1) ≤ operand.toInt.natAbs ^ n) :
    initial.toInt.natAbs < operand.toInt.natAbs ^ n ↔
      (initial = intMin width → operand.toInt.natAbs ^ n ≠ 2 ^ (width - 1)) := by
  by_cases hmin : initial = intMin width
  · rw [hmin, natAbs_intMin hwidth]
    exact ⟨fun hlt _ => hlt.ne', fun hne => lt_of_le_of_ne hle (hne rfl).symm⟩
  · exact iff_of_true ((natAbs_lt hwidth hmin).trans_le hle) fun heq => absurd heq hmin

/-- The power is the smallest number, by which only the smallest number is divided to one. -/
theorem sdiv_intMin_eq_iff (hlarge : 1 < operand.toInt.natAbs) (hne : operand ≠ -1)
    (hreaches : ReachesMin operand n) :
    initial.sdiv (intMin width) = InstructionKind.div.iterate operand n initial ↔
      (initial = intMin width → operand.toInt.natAbs ^ n = 2 ^ (width - 1)) := by
  obtain ⟨hneg, hodd, -, hle, -⟩ := hreaches
  by_cases hmin : initial = intMin width
  · have hpow : operand.toInt ^ n = -(operand.toInt.natAbs ^ n : ℕ) := by
      rw [Nat.cast_pow, Int.ofNat_natAbs_of_nonpos hneg.le, (Nat.odd_iff.mpr hodd).neg_pow, neg_neg]
    have hone : BitVec.toInt (1 : BitVec width) = 1 := BitVec.toInt_one hwidth
    have hself : (intMin width).sdiv (intMin width) = 1 := by
      rw [BitVec.sdiv_self, if_neg (by simp [BitVec.intMin_eq_zero_iff]; omega)]
      rfl
    have hhalf : (2 : ℤ) ^ (width - 1) = ((2 ^ (width - 1) : ℕ) : ℤ) := by push_cast; rfl
    rw [← BitVec.toInt_inj, toInt_iterate_div hne, hmin, hself, hone, hpow,
      BitVec.toInt_intMin_of_pos (by omega), Int.neg_tdiv, Int.tdiv_neg, neg_neg, hhalf,
      ← Int.ofNat_tdiv, ← Nat.cast_one, Nat.cast_inj, eq_comm, imp_iff_right rfl]
    refine ⟨fun heq => hle.antisymm' (Nat.le_of_not_lt fun hlt => ?_), fun heq => ?_⟩
    · rw [Nat.div_eq_of_lt hlt] at heq
      omega
    · rw [heq, Nat.div_self (by positivity)]
  · have hzero : initial.sdiv (intMin width) = 0 := by
      apply eq_of_toInt_eq
      rw [toInt_sdiv_of_ne_or_ne _ _ (.inl hmin)]
      refine ((tdiv_eq_zero_iff ?_).mpr ?_).trans BitVec.toInt_zero.symm
      · rw [← Int.natAbs_ne_zero, natAbs_intMin hwidth]
        positivity
      · rw [natAbs_intMin hwidth]
        exact natAbs_lt hwidth hmin
    rw [hzero, eq_comm, iterate_div_eq_zero_iff hlarge hne, natAbs_intMin_lt_iff hwidth hle]
    exact iff_of_true (fun h => absurd h hmin) fun h => absurd h hmin

end

/-- A division is replaced rightly exactly under the condition. -/
theorem doConstantSinking_div_iff (hwidth : 1 < width) (hle : width ≤ 64) (n : ℕ)
    (operand initial value : BitVec width)
    (hsunk : doConstantSinking n operand .div initial = some value) :
    value = InstructionKind.div.iterate operand n initial ↔ DivisionIsExact operand initial n := by
  obtain ⟨accumAssoc, haccepted, rfl⟩ := Option.map_eq_some_iff.mp hsunk
  rw [doConstantCalculation] at haccepted
  split at haccepted
  · cases haccepted
  next hzero =>
    obtain ⟨hpos, hcases⟩ := evaluatePower_cases hwidth hle haccepted
    by_cases hunit : operand = 1 ∨ operand = -1
    · refine divisionIsExact_of_unit hwidth hunit (hcases.imp (·.2) fun h => ⟨?_, h.2 rfl⟩)
      rw [h.1]
      simp
    have hlarge := one_lt_natAbs fun h : IsSmall operand =>
      h.elim (fun heq => hzero ⟨.inr rfl, heq⟩) hunit
    have hneg : operand ≠ -1 := fun h => hunit (.inr h)
    obtain ⟨hbound, hallowed⟩ := allowedIterations_spec hwidth n hlarge
    rw [DivisionIsExact, if_neg hunit]
    rcases hcases with ⟨-, rfl, hlt⟩ | ⟨rfl, hle⟩
    · have hover := mt (hallowed n).mpr (by omega)
      rw [not_or, not_lt] at hover
      rw [if_pos rfl, eq_comm, iterate_div_eq_zero_iff hlarge hneg,
        natAbs_intMin_lt_iff hwidth hover.1]
      exact forall_congr' fun _ => (iff_false_left hover.2).symm
    · rw [if_neg (by simp)]
      rcases (hallowed n).mp (by have := hle rfl; omega) with hrep | hreaches
      · have hpow := toInt_pow hwidth hrep
        have hne : operand ^ n ≠ -1 := by
          intro heq
          have habs := natAbs_of_unit hwidth (.inr heq)
          rw [hpow, Int.natAbs_pow] at habs
          exact (Nat.one_lt_pow hpos.ne' hlarge).ne' habs
        refine iff_of_true (eq_of_toInt_eq ?_) fun _ => iff_of_false ?_ hrep.ne
        · rw [InstructionKind.compute, toInt_sdiv_of_ne_or_ne _ _ (.inr hne),
            toInt_iterate_div hneg, hpow]
        · exact fun hreaches => hrep.not_ge hreaches.2.2.2.1
      · rw [hreaches.2.2.2.2, iff_true_left hreaches]
        exact sdiv_intMin_eq_iff hwidth hlarge hneg hreaches

theorem divided_twice :
    BitVec.ofInt 32 (-238609294) = InstructionKind.div.iterate 3 2 (intMin 32) :=
  (doConstantSinking_div_iff (by decide) (by decide) 2 3 (intMin 32) _ (by decide)).mpr (by
    rw [DivisionIsExact, if_neg (by decide), ReachesMin]
    decide)

/-- The smallest number divided by its negation, which is not representable. -/
theorem divided_smallest : doConstantSinking 31 2 .div (intMin 32) = some 0 ∧
    InstructionKind.div.iterate 2 31 (intMin 32) = -1 := by
  decide +kernel

end NougatArt.ConstantSinking
