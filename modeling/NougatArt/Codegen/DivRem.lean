import NougatArt.Codegen.MagicSearch
import NougatArt.Codegen.X86

/-!
# Divisions by constants on x86

The code that `GenerateDivRemIntegral` emits for a constant divisor of 32 bits: a shift
for the quotient by a power of two, the high half of a product with a magic number for
all others. The code leaves the quotient or the remainder of the language in its
output register, for all dividends.
-/

namespace NougatArt.Codegen

open Function Nat Int Machine

open MagicDivision

/-! ## The code generator -/

def absOrMin (value : BitVec 32) : BitVec 32 :=
  if value = BitVec.intMin 32 then value else if value.slt 0 then -value else value

def isPowerOfTwo (value : BitVec 32) : Bool := value &&& (value - 1) = 0

def ctz (value : BitVec 32) : ℕ := ((List.range 32).find? value.getLsbD).getD 32

def output (isDiv : Bool) : Register :=
  if isDiv then .eax else .edx

def divRemOneOrMinusOne (isDiv : Bool) (imm : BitVec 32) : List Instruction :=
  if isDiv then
    .movl (output isDiv) .eax :: if imm = -1 then [.negl (output isDiv)] else []
  else
    [.xorl (output isDiv) (output isDiv)]

def divByPowerOfTwo (imm : BitVec 32) : List Instruction :=
  let absImm := absOrMin imm
  [.leal .edx .eax (absImm - 1), .testl .eax .eax, .cmovlGreaterEqual .edx .eax,
    .sarl .edx (ctz imm)] ++
    (if imm.slt 0 then [.negl .edx] else []) ++ [.movl .eax .edx]

/-- The numerator is added if the magic number does not fit into 32 bits. -/
def correction (imm : BitVec 32) (magic : ℤ) (num : Register) : List Instruction :=
  if (0 : BitVec 32).slt imm && magic < 0 then
    [.addl .edx num]
  else if imm.slt 0 && 0 < magic then
    [.subl .edx num]
  else
    []

def multiplyHigh (imm : BitVec 32) (magic : ℤ) (shift : ℕ) (num : Register) : List Instruction :=
  -- The numerator is saved.
  [.movl num .eax, .movlImmediate .eax (BitVec.ofInt 32 magic), .imull num] ++
    correction imm magic num ++ if shift ≠ 0 then [.sarl .edx shift] else []

def anyConstantCode (isDiv : Bool) (imm : BitVec 32) (num : Register) (magic : ℤ) (shift : ℕ) :
    List Instruction :=
  multiplyHigh imm magic shift num ++
    -- One is added to a negative quotient.
    [.movl .eax .edx, .shrl .edx 31, .addl .edx .eax] ++
    if isDiv then
      [.movl .eax .edx]
    else
      [.movl .eax num, .imullImmediate .edx imm, .subl .eax .edx, .movl .edx .eax]

def generateDivRemWithAnyConstant (isDiv : Bool) (imm : BitVec 32) (num : Register) :
    Option (List Instruction) :=
  (calculateMagicAndShiftForDivRem imm.toInt false).map fun magic =>
    anyConstantCode isDiv imm num magic.1 magic.2

/-- `GenerateDivRemIntegral` for a constant divisor. The dividend is in `EAX`, and `num` is the
register that was requested in addition to `EAX` and `EDX`. -/
def generateDivRemIntegral (isDiv : Bool) (imm : BitVec 32) (num : Register) :
    Option (List Instruction) :=
  if imm = 0 then
    -- There is a check for zero before.
    some []
  else if imm = 1 ∨ imm = -1 then
    some (divRemOneOrMinusOne isDiv imm)
  else if isDiv && isPowerOfTwo (absOrMin imm) then
    some (divByPowerOfTwo imm)
  else
    generateDivRemWithAnyConstant isDiv imm num

def quotient (dividend divisor : BitVec 32) : BitVec 32 :=
  BitVec.ofInt 32 (dividend.toInt.tdiv divisor.toInt)

def remainder (dividend divisor : BitVec 32) : BitVec 32 :=
  BitVec.ofInt 32 (dividend.toInt.tmod divisor.toInt)

theorem toInt_bounds (v : BitVec 32) : -2 ^ 31 ≤ v.toInt ∧ v.toInt < 2 ^ 31 :=
  ⟨BitVec.le_toInt v, BitVec.toInt_lt⟩

theorem toInt_ofInt_of_bounds {v : ℤ} (hlower : -2 ^ 31 ≤ v) (hupper : v < 2 ^ 31) :
    (BitVec.ofInt 32 v).toInt = v := by
  rw [BitVec.toInt_ofInt]
  exact bmod_eq_of_le (by omega) (by omega)

theorem slt_zero_iff (v : BitVec 32) : v.slt 0 ↔ v.toInt < 0 := by
  rw [BitVec.slt_iff_toInt_lt]
  rfl

theorem zero_slt_iff (v : BitVec 32) : (0 : BitVec 32).slt v ↔ 0 < v.toInt := by
  rw [BitVec.slt_iff_toInt_lt]
  rfl

variable {imm v : BitVec 32}

theorem isDivisor_of_ne (hzero : imm ≠ 0) (hone : ¬ (imm = 1 ∨ imm = -1)) :
    IsDivisor imm.toInt false := by
  obtain ⟨hlower, hupper⟩ := toInt_bounds imm
  refine ⟨?_, hlower, hupper⟩
  by_contra hsmall
  have hcases : imm.toInt = 0 ∨ imm.toInt = 1 ∨ imm.toInt = -1 := by omega
  rcases hcases with heq | heq | heq
  · exact hzero (BitVec.eq_of_toInt_eq heq)
  · exact hone (.inl (BitVec.eq_of_toInt_eq heq))
  · exact hone (.inr (BitVec.eq_of_toInt_eq heq))

/-! ## The high half of the product -/

section Magic

variable {num : Register} (hnum : num ≠ .eax ∧ num ≠ .edx)

def Holds (machine : Machine) (num : Register) (numerator : BitVec 32) (high : ℤ) : Prop :=
  machine.registers num = numerator ∧ machine.registers .edx = BitVec.ofInt 32 high

include hnum

theorem run_multiply (m : Machine) (magic : BitVec 32) :
    ∃ after, m.run [.movl num .eax, .movlImmediate .eax magic, .imull num] = some after ∧
      Holds after num (m.registers .eax) (magic.toInt * (m.registers .eax).toInt / 2 ^ 32) := by
  refine ⟨_, rfl, ?_, ?_⟩
  · simp [Machine.set, Machine.compute, hnum]
  · simp only [Machine.set, Machine.compute, Function.update_self, Function.update_of_ne hnum.1]
    exact extractLsb_mul magic (m.registers .eax)

def corrected (imm : BitVec 32) (magic numerator : ℤ) : ℤ :=
  if 0 < imm.toInt ∧ magic < 0 then
    magic * numerator / 2 ^ 32 + numerator
  else if imm.toInt < 0 ∧ 0 < magic then
    magic * numerator / 2 ^ 32 - numerator
  else
    magic * numerator / 2 ^ 32

variable {m : Machine} {numerator : BitVec 32}

theorem run_correction {magic : ℤ} (imm : BitVec 32)
    (hholds : Holds m num numerator (magic * numerator.toInt / 2 ^ 32)) :
    ∃ after, m.run (correction imm magic num) = some after ∧
      Holds after num numerator (corrected imm magic numerator.toInt) := by
  obtain ⟨hnumerator, hhigh⟩ := hholds
  simp only [correction, corrected, Bool.and_eq_true, zero_slt_iff, slt_zero_iff, decide_eq_true_eq]
  split
  · refine ⟨_, rfl, ?_, ?_⟩
    · simp [compute, hnum.2, hnumerator]
    · simp only [compute, update_self]
      rw [hhigh, hnumerator, BitVec.ofInt_add, BitVec.ofInt_toInt]
  · split
    · refine ⟨_, rfl, ?_, ?_⟩
      · simp [compute, hnum.2, hnumerator]
      · simp only [compute, update_self]
        rw [hhigh, hnumerator, Int.sub_eq_add_neg, BitVec.ofInt_add, BitVec.ofInt_neg,
          BitVec.ofInt_toInt, BitVec.sub_eq_add_neg]
    · exact ⟨m, rfl, hnumerator, hhigh⟩

def signedFactor (imm : BitVec 32) (factor : ℕ) : ℤ :=
  if 0 < imm.toInt then factor else -factor

variable {factor shift : ℕ}

omit hnum in
/-- The difference of the magic number and the factor is made up for by the numerator. -/
theorem corrected_bmod (hfactor : factor < 2 ^ 32) (himm : imm.toInt ≠ 0)
    (numerator : ℤ) : corrected imm (bmod (signedFactor imm factor) (2 ^ 32)) numerator =
      signedFactor imm factor * numerator / 2 ^ 32 := by
  have hadd : ∀ v : ℤ, (v + 2 ^ 32) * numerator / 2 ^ 32 = v * numerator / 2 ^ 32 + numerator := by
    intro v
    rw [add_mul, mul_comm (2 ^ 32) numerator, add_mul_ediv_right _ _ (by norm_num)]
  have hsub : ∀ v : ℤ, (v - 2 ^ 32) * numerator / 2 ^ 32 = v * numerator / 2 ^ 32 - numerator := by
    intro v
    have heq := hadd (v - 2 ^ 32)
    rw [sub_add_cancel] at heq
    omega
  have hbounds : -2 ^ 32 < signedFactor imm factor ∧ signedFactor imm factor < 2 ^ 32 ∧
      (0 < imm.toInt → 0 ≤ signedFactor imm factor) ∧
      (¬ 0 < imm.toInt → signedFactor imm factor ≤ 0) := by
    rw [signedFactor]
    split <;> omega
  obtain ⟨hlower, hupper, hpositive, hnegative⟩ := hbounds
  generalize signedFactor imm factor = signed at *
  have hmagic : bmod signed (2 ^ 32) = signed ∨
      bmod signed (2 ^ 32) = signed - 2 ^ 32 ∧ 2 ^ 31 ≤ signed ∨
      bmod signed (2 ^ 32) = signed + 2 ^ 32 ∧ signed < -2 ^ 31 := by
    rw [bmod_def]
    norm_num only
    split <;> omega
  rw [corrected]
  rcases hmagic with heq | ⟨heq, hlarge⟩ | ⟨heq, hsmall⟩
  · rw [heq, if_neg (by omega), if_neg (by omega)]
  · rw [heq, if_pos (by omega), hsub]
    omega
  · rw [heq, if_neg (by omega), if_pos (by omega), hadd]
    omega

theorem run_shift {high : ℤ} (hlower : -2 ^ 31 ≤ high) (hupper : high < 2 ^ 31)
    (hshift : shift < 32) (hholds : Holds m num numerator high) :
    ∃ after, m.run (if shift ≠ 0 then [.sarl .edx shift] else []) = some after ∧
      after.registers num = numerator ∧ (after.registers .edx).toInt = high / 2 ^ shift := by
  obtain ⟨hnumerator, hhigh⟩ := hholds
  split
  · refine ⟨_, rfl, ?_, ?_⟩
    · simp [compute, hnum.2, hnumerator]
    · simp only [compute, update_self]
      rw [mod_eq_of_lt hshift, hhigh, BitVec.toInt_sshiftRight,
        toInt_ofInt_of_bounds hlower hupper, Int.shiftRight_eq_div_pow]
      norm_cast
  next hzero =>
    rw [not_ne_iff] at hzero
    subst hzero
    refine ⟨m, rfl, hnumerator, ?_⟩
    rw [hhigh, toInt_ofInt_of_bounds hlower hupper, pow_zero, ediv_one]

theorem run_multiplyHigh (m : Machine) (hfactor : factor < 2 ^ 32)
    (hshift : shift < 32) (himm : imm.toInt ≠ 0) :
    ∃ after, m.run (multiplyHigh imm (bmod (signedFactor imm factor) (2 ^ 32)) shift num) =
        some after ∧
      after.registers num = m.registers .eax ∧ (after.registers .edx).toInt =
        signedFactor imm factor * (m.registers .eax).toInt / 2 ^ (32 + shift) := by
  obtain ⟨hlower, hupper⟩ := toInt_bounds (m.registers .eax)
  have hmagic : (BitVec.ofInt 32 (bmod (signedFactor imm factor) (2 ^ 32))).toInt =
      bmod (signedFactor imm factor) (2 ^ 32) := by
    rw [BitVec.toInt_ofInt, bmod_bmod]
  obtain ⟨first, hfirst, hholds⟩ := run_multiply hnum m
    (BitVec.ofInt 32 (bmod (signedFactor imm factor) (2 ^ 32)))
  rw [hmagic] at hholds
  obtain ⟨second, hsnd, hholds⟩ := run_correction hnum imm hholds
  rw [corrected_bmod hfactor himm] at hholds
  -- The high half of the product with the factor fits into the register.
  have hhigh : -2 ^ 31 ≤ signedFactor imm factor * (m.registers .eax).toInt / 2 ^ 32 ∧
      signedFactor imm factor * (m.registers .eax).toInt / 2 ^ 32 < 2 ^ 31 := by
    have hsigned : (signedFactor imm factor).natAbs ≤ 2 ^ 32 - 1 := by
      rw [signedFactor]
      split <;> omega
    have hproduct := mul_le_mul hsigned (show (m.registers .eax).toInt.natAbs ≤ 2 ^ 31 by omega)
    rw [← natAbs_mul] at hproduct
    omega
  obtain ⟨third, hthird, hnumerator, hshifted⟩ := run_shift hnum hhigh.1 hhigh.2 hshift hholds
  refine ⟨third, ?_, hnumerator, ?_⟩
  · rw [multiplyHigh, run_append, run_append, hfirst]
    change ((first.run _).bind _) = _
    rw [hsnd]
    exact hthird
  · rw [hshifted, ediv_ediv_of_nonneg (by norm_num), ← pow_add]

theorem run_round (m : Machine) :
    ∃ after, m.run [.movl .eax .edx, .shrl .edx 31, .addl .edx .eax] = some after ∧
      after.registers num = m.registers num ∧
      after.registers .edx = BitVec.ofInt 32 (towardsZero (m.registers .edx).toInt) := by
  refine ⟨_, rfl, ?_, ?_⟩
  · simp [Machine.set, Machine.compute, hnum]
  · rw [← add_sign_bit]
    simp [Machine.set, Machine.compute]

omit hnum in
theorem run_remainder (hnumerator : m.registers num = numerator)
    (hquot : m.registers .edx = quotient numerator imm) : ∃ after, m.run
        [.movl .eax num, .imullImmediate .edx imm, .subl .eax .edx, .movl .edx .eax] = some after ∧
      after.registers .edx = remainder numerator imm := by
  refine ⟨_, rfl, ?_⟩
  simp only [Machine.set, Machine.compute, Function.update_self, ne_eq, reduceCtorEq,
    not_false_eq_true, update_of_ne]
  rw [hnumerator, hquot, quotient, remainder, Int.tmod_def, Int.sub_eq_add_neg,
    BitVec.ofInt_add, BitVec.ofInt_neg, BitVec.ofInt_mul, BitVec.ofInt_toInt, BitVec.ofInt_toInt,
    BitVec.sub_eq_add_neg, BitVec.mul_comm]

theorem run_anyConstant (m : Machine) (isDiv : Bool) (hzero : imm ≠ 0)
    (hone : ¬ (imm = 1 ∨ imm = -1)) :
    ∃ code after, generateDivRemWithAnyConstant isDiv imm num = some code ∧
      m.run code = some after ∧ after.registers (output isDiv) =
        if isDiv then quotient (m.registers .eax) imm else remainder (m.registers .eax) imm := by
  obtain ⟨hlower, hupper⟩ := toInt_bounds (m.registers .eax)
  obtain ⟨factor, shift, hmagic, hshift, hfactor, hquot⟩ :=
    (isDivisor_of_ne hzero hone).exists_magic
  have himm : imm.toInt ≠ 0 := fun hsame => hzero (BitVec.eq_of_toInt_eq hsame)
  obtain ⟨first, hfirst, hnumerator, hhigh⟩ := run_multiplyHigh hnum _ hfactor hshift himm
  obtain ⟨second, hsnd, hnumerator', hrounded⟩ := run_round hnum first
  rw [hnumerator] at hnumerator'
  have hquot' : second.registers .edx = quotient (m.registers .eax) imm := by
    rw [hrounded, hhigh, quotient]
    exact congrArg (BitVec.ofInt 32) (hquot _ hlower hupper)
  rw [generateDivRemWithAnyConstant, hmagic, Option.map_some]
  refine ⟨anyConstantCode isDiv imm num (bmod (signedFactor imm factor) (2 ^ 32)) shift, ?_⟩
  cases isDiv with
  | true =>
    refine ⟨second.set .eax (second.registers .edx), rfl, ?_, ?_⟩
    · rw [anyConstantCode, run_append, run_append, hfirst]
      change ((first.run _).bind _) = _
      rw [hsnd]
      rfl
    · simpa [output, Machine.set] using hquot'
  | false =>
    obtain ⟨third, hthird, hremainder⟩ := run_remainder hnumerator' hquot'
    refine ⟨third, rfl, ?_, hremainder⟩
    rw [anyConstantCode, run_append, run_append, hfirst]
    change ((first.run _).bind _) = _
    rw [hsnd]
    exact hthird

end Magic

/-! ## Powers of two -/

theorem toNat_sub_one (hvalue : 0 < v.toNat) : (v - 1).toNat = v.toNat - 1 :=
  BitVec.toNat_sub_of_le (BitVec.le_def.mpr hvalue)

theorem exists_two_pow_of_and {v : ℕ} (hne : v ≠ 0) (hand : v &&& (v - 1) = 0) :
    ∃ k, v = 2 ^ k := by
  refine ⟨v.log2, ?_⟩
  have hlower := log2_self_le hne
  have hupper := lt_log2_self (n := v)
  by_contra hdiffer
  -- Otherwise the leading bit is also one of the predecessor.
  have hbit := congrArg (Nat.testBit · v.log2) hand
  simp only [testBit_and, zero_testBit] at hbit
  rw [Nat.testBit_of_two_pow_le_and_two_pow_add_one_gt hlower hupper,
    testBit_of_two_pow_le_and_two_pow_add_one_gt (by omega) (by omega)] at hbit
  cases hbit

theorem absOrMin_toNat (imm : BitVec 32) : (absOrMin imm).toNat = imm.toInt.natAbs := by
  have hlt := imm.isLt
  rw [absOrMin]
  split
  next hmin =>
    rw [hmin]
    rfl
  · split
    next hmin hnegative =>
      rw [slt_zero_iff] at hnegative
      rw [BitVec.toNat_neg]
      rw [BitVec.toInt_eq_toNat_cond] at hnegative ⊢
      split at hnegative <;> omega
    next hmin hnonnegative =>
      rw [slt_zero_iff] at hnonnegative
      rw [BitVec.toInt_eq_toNat_cond] at hnonnegative ⊢
      split at hnonnegative <;> omega

variable {k : ℕ}

/-- The trailing zeros of an odd multiple of a power of two. -/
theorem ctz_of_toNat (odd : ℕ) (hk : k < 32)
    (hvalue : v.toNat = 2 ^ k * odd) (hodd : odd % 2 = 1) : ctz v = k := by
  have hbit : ∀ i, v.getLsbD i = (decide (k ≤ i) && odd.testBit (i - k)) := by
    intro i
    rw [BitVec.getLsbD, hvalue, testBit_two_pow_mul]
  have hfind : (List.range 32).find? v.getLsbD = some k := by
    refine List.find?_range_eq_some.mpr ⟨?_, List.mem_range.mpr hk, fun i hi => ?_⟩
    · rw [hbit, Nat.sub_self, Nat.testBit_zero, hodd]
      simp
    · rw [hbit, decide_eq_false (by omega)]
      rfl
  rw [ctz, hfind]
  rfl

theorem ctz_of_natAbs (himm : imm.toInt.natAbs = 2 ^ k) : ctz imm = k := by
  have hlt := imm.isLt
  obtain ⟨hlower, hupper⟩ := toInt_bounds imm
  have hk : k < 32 := by
    by_contra hlarge
    have hpow := Nat.pow_le_pow_right Nat.zero_lt_two (Nat.le_of_not_lt hlarge)
    omega
  by_cases hnegative : imm.toInt < 0
  · obtain ⟨rest, hrest⟩ := Nat.exists_eq_add_of_lt hk
    have hsplit : 2 ^ 32 = 2 ^ k * (2 * 2 ^ rest) := by
      rw [hrest, add_assoc, pow_add, pow_succ']
    refine ctz_of_toNat (2 * 2 ^ rest - 1) hk ?_ ?_
    · rw [Nat.mul_sub, ← hsplit, Nat.mul_one, ← himm]
      rw [BitVec.toInt_eq_toNat_cond] at hnegative ⊢
      split at hnegative <;> omega
    · have hpos := Nat.two_pow_pos rest
      omega
  · refine ctz_of_toNat 1 hk ?_ rfl
    rw [mul_one, ← himm]
    rw [BitVec.toInt_eq_toNat_cond] at hnegative ⊢
    split at hnegative <;> omega

/-- A negative dividend is rounded up if the divisor less one is added to it. -/
theorem tdiv_of_neg {dividend divisor : ℤ} (hdividend : dividend < 0) (hdivisor : 0 < divisor) :
    dividend.tdiv divisor = (dividend + (divisor - 1)) / divisor := by
  have hmod := emod_nonneg (-dividend) hdivisor.ne'
  have hmod' := emod_lt_of_pos (-dividend) hdivisor
  have hsplit := emod_add_mul_ediv (-dividend) divisor
  have hquot : (dividend + (divisor - 1)) / divisor = -(-dividend / divisor) := by
    refine ((Int.ediv_emod_unique (r := divisor - 1 - -dividend % divisor) hdivisor).mpr
      ⟨?_, by omega, by omega⟩).1
    rw [Int.mul_neg]
    omega
  rw [hquot, ← Int.tdiv_eq_ediv_of_nonneg (by omega), Int.neg_tdiv, Int.neg_neg]

/-- The dividend, and the divisor less one if it is negative, shifted. -/
theorem run_shiftDividend (m : Machine) (hk : k < 32) (himm : imm.toInt.natAbs = 2 ^ k) :
    ∃ after, m.run [.leal .edx .eax (absOrMin imm - 1), .testl .eax .eax,
        .cmovlGreaterEqual .edx .eax, .sarl .edx (ctz imm)] = some after ∧
      after.registers .edx = BitVec.ofInt 32 ((m.registers .eax).toInt.tdiv (2 ^ k)) := by
  obtain ⟨hlower, hupper⟩ := toInt_bounds (m.registers .eax)
  obtain ⟨hlower', hupper'⟩ := toInt_bounds imm
  have hpos : (0 : ℤ) < 2 ^ k := by positivity
  have hshift : ∀ v : BitVec 32, v.sshiftRight (k % 32) = BitVec.ofInt 32 (v.toInt / 2 ^ k) := by
    intro v
    rw [Nat.mod_eq_of_lt hk, BitVec.sshiftRight_eq, Int.shiftRight_eq_div_pow]
    norm_cast
  rw [ctz_of_natAbs himm]
  simp only [Machine.run_cons, Machine.run_nil, Machine.execute, Machine.set, Option.bind_some,
    ne_eq, reduceCtorEq, not_false_eq_true, Function.update_of_ne, BitVec.and_self,
    BitVec.msb_eq_toInt, decide_eq_false_iff_not, compute]
  split
  next hnonneg =>
    refine ⟨_, rfl, ?_⟩
    simp only [update_self]
    rw [hshift, tdiv_eq_ediv_of_nonneg (not_lt.mp hnonneg)]
  next hneg =>
    refine ⟨_, rfl, ?_⟩
    rw [not_not] at hneg
    have hsum : (m.registers .eax + (absOrMin imm - 1)).toInt =
        (m.registers .eax).toInt + (2 ^ k - 1) := by
      have habs := absOrMin_toNat imm
      have hsize := Nat.two_pow_pos k
      rw [himm] at habs
      have hcast : (2 : ℤ) ^ k = (2 ^ k : ℕ) := by norm_cast
      have hlow : (absOrMin imm - 1).toInt = 2 ^ k - 1 := by
        have hnat := toNat_sub_one (habs ▸ hsize)
        rw [BitVec.toInt_eq_toNat_cond, hnat, hcast]
        split <;> omega
      rw [BitVec.toInt_add, hlow, hcast]
      exact bmod_eq_of_le (by omega) (by omega)
    simp only [update_self]
    rw [hshift, hsum, tdiv_of_neg hneg hpos]

theorem run_divByPowerOfTwo (m : Machine) (hzero : imm ≠ 0) (hpower : isPowerOfTwo (absOrMin imm)) :
    ∃ after, m.run (divByPowerOfTwo imm) = some after ∧
      after.registers .eax = quotient (m.registers .eax) imm := by
  have himm : imm.toInt ≠ 0 := fun hsame => hzero (BitVec.eq_of_toInt_eq hsame)
  obtain ⟨hlower, hupper⟩ := toInt_bounds imm
  have habs := absOrMin_toNat imm
  obtain ⟨k, hk⟩ : ∃ k, imm.toInt.natAbs = 2 ^ k := by
    have hpos : 0 < (absOrMin imm).toNat := by omega
    have hand := congrArg BitVec.toNat (of_decide_eq_true hpower)
    rw [BitVec.toNat_and, toNat_sub_one hpos, habs] at hand
    exact exists_two_pow_of_and (by omega) hand
  have hlt : k < 32 := by
    by_contra hlarge
    have hpow := Nat.pow_le_pow_right Nat.zero_lt_two (Nat.le_of_not_lt hlarge)
    omega
  obtain ⟨first, hfirst, hshifted⟩ := run_shiftDividend _ hlt hk
  have hcast : (2 : ℤ) ^ k = imm.toInt.natAbs := by
    rw [hk]
    norm_cast
  rw [divByPowerOfTwo, run_append, run_append, hfirst]
  split
  next hnegative =>
    rw [slt_zero_iff] at hnegative
    refine ⟨_, rfl, ?_⟩
    simp only [Machine.set, Machine.compute, Function.update_self]
    rw [hshifted, quotient, ← BitVec.ofInt_neg, ← Int.tdiv_neg, hcast]
    congr 2
    omega
  next hnonnegative =>
    rw [slt_zero_iff] at hnonnegative
    refine ⟨_, rfl, ?_⟩
    simp only [Machine.set, Function.update_self]
    rw [hshifted, quotient, hcast]
    congr 2
    omega

/-- The emitted code leaves the quotient or the remainder in its output register. -/
theorem generateDivRemIntegral_spec (m : Machine) (isDiv : Bool) {num : Register}
    (hnum : num ≠ .eax ∧ num ≠ .edx) (hzero : imm ≠ 0) (hone : ¬ (imm = 1 ∨ imm = -1)) :
    ∃ code after, generateDivRemIntegral isDiv imm num = some code ∧ m.run code = some after ∧
      after.registers (output isDiv) = if isDiv then quotient (m.registers .eax) imm
        else remainder (m.registers .eax) imm := by
  rw [generateDivRemIntegral, if_neg hzero, if_neg hone]
  split
  next hshift =>
    obtain ⟨hdiv, hpower⟩ := Bool.and_eq_true_iff.mp hshift
    obtain ⟨after, hafter, hres⟩ := run_divByPowerOfTwo _ hzero hpower
    rw [hdiv]
    exact ⟨_, after, rfl, hafter, hres⟩
  · exact run_anyConstant hnum _ _ hzero hone

/-- Divisions by constants, and the search for their magic numbers. -/
theorem divRem_by_constants :
    (∀ (machine : Machine) (isDiv : Bool) (imm : BitVec 32) (num : Register),
      num ≠ .eax → num ≠ .edx → 2 ≤ imm.toInt.natAbs →
      ∃ code after, generateDivRemIntegral isDiv imm num = some code ∧
        machine.run code = some after ∧ after.registers (output isDiv) =
          if isDiv then quotient (machine.registers .eax) imm
          else remainder (machine.registers .eax) imm) ∧
    ∀ (divisor : ℤ) (isLong : Bool), IsDivisor divisor isLong →
      (isLong = true → ∀ p, divisor.natAbs ≠ 2 ^ p) →
      (∃ search, searchLoop (absNumerator divisor isLong) (absDivisor divisor) 64
        (startSearch divisor isLong) = some search) ∧
      ∀ search, Visits (absNumerator divisor isLong) (absDivisor divisor)
          (startSearch divisor isLong) search →
        ∀ value ∈ search.intermediates (absNumerator divisor isLong) (absDivisor divisor),
          IsUnsigned value := by
  constructor
  · intro machine isDiv imm num heax hedx htwo
    refine generateDivRemIntegral_spec machine isDiv ⟨heax, hedx⟩ ?_ ?_
    · rintro rfl
      exact absurd htwo (by decide)
    · rintro (rfl | rfl) <;> exact absurd htwo (by decide)
  · intro divisor isLong hdivisor hpower
    obtain ⟨last, hsearch, -⟩ := hdivisor.exists_search hpower
    exact ⟨⟨_, hsearch⟩, fun search => hdivisor.isUnsigned hpower⟩

theorem divRem_by_seven : ∃ code after, generateDivRemIntegral true 7 .ecx = some code ∧
      run ⟨fun _ => -100, none⟩ code = some after ∧ after.registers .eax = quotient (-100) 7 :=
  divRem_by_constants.1 ⟨fun _ => -100, none⟩ true 7 .ecx (by decide) (by decide) (by decide)

end NougatArt.Codegen
