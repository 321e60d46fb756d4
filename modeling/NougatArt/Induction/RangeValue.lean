import NougatArt.Induction.Range

/-!
# Bounds as intervals

A known value stands for the integer `a * instruction + b` at a moment of an
execution. The operations on values compute this integer exactly or give up,
so that they carry lower and upper bounds through sums, differences, products
and quotients.
-/

namespace NougatArt.Induction

open Bool Int Value PrimitiveType

variable {a b c : ℤ} {insn : Option HInstruction} {v : Value}

/-- The quotient of a nonnegative dividend by a larger divisor of the same sign is smaller. -/
theorem tdiv_le_tdiv_divisor {d : ℤ} (ha : 0 ≤ a) (hdc : d ≤ c) (hsign : 0 < d ∨ c < 0) :
    a.tdiv c ≤ a.tdiv d := by
  have hpos : ∀ {c d : ℤ}, 0 < d → d ≤ c → a.tdiv c ≤ a.tdiv d := by
    intro c d hd hdc
    rw [Int.tdiv_eq_ediv_of_nonneg ha, Int.tdiv_eq_ediv_of_nonneg ha, Int.le_ediv_iff_mul_le hd]
    calc a / c * d ≤ a / c * c := mul_le_mul_of_nonneg_left hdc (ediv_nonneg ha (hd.le.trans hdc))
      _ ≤ a := Int.ediv_mul_le a (hd.trans_le hdc).ne'
  obtain hd | hc := hsign
  · exact hpos hd hdc
  · have hneg := hpos (neg_pos.mpr hc) (neg_le_neg hdc)
    rwa [Int.tdiv_neg, Int.tdiv_neg, Int.neg_le_neg_iff] at hneg

theorem tdiv_le_tdiv_of_pos (hab : a ≤ b) (hc : 0 < c) : a.tdiv c ≤ b.tdiv c :=
  Int.tdiv_le_tdiv hc hab

theorem tdiv_le_tdiv_of_neg (hab : a ≤ b) (hc : c < 0) : b.tdiv c ≤ a.tdiv c := by
  have := tdiv_le_tdiv_of_pos hab (neg_pos.mpr hc)
  rw [Int.tdiv_neg, Int.tdiv_neg] at this
  omega

namespace Value

variable (value : HInstruction → ℤ)

def eval (v : Value) : ℤ := v.aConstant * v.instruction.elim 0 value + v.bConstant

@[simp]
theorem eval_known (insn : Option HInstruction) (a b : ℤ) :
    (known insn a b).eval value = a * insn.elim 0 value + b := by
  by_cases ha : a = 0 <;> simp [eval, known, ha]

@[simp]
theorem eval_constant (b : ℤ) : (constant b).eval value = b := by
  simp [constant]

@[simp]
theorem isKnown_known (insn : Option HInstruction) (a b : ℤ) : (known insn a b).isKnown :=
  rfl

@[simp]
theorem bConstant_known (insn : Option HInstruction) (a b : ℤ) : (known insn a b).bConstant = b :=
  rfl

@[simp]
theorem isKnown_unknown : unknown.isKnown = false :=
  rfl

theorem instruction_known {a b : ℤ} {x : HInstruction}
    (hx : (known insn a b).instruction = some x) : insn = some x := by
  unfold known at hx
  by_cases ha : a = 0
  · simp [ha] at hx
  · simpa [ha] using hx

theorem isKnown_of_isConstantValue (hv : v.isConstantValue) : v.isKnown := by
  simp only [isConstantValue, and_eq_true] at hv
  exact hv.1

variable {value}

theorem eval_of_isConstantValue (hv : v.isConstantValue) : v.eval value = v.bConstant := by
  simp only [isConstantValue, and_eq_true, beq_iff_eq] at hv
  simp [eval, hv.2]

/-- What is known about the result of an operation: it stands for the integer
`z`, its constant fits in 32 bits and its instruction is one of the operands'. -/
structure Computes (value : HInstruction → ℤ) (v v1 v2 : Value) (z : ℤ) : Prop where
  left : v1.isKnown = true
  right : v2.isKnown = true
  eval : v.eval value = z
  fits : int.Fits v.bConstant
  instruction : ∀ x, v.instruction = some x → v1.instruction = some x ∨ v2.instruction = some x

end Value

variable {value : HInstruction → ℤ}

theorem fits_of_canLongValueFitIntoInt (hc : canLongValueFitIntoInt c) : int.Fits c :=
  of_decide_eq_true hc

variable {v1 v2 : Value}

/-- A value that an operation on known values builds with a constant that fits. -/
theorem Value.known_computes {z : ℤ} (hleft : v1.isKnown) (hright : v2.isKnown)
    (hfits : canLongValueFitIntoInt b) (heval : a * insn.elim 0 value + b = z)
    (hfrom : insn = v1.instruction ∨ insn = v2.instruction) :
    (known insn a b).Computes value v1 v2 z := by
  refine ⟨hleft, hright, (eval_known ..).trans heval,
    fits_of_canLongValueFitIntoInt hfits, fun x hx => ?_⟩
  have hx := instruction_known hx
  obtain rfl | rfl := hfrom
  · exact .inl hx
  · exact .inr hx

theorem addValue_computes (hknown : (addValue v1 v2).isKnown) :
    (addValue v1 v2).Computes value v1 v2 (v1.eval value + v2.eval value) := by
  unfold addValue at hknown ⊢
  simp only [and_eq_true] at hknown ⊢
  split_ifs at hknown ⊢ with hsafe ha1 ha2 hsame
  · exact known_computes hsafe.1.1 hsafe.1.2 hsafe.2 (by rw [eval, eval, ha1]; ring) (.inr rfl)
  · exact known_computes hsafe.1.1 hsafe.1.2 hsafe.2 (by rw [eval, eval, ha2]; ring) (.inl rfl)
  · exact known_computes hsafe.1.1 hsafe.1.2 hsafe.2 (by rw [eval, eval, hsame.1]; ring) (.inl rfl)
  all_goals exact absurd hknown false_ne_true

theorem subValue_computes (hknown : (subValue v1 v2).isKnown) :
    (subValue v1 v2).Computes value v1 v2 (v1.eval value - v2.eval value) := by
  unfold subValue at hknown ⊢
  simp only [and_eq_true] at hknown ⊢
  split_ifs at hknown ⊢ with hsafe ha1 ha2 hsame
  · exact known_computes hsafe.1.1 hsafe.1.2 hsafe.2 (by rw [eval, eval, ha1.1]; ring) (.inr rfl)
  · exact known_computes hsafe.1.1 hsafe.1.2 hsafe.2 (by rw [eval, eval, ha2]; ring) (.inl rfl)
  · exact known_computes hsafe.1.1 hsafe.1.2 hsafe.2 (by rw [eval, eval, hsame.1]; ring) (.inl rfl)
  all_goals exact absurd hknown false_ne_true

theorem mulValue_computes (hknown : (mulValue v1 v2).isKnown) :
    (mulValue v1 v2).Computes value v1 v2 (v1.eval value * v2.eval value) := by
  unfold mulValue at hknown ⊢
  simp only [and_eq_true] at hknown ⊢
  split_ifs at hknown ⊢ with hboth ha1 hsafe ha2 hsafe
  · exact known_computes hboth.1 hboth.2 hsafe.2 (by rw [eval, eval, ha1]; ring) (.inr rfl)
  · exact absurd hknown false_ne_true
  · exact known_computes hboth.1 hboth.2 hsafe.2 (by rw [eval, eval, ha2]; ring) (.inl rfl)
  all_goals exact absurd hknown false_ne_true

theorem divValue_computes (hknown : (divValue v1 v2).isKnown) :
    (divValue v1 v2).Computes value v1 v2 ((v1.eval value).tdiv (v2.eval value)) ∧
      v2.eval value ≠ 0 := by
  unfold divValue at hknown ⊢
  by_cases hsafe : (v1.isKnown && v2.isKnown && v1.aConstant == 0 && v2.aConstant == 0 &&
      isSafeDiv v1.bConstant v2.bConstant) = true
  · rw [if_pos hsafe]
    simp only [and_eq_true, beq_iff_eq, isSafeDiv, bne_iff_ne, ne_eq] at hsafe
    obtain ⟨⟨⟨⟨hleft, hright⟩, ha1⟩, ha2⟩, hne, hfits⟩ := hsafe
    refine ⟨⟨hleft, hright, by
      rw [eval_constant, eval, eval, ha1, ha2]; simp,
      fits_of_canLongValueFitIntoInt hfits, fun x hx => ?_⟩, by simpa [eval, ha2] using hne⟩
    exact absurd (instruction_known hx) (by simp)
  · exact absurd (if_neg hsafe ▸ hknown) (by simp)

/-- A bound of the integer `z`: a lower one if `isMin` is set. The instruction
of the bound is one that may be read. -/
structure Value.Bounds (value : HInstruction → ℤ) (readable : HInstruction → Prop)
    (isMin : Bool) (v : Value) (z : ℤ) : Prop where
  fits : int.Fits v.bConstant
  readable : ∀ x, v.instruction = some x → readable x
  lower : isMin = true → v.eval value ≤ z
  upper : isMin = false → z ≤ v.eval value

def Value.MayBound (value : HInstruction → ℤ) (readable : HInstruction → Prop)
    (isMin : Bool) (v : Value) (z : ℤ) : Prop :=
  v.isKnown = true → v.Bounds value readable isMin z

namespace Value

variable {readable : HInstruction → Prop} {isMin : Bool} {z z1 z2 : ℤ}

theorem mayBound_unknown : unknown.MayBound value readable isMin z :=
  fun hknown => absurd hknown (by simp)

theorem mayBound_constant (hfits : int.Fits c) (hlower : isMin → c ≤ z)
    (hupper : isMin = false → z ≤ c) : (constant c).MayBound value readable isMin z := by
  intro _
  exact ⟨hfits, fun x hx => absurd (instruction_known hx) (by simp), by simpa using hlower,
    by simpa using hupper⟩

theorem mayBound_self (hfits : int.Fits c) : (constant c).MayBound value readable isMin c :=
  mayBound_constant hfits (fun _ => le_rfl) fun _ => le_rfl

/-- The result of an operation on bounds is a bound if its integer is one. -/
theorem Computes.bounds (hcomp : v.Computes value v1 v2 z1)
    (hv1 : v1.isKnown → ∀ x, v1.instruction = some x → readable x)
    (hv2 : v2.isKnown → ∀ x, v2.instruction = some x → readable x)
    (hlower : isMin → z1 ≤ z) (hupper : isMin = false → z ≤ z1) :
    v.Bounds value readable isMin z := by
  refine ⟨hcomp.fits, fun x hx => ?_, fun hmin => ?_, fun hmax => ?_⟩
  · exact (hcomp.instruction x hx).elim (hv1 hcomp.left x) (hv2 hcomp.right x)
  · exact hcomp.eval ▸ hlower hmin
  · exact hcomp.eval ▸ hupper hmax

section

variable (hv1 : v1.MayBound value readable isMin z1)

include hv1

theorem MayBound.addValue (hv2 : v2.MayBound value readable isMin z2) :
    (addValue v1 v2).MayBound value readable isMin (z1 + z2) := by
  intro hknown
  have hcomp : (Induction.addValue v1 v2).Computes value v1 v2 _ := addValue_computes hknown
  have hb1 := hv1 hcomp.left
  have hb2 := hv2 hcomp.right
  refine hcomp.bounds (fun h => (hv1 h).readable) (fun h => (hv2 h).readable) ?_ ?_
  · intro hmin
    exact add_le_add (hb1.lower hmin) (hb2.lower hmin)
  · intro hmax
    exact add_le_add (hb1.upper hmax) (hb2.upper hmax)

theorem MayBound.subValue (hv2 : v2.MayBound value readable (!isMin) z2) :
    (subValue v1 v2).MayBound value readable isMin (z1 - z2) := by
  intro hknown
  have hcomp : (Induction.subValue v1 v2).Computes value v1 v2 _ := subValue_computes hknown
  have hb1 := hv1 hcomp.left
  have hb2 := hv2 hcomp.right
  refine hcomp.bounds (fun h => (hv1 h).readable) (fun h => (hv2 h).readable) ?_ ?_
  · intro hmin
    exact sub_le_sub (hb1.lower hmin) (hb2.upper (by simp [hmin]))
  · intro hmax
    exact sub_le_sub (hb1.upper hmax) (hb2.lower (by simp [hmax]))

/-- A bound of both of two integers bounds each. -/
theorem mergeVal_mayBound (hv2 : v2.MayBound value readable isMin z2) :
    (mergeVal v1 v2 isMin).MayBound value readable isMin z1 ∧
      (mergeVal v1 v2 isMin).MayBound value readable isMin z2 := by
  unfold mergeVal
  by_cases hcond : (v1.isKnown && v2.isKnown && v1.instruction == v2.instruction &&
      v1.aConstant == v2.aConstant) = true
  · rw [if_pos hcond]
    simp only [and_eq_true, beq_iff_eq] at hcond
    obtain ⟨⟨⟨hk1, hk2⟩, hinstruction⟩, ha⟩ := hcond
    have hb1 := hv1 hk1
    have hb2 := hv2 hk2
    have heval1 : v1.eval value = v1.aConstant * v1.instruction.elim 0 value + v1.bConstant := rfl
    have heval2 : v2.eval value = v1.aConstant * v1.instruction.elim 0 value + v2.bConstant := by
      rw [hinstruction, ha, eval]
    obtain ⟨b, hb, hchoice⟩ : ∃ b, b = (if isMin then min v1.bConstant v2.bConstant
        else max v1.bConstant v2.bConstant) ∧ (b = v1.bConstant ∨ b = v2.bConstant) := by
      refine ⟨_, rfl, ?_⟩
      cases isMin
      · exact max_choice _ _
      · exact min_choice _ _
    have hfits : int.Fits b := by
      obtain rfl | rfl := hchoice
      · exact hb1.fits
      · exact hb2.fits
    have hbounds : ∀ z, (isMin = true → v1.eval value ≤ z ∨ v2.eval value ≤ z) →
        (isMin = false → z ≤ v1.eval value ∨ z ≤ v2.eval value) →
        (known v1.instruction v1.aConstant b).Bounds value readable isMin z := by
      refine fun z hlow hup => ⟨hfits, fun x hx => hb1.readable x (instruction_known hx), ?_, ?_⟩
      · rintro rfl
        have hz := hlow rfl
        rw [eval_known, hb, if_pos rfl]
        omega
      · rintro rfl
        have hz := hup rfl
        rw [eval_known, hb, if_neg Bool.false_ne_true]
        omega
    rw [← hb]
    exact ⟨fun _ => hbounds z1 (fun h => .inl (hb1.lower h)) fun h => .inl (hb1.upper h),
      fun _ => hbounds z2 (fun h => .inr (hb2.lower h)) fun h => .inr (hb2.upper h)⟩
  · rw [if_neg hcond]
    exact ⟨mayBound_unknown, mayBound_unknown⟩

end

end Value

structure InRange (value : HInstruction → ℤ) (readable : HInstruction → Prop)
    (vMin vMax : Value) (z : ℤ) : Prop where
  min : vMin.MayBound value readable true z
  max : vMax.MayBound value readable false z

namespace InRange

variable {readable : HInstruction → Prop} {isMin : Bool}
  {v1Min v1Max v2Min v2Max c : Value} {z z1 z2 : ℤ}

section

variable (hrange : InRange value readable v1Min v1Max z)

include hrange

/-- A constant extreme on the positive side makes the integer positive. -/
theorem le_of_isConstantValue (hconst : v1Min.isConstantValue) : v1Min.bConstant ≤ z := by
  have hbound := hrange.min (isKnown_of_isConstantValue hconst)
  have heval : v1Min.eval value = v1Min.bConstant := eval_of_isConstantValue hconst
  exact heval ▸ hbound.lower rfl

theorem ge_of_isConstantValue (hconst : v1Max.isConstantValue) : z ≤ v1Max.bConstant := by
  have hbound := hrange.max (isKnown_of_isConstantValue hconst)
  have heval : v1Max.eval value = v1Max.bConstant := eval_of_isConstantValue hconst
  exact heval ▸ hbound.upper rfl

theorem eq_of_isSameConstantValue (hsame : v1Min.isSameConstantValue v1Max) :
    v1Min.isConstantValue ∧ z = v1Min.bConstant := by
  simp only [isSameConstantValue, and_eq_true, beq_iff_eq] at hsame
  obtain ⟨⟨hmin, hmax⟩, heq⟩ := hsame
  have hle := hrange.le_of_isConstantValue hmin
  have hge := hrange.ge_of_isConstantValue hmax
  exact ⟨hmin, by omega⟩

end

def extreme (vMin vMax : Value) (isMin : Bool) : Value :=
  if isMin then vMin else vMax

def Signed (positive : Bool) (x : ℤ) : Prop :=
  if positive then 0 ≤ x else x ≤ 0

def Beyond (isMin : Bool) (x z : ℤ) : Prop :=
  if isMin then x ≤ z else z ≤ x

/-- A range whose inner extreme is a constant on one side of zero. -/
def OneSided (positive : Bool) (vMin vMax : Value) : Prop :=
  (extreme vMin vMax positive).isConstantValue = true ∧
    Signed positive (extreme vMin vMax positive).bConstant

theorem extreme_mayBound (hrange : InRange value readable v1Min v1Max z) :
    (extreme v1Min v1Max isMin).MayBound value readable isMin z := by
  cases isMin
  · exact hrange.max
  · exact hrange.min

theorem beyond_of_bounds (hb : v.Bounds value readable isMin z) :
    Beyond isMin (v.eval value) z := by
  cases isMin
  · exact hb.upper rfl
  · exact hb.lower rfl

theorem bounds_of_computes {v1 v2 : Value} {isMin1 isMin2 : Bool}
    (hcomp : v.Computes value v1 v2 z) (hb1 : v1.Bounds value readable isMin1 z1)
    (hb2 : v2.Bounds value readable isMin2 z2) {y : ℤ} (hbeyond : Beyond isMin z y) :
    v.Bounds value readable isMin y := by
  refine hcomp.bounds (fun _ => hb1.readable) (fun _ => hb2.readable) ?_ ?_
  · rintro rfl
    exact hbeyond
  · rintro rfl
    exact hbeyond

/-- The integers of a one-sided range and its extremes are on this side. -/
theorem signed_of_oneSided {positive : Bool} (hrange : InRange value readable v1Min v1Max z)
    (hside : OneSided positive v1Min v1Max)
    (hb : (extreme v1Min v1Max isMin).Bounds value readable isMin z) :
    Signed positive z ∧ Signed positive ((extreme v1Min v1Max isMin).eval value) := by
  obtain ⟨hconst, hsign⟩ := hside
  have heval : (extreme v1Min v1Max positive).eval value = _ := eval_of_isConstantValue hconst
  have hbeyond := beyond_of_bounds hb
  have hinner := beyond_of_bounds (hrange.extreme_mayBound (isKnown_of_isConstantValue hconst))
  cases positive <;> cases isMin <;>
    simp only [Signed, Beyond, extreme, false_eq_true, if_false, if_true] at * <;> omega

section

variable {positive1 positive2 : Bool} {x1 x2 : ℤ} (h1 : Beyond (isMin == positive2) x1 z1)
  (hx1 : Signed positive1 x1) (hz2 : Signed positive2 z2)

include h1 hx1 hz2

/-- The extremes whose product bounds the product, by the signs of the factors. -/
theorem mul_beyond (h2 : Beyond (isMin == positive1) x2 z2) : Beyond isMin (x1 * x2) (z1 * z2) := by
  have hsplit : z1 * z2 - x1 * x2 = (z1 - x1) * z2 + x1 * (z2 - x2) := by ring
  cases isMin <;> cases positive1 <;> cases positive2 <;>
    simp [Beyond, Signed] at * <;> nlinarith

/-- The extremes whose quotient bounds the quotient, by the signs. -/
theorem tdiv_beyond (h2 : Beyond (!(isMin == positive1)) x2 z2) (hx2 : Signed positive2 x2)
    (hx : x2 ≠ 0) (hz : z2 ≠ 0) : Beyond isMin (x1.tdiv x2) (z1.tdiv z2) := by
  -- First the dividend moves to the bound and then the divisor.
  have hdividend : Beyond isMin (x1.tdiv z2) (z1.tdiv z2) := by
    cases positive2 <;> cases isMin <;> simp [Beyond, Signed] at h1 hz2 ⊢
    · exact tdiv_le_tdiv_of_neg h1 (by omega)
    · exact tdiv_le_tdiv_of_neg h1 (by omega)
    · exact tdiv_le_tdiv_of_pos h1 (by omega)
    · exact tdiv_le_tdiv_of_pos h1 (by omega)
  have hdivisor : Beyond isMin (x1.tdiv x2) (x1.tdiv z2) := by
    have hsame : 0 < x2 ∧ 0 < z2 ∨ x2 < 0 ∧ z2 < 0 := by
      cases positive2 <;> simp only [Signed, false_eq_true, if_true, if_false] at hx2 hz2 <;>
        omega
    have hneg : ∀ y, (-x1).tdiv y = -x1.tdiv y := Int.neg_tdiv x1
    cases positive1 <;> cases isMin <;> simp [Beyond, Signed] at h2 hx1 ⊢
    · have := tdiv_le_tdiv_divisor (neg_nonneg.mpr hx1) h2 (by omega)
      rwa [hneg, hneg, neg_le_neg_iff] at this
    · have := tdiv_le_tdiv_divisor (neg_nonneg.mpr hx1) h2 (by omega)
      rwa [hneg, hneg, neg_le_neg_iff] at this
    · exact tdiv_le_tdiv_divisor hx1 h2 (by omega)
    · exact tdiv_le_tdiv_divisor hx1 h2 (by omega)
  cases isMin
  · exact le_trans hdividend hdivisor
  · exact le_trans hdivisor hdividend

end

theorem beyond_refl : Beyond isMin z z := by
  cases isMin <;> exact le_rfl

theorem signed_decide : Signed (decide (0 ≤ z)) z := by
  unfold Signed
  split_ifs with hsign
  · exact of_decide_eq_true hsign
  · exact (not_le.mp (of_decide_eq_false (eq_false_of_not_eq_true hsign))).le

section

variable (h1 : InRange value readable v1Min v1Max z1) (h2 : InRange value readable v2Min v2Max z2)

include h1 h2

theorem mulValue_extreme_mayBound (isMin positive1 positive2 : Bool)
    (hside1 : OneSided positive1 v1Min v1Max) (hside2 : OneSided positive2 v2Min v2Max) :
    (if isMin then mulValue (extreme v1Min v1Max positive2) (extreme v2Min v2Max positive1)
      else mulValue (extreme v1Min v1Max !positive2) (extreme v2Min v2Max !positive1)).MayBound
      value readable isMin (z1 * z2) := by
  have hpick : ∀ v1 v2, v1 = extreme v1Min v1Max (isMin == positive2) →
      v2 = extreme v2Min v2Max (isMin == positive1) →
      (mulValue v1 v2).MayBound value readable isMin (z1 * z2) := by
    rintro _ _ rfl rfl hknown
    have hcomp : Value.Computes value .. := mulValue_computes hknown
    have hb1 := h1.extreme_mayBound hcomp.left
    have hb2 := h2.extreme_mayBound hcomp.right
    exact bounds_of_computes hcomp hb1 hb2
      (mul_beyond (beyond_of_bounds hb1) (h1.signed_of_oneSided hside1 hb1).2
        (h2.signed_of_oneSided hside2 hb2).1 (beyond_of_bounds hb2))
  cases isMin <;> exact hpick _ _ (by simp) (by simp)

theorem divValue_extreme_mayBound (isMin positive1 positive2 : Bool) (hz : z2 ≠ 0)
    (hside1 : OneSided positive1 v1Min v1Max) (hside2 : OneSided positive2 v2Min v2Max) :
    (if isMin then divValue (extreme v1Min v1Max positive2) (extreme v2Min v2Max !positive1)
      else divValue (extreme v1Min v1Max !positive2) (extreme v2Min v2Max positive1)).MayBound
      value readable isMin (z1.tdiv z2) := by
  have hpick : ∀ v1 v2, v1 = extreme v1Min v1Max (isMin == positive2) →
      v2 = extreme v2Min v2Max (!(isMin == positive1)) →
      (divValue v1 v2).MayBound value readable isMin (z1.tdiv z2) := by
    rintro _ _ rfl rfl hknown
    obtain ⟨hcomp, hne⟩ : Value.Computes value .. ∧ _ := divValue_computes hknown
    have hb1 := h1.extreme_mayBound hcomp.left
    have hb2 := h2.extreme_mayBound hcomp.right
    obtain ⟨hz2, hx2⟩ := h2.signed_of_oneSided hside2 hb2
    exact bounds_of_computes hcomp hb1 hb2
      (tdiv_beyond (beyond_of_bounds hb1) (h1.signed_of_oneSided hside1 hb1).2
        hz2 (beyond_of_bounds hb2) hx2 hne hz)
  cases isMin <;> exact hpick _ _ (by simp) (by simp)

end

section

variable (hrange : InRange value readable v1Min v1Max z1) (hconst : c.isConstantValue = true)
  (hc : c.MayBound value readable true z2) (hz2 : z2 = c.bConstant)

include hrange hconst hc hz2

theorem mulRangeAndConstant_mayBound :
    (mulRangeAndConstant v1Min v1Max c isMin).MayBound value readable isMin (z1 * z2) := by
  have heval : c.eval value = z2 := (eval_of_isConstantValue hconst).trans hz2.symm
  have hpick : mulRangeAndConstant v1Min v1Max c isMin =
      mulValue (extreme v1Min v1Max (isMin == decide (0 ≤ z2))) c := by
    rw [hz2]
    exact (apply_ite (mulValue · c) _ _ _).symm
  rw [hpick]
  intro hknown
  have hcomp : Value.Computes value .. := mulValue_computes hknown
  have hb := hrange.extreme_mayBound hcomp.left
  refine bounds_of_computes hcomp hb (hc hcomp.right) ?_
  rw [heval]
  exact mul_beyond (beyond_of_bounds hb) signed_decide signed_decide beyond_refl

theorem divRangeAndConstant_mayBound :
    (divRangeAndConstant v1Min v1Max c isMin).MayBound value readable isMin (z1.tdiv z2) := by
  have heval : c.eval value = z2 := (eval_of_isConstantValue hconst).trans hz2.symm
  have hpick : divRangeAndConstant v1Min v1Max c isMin =
      divValue (extreme v1Min v1Max (isMin == decide (0 ≤ z2))) c := by
    rw [hz2]
    exact (apply_ite (divValue · c) _ _ _).symm
  rw [hpick]
  intro hknown
  obtain ⟨hcomp, hne⟩ : Value.Computes value .. ∧ _ := divValue_computes hknown
  have hb := hrange.extreme_mayBound hcomp.left
  refine bounds_of_computes hcomp hb (hc hcomp.right) ?_
  rw [heval] at hne ⊢
  exact tdiv_beyond (beyond_of_bounds hb) signed_decide signed_decide beyond_refl signed_decide
    hne hne

end

section

variable (h1 : InRange value readable v1Min v1Max z1) (h2 : InRange value readable v2Min v2Max z2)

include h1 h2

theorem mulRange_mayBound :
    (mulRange v1Min v1Max v2Min v2Max isMin).MayBound value readable isMin (z1 * z2) := by
  have hsides := mulValue_extreme_mayBound h1 h2 isMin
  unfold mulRange
  split
  case isTrue hsame =>
    obtain ⟨hconst, heq⟩ := h1.eq_of_isSameConstantValue hsame
    rw [mul_comm]
    exact mulRangeAndConstant_mayBound h2 hconst h1.min heq
  split
  case isTrue hsame =>
    obtain ⟨hconst, heq⟩ := h2.eq_of_isSameConstantValue hsame
    exact mulRangeAndConstant_mayBound h1 hconst h2.min heq
  split
  case isTrue hpp => exact hsides true true ⟨hpp.1, hpp.2.1⟩ hpp.2.2
  split
  case isTrue hpn => exact hsides true false ⟨hpn.1, hpn.2.1⟩ hpn.2.2
  split
  case isTrue hnp => exact hsides false true ⟨hnp.1, hnp.2.1⟩ hnp.2.2
  split
  case isTrue hnn => exact hsides false false ⟨hnn.1, hnn.2.1⟩ hnn.2.2
  exact mayBound_unknown

theorem divRange_mayBound (hz : z2 ≠ 0) :
    (divRange v1Min v1Max v2Min v2Max isMin).MayBound value readable isMin (z1.tdiv z2) := by
  have hsides := fun p1 p2 => divValue_extreme_mayBound h1 h2 isMin p1 p2 hz
  unfold divRange
  split
  case isTrue hsame =>
    obtain ⟨hconst, heq⟩ := h2.eq_of_isSameConstantValue hsame
    exact divRangeAndConstant_mayBound h1 hconst h2.min heq
  split
  case isTrue hpp => exact hsides true true ⟨hpp.1, hpp.2.1⟩ hpp.2.2
  split
  case isTrue hpn => exact hsides true false ⟨hpn.1, hpn.2.1⟩ hpn.2.2
  split
  case isTrue hnp => exact hsides false true ⟨hnp.1, hnp.2.1⟩ hnp.2.2
  split
  case isTrue hnn => exact hsides false false ⟨hnn.1, hnn.2.1⟩ hnn.2.2
  exact mayBound_unknown

end

end InRange

end NougatArt.Induction
