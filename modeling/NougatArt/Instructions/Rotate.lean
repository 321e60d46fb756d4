import Mathlib

/-!
# Recognition of rotates

This is `TryReplaceWithRotate`. A value is shifted to the right and to the left by distances whose
sum is known to be a multiple of its width, and the results are combined by an addition, an
exclusive or an inclusive disjunction. The whole is replaced by a rotate to the right.
-/

namespace NougatArt.Rotate

open BitVec

inductive RegisterType
  | int
  | long
  deriving DecidableEq, Repr

def RegisterType.regBits : RegisterType → ℕ
  | int => 32
  | long => 64

inductive Operator
  | add
  | or
  | xor
  deriving DecidableEq, Repr

def Operator.compute {width : ℕ} : Operator → BitVec width → BitVec width → BitVec width
  | add, left, right => left + right
  | or, left, right => left ||| right
  | xor, left, right => left ^^^ right

/-- The instructions that the recognition looks at. Constants, negations and differences occur
in it as distances of shifts only, which are of type `int`. -/
inductive Kind
  | intConstant (value : BitVec 32)
  | neg (input : ℕ)
  | sub (left right : ℕ)
  | shl (left right : ℕ)
  | ushr (left right : ℕ)
  | ror (left right : ℕ)
  | binary (operator : Operator) (left right : ℕ)
  | other
  deriving DecidableEq, Repr

structure HGraph where
  kind : ℕ → Kind
  type : ℕ → RegisterType
  operands_type : ∀ {insn operator left right}, kind insn = .binary operator left right →
    type left = type insn ∧ type right = type insn

def shiftDistance (type : RegisterType) (distance : BitVec 32) : ℕ :=
  (distance &&& BitVec.ofNat 32 (type.regBits - 1)).toNat

section Compute

variable (type : RegisterType) (value : BitVec type.regBits) (distance : BitVec 32)

def shl : BitVec type.regBits := value <<< shiftDistance type distance

def ushr : BitVec type.regBits := value >>> shiftDistance type distance

def ror : BitVec type.regBits :=
  if shiftDistance type distance = 0 then value
  else value >>> shiftDistance type distance |||
    value <<< (type.regBits - shiftDistance type distance)

end Compute

/-- The values of the instructions of either type at one point of an execution. -/
structure Values where
  int : ℕ → BitVec 32
  long : ℕ → BitVec 64

def Values.of (values : Values) : (type : RegisterType) → ℕ → BitVec type.regBits
  | .int => values.int
  | .long => values.long

namespace HGraph

variable (graph : HGraph)

/-- Every instruction has the value that it computes from its operands. -/
structure Computes (values : Values) : Prop where
  intConstant : ∀ {insn value}, graph.kind insn = .intConstant value → values.int insn = value
  neg : ∀ {insn input}, graph.kind insn = .neg input → values.int insn = -values.int input
  sub : ∀ {insn left right}, graph.kind insn = .sub left right →
    values.int insn = values.int left - values.int right
  shl : ∀ {insn left right}, graph.kind insn = .shl left right → values.of (graph.type insn) insn =
      Rotate.shl _ (values.of (graph.type insn) left) (values.int right)
  ushr : ∀ {insn left right}, graph.kind insn = .ushr left right →
    values.of (graph.type insn) insn =
      Rotate.ushr _ (values.of (graph.type insn) left) (values.int right)
  binary : ∀ {insn operator left right}, graph.kind insn = .binary operator left right →
    values.of (graph.type insn) insn =
      operator.compute (values.of (graph.type insn) left) (values.of (graph.type insn) right)

def isSubRegBitsMinusOther (type : RegisterType) (sub other : ℕ) : Bool :=
  match graph.kind sub with
  | .sub left right =>
    right = other && match graph.kind left with
      | .intConstant value => value.toInt % type.regBits = 0
      | _ => false
  | _ => false

/-- Whether the distances add up to a multiple of the width, by one of the patterns for
constants, differences and negations. -/
def matchesDistances (type : RegisterType) (ushrShift shlShift : ℕ) : Bool :=
  match graph.kind ushrShift, graph.kind shlShift with
  | .intConstant rdist, .intConstant ldist => (ldist.toInt + rdist.toInt) % type.regBits = 0
  | .sub _ _, _ | _, .sub _ _ => graph.isSubRegBitsMinusOther type shlShift ushrShift ||
      graph.isSubRegBitsMinusOther type ushrShift shlShift
  | _, .neg input => input = ushrShift
  | .neg input, _ => input = shlShift
  | _, _ => false

/-- `ReplaceRotateWithRor`, if the shifts are those of a rotate. -/
def replaceShifts (ushr ushrValue ushrShift shl shlValue shlShift : ℕ) : Option Kind :=
  if graph.type ushr = graph.type shl ∧ ushrValue = shlValue ∧
      graph.matchesDistances (graph.type ushr) ushrShift shlShift = true then
    some (.ror ushrValue ushrShift)
  else none

/-- `TryReplaceWithRotate`: what the instruction is replaced by. -/
def tryReplaceWithRotate (insn : ℕ) : Option Kind :=
  match graph.kind insn with
  | .binary _ left right =>
    match graph.kind left, graph.kind right with
    | .ushr x r, .shl x' l => graph.replaceShifts left x r right x' l
    | .shl x' l, .ushr x r => graph.replaceShifts right x r left x' l
    | _, _ => none
  | _ => none

end HGraph

variable {type : RegisterType} {left right : BitVec 32} {width : ℕ}

theorem shiftDistance_eq (type : RegisterType) (distance : BitVec 32) :
    shiftDistance type distance = distance.toNat % type.regBits := by
  cases type with
  | int => exact Nat.and_two_pow_sub_one_eq_mod _ 5
  | long => exact Nat.and_two_pow_sub_one_eq_mod _ 6

theorem shiftDistance_lt (type : RegisterType) (distance : BitVec 32) :
    shiftDistance type distance < type.regBits := by
  rw [shiftDistance_eq]
  cases type <;> exact Nat.mod_lt _ (by decide)

def Opposite (type : RegisterType) (left right : BitVec 32) : Prop :=
  (shiftDistance type left + shiftDistance type right) % type.regBits = 0

theorem Opposite.symm (h : Opposite type left right) : Opposite type right left := by
  rw [Opposite, Nat.add_comm]
  exact h

theorem opposite_sub {bits distance : BitVec 32} (hbits : bits.toInt % type.regBits = 0) :
    Opposite type (bits - distance) distance := by
  rw [Opposite, shiftDistance_eq, shiftDistance_eq, toNat_sub]
  rw [toInt_eq_toNat_cond] at hbits
  cases type <;> simp only [RegisterType.regBits] at hbits ⊢ <;> omega

theorem opposite_neg (distance : BitVec 32) : Opposite type (-distance) distance := by
  rw [← zero_sub]
  exact opposite_sub (by cases type <;> decide)

namespace HGraph

variable {graph : HGraph} {values : Values} {ushrShift shlShift : ℕ}

theorem opposite_of_isSub (hvalues : graph.Computes values) {sub other : ℕ}
    (hsub : graph.isSubRegBitsMinusOther type sub other) :
    Opposite type (values.int sub) (values.int other) := by
  rw [isSubRegBitsMinusOther] at hsub
  split at hsub
  case h_1 left right hkind =>
    obtain ⟨hother, hbits⟩ := Bool.and_eq_true_iff.mp hsub
    split at hbits
    case h_1 bits hconst =>
      rw [hvalues.sub hkind, hvalues.intConstant hconst, of_decide_eq_true hother]
      exact opposite_sub (of_decide_eq_true hbits)
    case h_2 => cases hbits
  case h_2 => cases hsub

theorem opposite_of_matches (hvalues : graph.Computes values)
    (hmatch : graph.matchesDistances type ushrShift shlShift) :
    Opposite type (values.int ushrShift) (values.int shlShift) := by
  have hdifference : (graph.isSubRegBitsMinusOther type shlShift ushrShift ||
      graph.isSubRegBitsMinusOther type ushrShift shlShift) = true →
      Opposite type (values.int ushrShift) (values.int shlShift) := by
    intro hsub
    obtain hsub | hsub := Bool.or_eq_true_iff.mp hsub
    · exact (opposite_of_isSub hvalues hsub).symm
    · exact opposite_of_isSub hvalues hsub
  rw [matchesDistances] at hmatch
  split at hmatch
  case h_1 rdist ldist hrdist hldist =>
    have hsum := of_decide_eq_true hmatch
    rw [hvalues.intConstant hrdist, hvalues.intConstant hldist, Opposite, shiftDistance_eq,
      shiftDistance_eq]
    rw [toInt_eq_toNat_cond, toInt_eq_toNat_cond] at hsum
    cases type <;> simp only [RegisterType.regBits] at hsum ⊢ <;> omega
  case h_2 => exact hdifference hmatch
  case h_3 => exact hdifference hmatch
  case h_4 input hkind _ =>
    rw [hvalues.neg hkind, of_decide_eq_true hmatch]
    exact (opposite_neg _).symm
  case h_5 input hkind _ _ =>
    rw [hvalues.neg hkind, of_decide_eq_true hmatch]
    exact opposite_neg _
  case h_6 => cases hmatch

end HGraph

theorem Operator.compute_comm (operator : Operator) (left right : BitVec width) :
    operator.compute left right = operator.compute right left := by
  cases operator with
  | add => exact add_comm ..
  | or => exact or_comm ..
  | xor => exact BitVec.xor_comm ..

/-- The operators agree on numbers without a common bit. -/
theorem Operator.compute_of_disjoint (operator : Operator) {left right : BitVec width}
    (hdisjoint : left &&& right = BitVec.ofNat width 0) :
    operator.compute left right = left ||| right := by
  cases operator with
  | add => exact add_eq_or_of_and_eq_zero _ _ hdisjoint
  | or => rfl
  | xor =>
    ext i hi
    have hbit := congrArg (fun bits => bits.getLsbD i) hdisjoint
    simp only [getLsbD_and, getLsbD_zero] at hbit
    simp only [compute, getElem_xor, getElem_or]
    rw [← getLsbD_eq_getElem, ← getLsbD_eq_getElem]
    revert hbit
    cases left.getLsbD i <;> cases right.getLsbD i <;> decide

theorem ushr_and_shl (value : BitVec width) (distance : ℕ) :
    value >>> distance &&& value <<< (width - distance) = BitVec.ofNat width 0 := by
  ext i hi
  simp only [BitVec.getElem_and, BitVec.getElem_ushiftRight, BitVec.getElem_shiftLeft,
    BitVec.getElem_zero, Bool.and_eq_false_iff]
  by_cases hlow : i < width - distance
  · right
    simp [hlow]
  · left
    exact getLsbD_of_ge _ _ (by omega)

/-- By opposite distances the operators rotate, unless both distances vanish. -/
theorem compute_shifts_iff (operator : Operator) (value : BitVec type.regBits)
    (hopposite : Opposite type right left) :
    operator.compute (ushr type value right) (shl type value left) = ror type value right ↔
      operator = .or ∨ shiftDistance type right ≠ 0 ∨ value = 0#_ := by
  have hleft := shiftDistance_lt type left
  have hright := shiftDistance_lt type right
  rw [Opposite] at hopposite
  rw [ushr, shl, ror]
  by_cases hzero : shiftDistance type right = 0
  · have hzero' : shiftDistance type left = 0 := by
      rwa [hzero, Nat.zero_add, Nat.mod_eq_of_lt hleft] at hopposite
    simp only [hzero, hzero', BitVec.shiftLeft_zero, BitVec.ushiftRight_zero, if_true]
    cases operator with
    | add | or => simp [Operator.compute]
    | xor => simp [Operator.compute, eq_comm (a := 0#_)]
  · have hwidth : shiftDistance type left = type.regBits - shiftDistance type right := by
      have hsum :=
        Nat.eq_of_dvd_of_lt_two_mul (by omega) (Nat.dvd_of_mod_eq_zero hopposite) (by omega)
      omega
    rw [if_neg hzero, hwidth]
    rw [operator.compute_of_disjoint (ushr_and_shl value _)]
    simp [hzero]

section Replaced

variable {graph : HGraph} {values : Values} {insn left right : ℕ} {operator : Operator}

theorem replaceShifts_iff (hvalues : graph.Computes values) {ushr x r shl x' l : ℕ} {kind : Kind}
    (hushr : graph.kind ushr = .ushr x r) (hshl : graph.kind shl = .shl x' l)
    (htype : graph.type ushr = type)
    (hreplace : graph.replaceShifts ushr x r shl x' l = some kind) :
    kind = .ror x r ∧ (operator.compute (values.of type ushr) (values.of type shl) =
        ror type (values.of type x) (values.int r) ↔
      operator = .or ∨ shiftDistance type (values.int r) ≠ 0 ∨ values.of type x = 0#_) := by
  have hushrValue := hvalues.ushr hushr
  have hshlValue := hvalues.shl hshl
  obtain ⟨⟨hsame, rfl, hmatch⟩, hsome⟩ := Option.ite_none_right_eq_some.mp hreplace
  rw [← hsame] at hshlValue
  rw [htype] at hushrValue hshlValue hmatch
  refine ⟨(Option.some.inj hsome).symm, ?_⟩
  rw [hushrValue, hshlValue]
  exact compute_shifts_iff operator _ (HGraph.opposite_of_matches hvalues hmatch)

/-- The rotate has the value of the replaced instruction if and only if the operator is the
inclusive disjunction, the distance is no multiple of the width, or the value is zero. -/
theorem tryReplaceWithRotate_preserves_iff (hvalues : graph.Computes values) {kind : Kind}
    (hinsn : graph.kind insn = .binary operator left right)
    (htry : graph.tryReplaceWithRotate insn = some kind) :
    ∃ value distance, kind = .ror value distance ∧ (values.of (graph.type insn) insn =
          ror _ (values.of (graph.type insn) value) (values.int distance) ↔
        operator = .or ∨ shiftDistance (graph.type insn) (values.int distance) ≠ 0 ∨
          values.of (graph.type insn) value = 0#_) := by
  obtain ⟨hleft, hright⟩ := graph.operands_type hinsn
  rw [HGraph.tryReplaceWithRotate, hinsn] at htry
  dsimp only at htry
  rw [hvalues.binary hinsn]
  split at htry
  case h_1 x r x' l hushr hshl =>
    exact ⟨x, r, replaceShifts_iff hvalues hushr hshl hleft htry⟩
  case h_2 x' l x r hshl hushr =>
    rw [operator.compute_comm]
    exact ⟨x, r, replaceShifts_iff hvalues hushr hshl hright htry⟩
  case h_3 => cases htry

end Replaced

/-- `(x >>> d) OP (x << -d)`: 0 is `x`, 1 is `d`. -/
def negatedDistance (operator : Operator) : HGraph where
  kind
    | 2 => .neg 1
    | 3 => .ushr 0 1
    | 4 => .shl 0 2
    | 5 => .binary operator 3 4
    | _ => .other
  type _ := .int
  operands_type _ := ⟨rfl, rfl⟩

def valuesOfOne (operator : Operator) (distance : BitVec 32) : Values where
  int
    | 0 => 1
    | 1 => distance
    | 2 => -distance
    | 3 => ushr .int 1 distance
    | 4 => shl .int 1 (-distance)
    | 5 => operator.compute (ushr .int 1 distance) (shl .int 1 (-distance))
    | _ => 0
  long _ := 0

theorem negatedDistance_computes (operator : Operator) (distance : BitVec 32) :
    (negatedDistance operator).Computes (valuesOfOne operator distance) := by
  constructor <;> rintro (_ | _ | _ | _ | _ | _ | insn) <;> intros <;> rename_i hkind <;>
    cases hkind <;> rfl

theorem tryReplaceWithRotate_preserves_byOne :
    ∃ value distance, Kind.ror 0 1 = .ror value distance ∧ ((valuesOfOne .xor 1).of .int 5 =
          ror _ ((valuesOfOne .xor 1).of .int value) ((valuesOfOne .xor 1).int distance) ↔
        Operator.xor = .or ∨ shiftDistance .int ((valuesOfOne .xor 1).int distance) ≠ 0 ∨
          (valuesOfOne .xor 1).of .int value = 0#_) :=
  tryReplaceWithRotate_preserves_iff (negatedDistance_computes .xor 1) rfl rfl

/-- With the distance 0 the sum is twice the value, and the rotate is the value. -/
theorem rotate_by_zero_differs : (negatedDistance .add).Computes (valuesOfOne .add 0) ∧
      (negatedDistance .add).tryReplaceWithRotate 5 = some (.ror 0 1) ∧
      (valuesOfOne .add 0).int 5 = 2 ∧
      ror .int ((valuesOfOne .add 0).int 0) ((valuesOfOne .add 0).int 1) = 1 :=
  ⟨negatedDistance_computes .add 0, rfl, by decide, by decide⟩

end NougatArt.Rotate
