import NougatArt.Induction.Info

/-!
# Range analysis of inductions

Bounds are kept in the form `a * instruction + b` with 32-bit constants. They
are computed by interval arithmetic over the description of an induction, where
the iteration number is bounded by the trip count of the loop, and are refined
with the inductions of the loops around it.

The recursion goes from a loop to other loops, so its depth is limited by a
parameter; a bound that needs more depth is unknown. A further parameter says
which values `RefineOuter` looks at. The compiler looks at all of them.
-/

namespace NougatArt.Induction

/-- Returns true if a 64-bit constant fits in a 32-bit constant. -/
def canLongValueFitIntoInt (value : ℤ) : Bool :=
  decide (PrimitiveType.int.Fits value)

/-- A bound `aConstant * instruction + bConstant`, or an unknown one, which names
no instruction. -/
structure Value where
  instruction : Option HInstruction
  aConstant : ℤ
  bConstant : ℤ
  isKnown : Bool
  instruction_eq_none : isKnown = false → instruction = none
  deriving DecidableEq, Repr

namespace Value

def unknown : Value := ⟨none, 0, 0, false, fun _ => rfl⟩

def known (instruction : Option HInstruction) (a b : ℤ) : Value :=
  ⟨if a = 0 then none else instruction, a, b, true, nofun⟩

def constant (b : ℤ) : Value := known none 0 b

def isConstantValue (v : Value) : Bool := v.isKnown && v.aConstant == 0

def isSameConstantValue (v1 v2 : Value) : Bool :=
  v1.isConstantValue && v2.isConstantValue && v1.bConstant == v2.bConstant

end Value

def isSafeAdd (c1 c2 : ℤ) : Bool := canLongValueFitIntoInt (c1 + c2)

def isSafeSub (c1 c2 : ℤ) : Bool := canLongValueFitIntoInt (c1 - c2)

def isSafeMul (c1 c2 : ℤ) : Bool := canLongValueFitIntoInt (c1 * c2)

def isSafeDiv (c1 c2 : ℤ) : Bool := c2 != 0 && canLongValueFitIntoInt (c1.tdiv c2)

def addValue (v1 v2 : Value) : Value :=
  if v1.isKnown && v2.isKnown && isSafeAdd v1.bConstant v2.bConstant then
    let b := v1.bConstant + v2.bConstant
    if v1.aConstant = 0 then
      .known v2.instruction v2.aConstant b
    else if v2.aConstant = 0 then
      .known v1.instruction v1.aConstant b
    else if v1.instruction = v2.instruction ∧ isSafeAdd v1.aConstant v2.aConstant then
      .known v1.instruction (v1.aConstant + v2.aConstant) b
    else .unknown
  else .unknown

def subValue (v1 v2 : Value) : Value :=
  if v1.isKnown && v2.isKnown && isSafeSub v1.bConstant v2.bConstant then
    let b := v1.bConstant - v2.bConstant
    if v1.aConstant = 0 ∧ isSafeSub 0 v2.aConstant then
      .known v2.instruction (-v2.aConstant) b
    else if v2.aConstant = 0 then
      .known v1.instruction v1.aConstant b
    else if v1.instruction = v2.instruction ∧ isSafeSub v1.aConstant v2.aConstant then
      .known v1.instruction (v1.aConstant - v2.aConstant) b
    else .unknown
  else .unknown

def mulValue (v1 v2 : Value) : Value :=
  if v1.isKnown && v2.isKnown then
    if v1.aConstant = 0 then
      if isSafeMul v1.bConstant v2.aConstant && isSafeMul v1.bConstant v2.bConstant then
        .known v2.instruction (v1.bConstant * v2.aConstant) (v1.bConstant * v2.bConstant)
      else .unknown
    else if v2.aConstant = 0 then
      if isSafeMul v1.aConstant v2.bConstant && isSafeMul v1.bConstant v2.bConstant then
        .known v1.instruction (v1.aConstant * v2.bConstant) (v1.bConstant * v2.bConstant)
      else .unknown
    else .unknown
  else .unknown

def divValue (v1 v2 : Value) : Value :=
  if v1.isKnown && v2.isKnown && v1.aConstant == 0 && v2.aConstant == 0 &&
      isSafeDiv v1.bConstant v2.bConstant then
    .constant (v1.bConstant.tdiv v2.bConstant)
  else .unknown

def mergeVal (v1 v2 : Value) (isMin : Bool) : Value :=
  if v1.isKnown && v2.isKnown && v1.instruction == v2.instruction &&
      v1.aConstant == v2.aConstant then
    .known v1.instruction v1.aConstant
      (if isMin then min v1.bConstant v2.bConstant else max v1.bConstant v2.bConstant)
  else .unknown

/-- Corrects a value for type to account for arithmetic wrap-around in lower precision. -/
def correctForType (v : Value) (type : PrimitiveType) : Value :=
  match type with
  | .short | .char | .byte =>
    if v.isConstantValue && decide (type.Fits v.bConstant) then v else .unknown
  | _ => v

def mulRangeAndConstant (vMin vMax c : Value) (isMin : Bool) : Value :=
  if isMin == decide (0 ≤ c.bConstant) then mulValue vMin c else mulValue vMax c

def divRangeAndConstant (vMin vMax c : Value) (isMin : Bool) : Value :=
  if isMin == decide (0 ≤ c.bConstant) then divValue vMin c else divValue vMax c

/-- `GetMul` on the extremes of its operands. -/
def mulRange (v1Min v1Max v2Min v2Max : Value) (isMin : Bool) : Value :=
  if v1Min.isSameConstantValue v1Max then
    mulRangeAndConstant v2Min v2Max v1Min isMin
  else if v2Min.isSameConstantValue v2Max then
    mulRangeAndConstant v1Min v1Max v2Min isMin
  -- Positive range vs. positive or negative range.
  else if v1Min.isConstantValue ∧ 0 ≤ v1Min.bConstant ∧
      v2Min.isConstantValue ∧ 0 ≤ v2Min.bConstant then
    if isMin then mulValue v1Min v2Min else mulValue v1Max v2Max
  else if v1Min.isConstantValue ∧ 0 ≤ v1Min.bConstant ∧
      v2Max.isConstantValue ∧ v2Max.bConstant ≤ 0 then
    if isMin then mulValue v1Max v2Min else mulValue v1Min v2Max
  -- Negative range vs. positive or negative range.
  else if v1Max.isConstantValue ∧ v1Max.bConstant ≤ 0 ∧
      v2Min.isConstantValue ∧ 0 ≤ v2Min.bConstant then
    if isMin then mulValue v1Min v2Max else mulValue v1Max v2Min
  else if v1Max.isConstantValue ∧ v1Max.bConstant ≤ 0 ∧
      v2Max.isConstantValue ∧ v2Max.bConstant ≤ 0 then
    if isMin then mulValue v1Max v2Max else mulValue v1Min v2Min
  else .unknown

/-- `GetDiv` on the extremes of its operands. -/
def divRange (v1Min v1Max v2Min v2Max : Value) (isMin : Bool) : Value :=
  if v2Min.isSameConstantValue v2Max then
    divRangeAndConstant v1Min v1Max v2Min isMin
  -- Positive range vs. positive or negative range.
  else if v1Min.isConstantValue ∧ 0 ≤ v1Min.bConstant ∧
      v2Min.isConstantValue ∧ 0 ≤ v2Min.bConstant then
    if isMin then divValue v1Min v2Max else divValue v1Max v2Min
  else if v1Min.isConstantValue ∧ 0 ≤ v1Min.bConstant ∧
      v2Max.isConstantValue ∧ v2Max.bConstant ≤ 0 then
    if isMin then divValue v1Max v2Max else divValue v1Min v2Min
  -- Negative range vs. positive or negative range.
  else if v1Max.isConstantValue ∧ v1Max.bConstant ≤ 0 ∧
      v2Min.isConstantValue ∧ 0 ≤ v2Min.bConstant then
    if isMin then divValue v1Min v2Min else divValue v1Max v2Max
  else if v1Max.isConstantValue ∧ v1Max.bConstant ≤ 0 ∧
      v2Max.isConstantValue ∧ v2Max.bConstant ≤ 0 then
    if isMin then divValue v1Max v2Min else divValue v1Min v2Max
  else .unknown

inductive FetchStep
  | constant (value : ℤ)
  | constantPlus (value : ℤ) (rest : HInstruction)
  | plusConstant (rest : HInstruction) (value : ℤ)
  | same (rest : HInstruction)
  /-- The fetch ends at the instruction. -/
  | stop
  /-- The fetch ends at the instruction, which may be the trip count. -/
  | leaf
  deriving DecidableEq, Repr

/-- The constant of a constant instruction that fits in 32 bits. -/
def getIntConstant (instruction : HInstruction) : Option ℤ :=
  (isIntAndGet instruction).filter canLongValueFitIntoInt

namespace HGraph

variable (graph : HGraph)

/-- The length operand of the allocation that defines an array. -/
def newArrayLength : HInstruction → Option HInstruction
  | .node id =>
    match (graph.node id).kind, (graph.node id).inputs with
    | .newArray, length :: _ => some length
    | _, _ => none
  | _ => none

def fetchStep (instruction : HInstruction) : FetchStep :=
  match getIntConstant instruction with
  | some value => .constant value
  | none =>
    match instruction with
    | .node id =>
      match (graph.node id).kind, (graph.node id).inputs with
      | .add, [x, y] =>
        match getIntConstant x, getIntConstant y with
        | some value, _ => .constantPlus value y
        | none, some value => .plusConstant x value
        | none, none => .stop
      | .arrayLength, [array] =>
        match graph.newArrayLength array with
        | some length => .same length
        | none => .leaf
      | .typeConversion, [input] =>
        -- Since analysis is 32-bit (or narrower) a widening is allowed along the path.
        if graph.typeOf input = .int ∧ (graph.node id).type = .long then
          .same input
        else .stop
      | _, _ => .leaf
    | _ => .leaf

end HGraph

/-- The instruction that is the trip count, if the trip count is a fetch. -/
def TripCount.fetch? (trip : TripCount) : Option HInstruction :=
  match trip.count with
  | .fetch instruction _ => some instruction
  | _ => none

def getFetch (graph : HGraph) (trip : Option TripCount) (inBody isMin : Bool) :
    ℕ → HInstruction → Value
  | 0, _ => .unknown
  | depth + 1, instruction =>
    match graph.fetchStep instruction with
    | .constant value => .constant value
    | .constantPlus value rest =>
      addValue (.constant value) (getFetch graph trip inBody isMin depth rest)
    | .plusConstant rest value =>
      addValue (getFetch graph trip inBody isMin depth rest) (.constant value)
    | .same rest => getFetch graph trip inBody isMin depth rest
    | .stop => .known (some instruction) 1 0
    | .leaf =>
      -- The minimum of the trip-count in the loop-body is 1.
      if isMin ∧ inBody ∧ trip.bind TripCount.fetch? = some instruction then .constant 1
      else .known (some instruction) 1 0

def TripKind.isUnsafe : TripKind → Bool
  | .inLoopUnsafe | .inBodyUnsafe => true
  | .inLoop | .inBody => false

def TripKind.isInLoop : TripKind → Bool
  | .inLoop | .inLoopUnsafe => true
  | .inBody | .inBodyUnsafe => false

/-- The bound on the iteration number, from a bound on the trip count. -/
def tripVal (kind : TripKind) (count : Value) (inBody isMin : Bool) : Value :=
  if kind.isInLoop ∧ !inBody ∧ !isMin then count
  else if isMin then .constant 0
  else if inBody then subValue count (.constant 1)
  else .unknown

inductive ConstantRequest
  | exact
  | atMost
  | atLeast
  deriving DecidableEq, Repr

/-- The constant that the extremes of a range give for a request. -/
def ConstantRequest.answer (request : ConstantRequest) (vMin vMax : Value) : Option ℤ :=
  if vMin.isConstantValue ∧ vMax.isConstantValue ∧ vMin.bConstant ≤ vMax.bConstant then
    match request with
    | .exact => if vMin.bConstant = vMax.bConstant then some vMax.bConstant else none
    | .atMost => some vMax.bConstant
    | .atLeast => some vMin.bConstant
  else none

namespace HGraph

def isArrayLength (graph : HGraph) : HInstruction → Bool
  | .node id => (graph.node id).kind == .arrayLength
  | _ => false

end HGraph

/-- `array length + c >= c`, with `c <= 0` to avoid arithmetic wrap-around anomalies. -/
def ConstantRequest.arrayLengthAnswer (request : ConstantRequest) (graph : HGraph)
    (vMin : Value) : Option ℤ :=
  if request = .atLeast ∧ vMin.aConstant = 1 ∧ vMin.bConstant ≤ 0 ∧
      vMin.instruction.any graph.isArrayLength then
    some vMin.bConstant
  else none

/-- `RefineOuter` on both extremes, given the refinement of one value; `none` if
nothing changes. -/
def refineBoth (refine : Value → Bool → Value) (vMin vMax : Value) : Option (Value × Value) :=
  if vMin.instruction = none ∧ vMax.instruction = none then none
  else
    let v1Min := refine vMin true
    let v2Max := refine vMax false
    -- The refined range is safe if both sides refine the same instruction.
    let anomaly : Bool := vMin.instruction != vMax.instruction &&
        let v1Max := refine vMin false
        let v2Min := refine vMax true
        !v1Max.isConstantValue || !v2Min.isConstantValue ||
          decide (v2Min.bConstant < v1Max.bConstant)
    if anomaly then none
    else if v1Min.instruction ≠ vMin.instruction ∨ v2Max.instruction ≠ vMax.instruction then
      some (v1Min, v2Max)
    else none

/-- The loop of `IsConstant`: ask, refine and ask again. -/
def askConstant (graph : HGraph) (refine : Value → Bool → Value) (request : ConstantRequest) :
    ℕ → Value → Value → Option ℤ
  | 0, _, _ => none
  | depth + 1, vMin, vMax =>
    match request.answer vMin vMax with
    | some value => some value
    | none =>
      match refineBoth refine vMin vMax with
      | some (vMin', vMax') => askConstant graph refine request depth vMin' vMax'
      | none => request.arrayLengthAnswer graph vMin

/-- The trip count that remains if an offset inside the trip count cancels out:
`a * (TC - 1) + OFFSET` for `a == 1` and `TC = UPPER - OFFSET`, or for `a == -1`
and `TC = OFFSET - UPPER`. -/
def cancelledTrip (trip : Option TripCount) (stride : Option ℤ) (offset : Invariant)
    (isMin : Bool) : Option (TripKind × Invariant) :=
  match trip with
  | some ⟨kind, .op .sub positive negative _, _, type⟩ =>
    if isMin = false ∧ stride = some 1 then
      -- Analyze cancelled trip with just the positive operand.
      if negative = offset then some (kind, positive) else none
    else if isMin = true ∧ stride = some (-1) then
      -- Analyze cancelled trip with just the negative operand.
      if positive = offset then some (kind, .neg negative type) else none
    else none
  | _ => none

def Invariant.constantFetch : Invariant → Option ℤ
  | fetch instruction _ => isIntAndGet instruction
  | op .. | neg .. => none

section

variable (analysis : InductionAnalysis) (admits : Value → Bool)

mutual

/-- `GetVal` of an invariant. -/
def getInvariant : ℕ → Invariant → Option TripCount → Bool → Bool → Value
  | 0, _, _, _, _ => .unknown
  | depth + 1, expression, trip, inBody, isMin =>
    match expression with
    | .op .add a b _ => addValue (getInvariant depth a trip inBody isMin)
        (getInvariant depth b trip inBody isMin)
    | .op .sub a b _ =>  -- second reversed!
        subValue (getInvariant depth a trip inBody isMin) (getInvariant depth b trip inBody !isMin)
    | .neg b _ =>  -- second reversed!
        subValue (.constant 0) (getInvariant depth b trip inBody !isMin)
    | .op .mul a b _ => getMul depth a (getInvariant depth b trip inBody true)
        (getInvariant depth b trip inBody false) trip inBody isMin
    | .op .div a b _ => divRange (getInvariant depth a trip inBody true)
        (getInvariant depth a trip inBody false)
        (getInvariant depth b trip inBody true)
        (getInvariant depth b trip inBody false) isMin
    | .fetch instruction _ => getFetch analysis.graph trip inBody isMin depth instruction
    | .op _ _ _ _ => .unknown

/-- `GetVal` of a trip count. -/
def getTrip : ℕ → TripKind → Invariant → Option TripCount → Bool → Bool → Value
  | 0, _, _, _, _, _ => .unknown
  | depth + 1, kind, count, trip, inBody, isMin =>
    tripVal kind (getInvariant depth count trip inBody isMin) inBody isMin

/-- `GetMul` of an invariant and a range. -/
def getMul : ℕ → Invariant → Value → Value → Option TripCount → Bool → Bool → Value
  | 0, _, _, _, _, _, _ => .unknown
  | depth + 1, info1, v2Min, v2Max, trip, inBody, isMin =>
    let v1Min := getInvariant depth info1 trip inBody true
    let v1Max := getInvariant depth info1 trip inBody false
    -- Try to refine first operand.
    let v1 :=
      if !v1Min.isConstantValue && !v1Max.isConstantValue then
        (refineBoth (refineOuter depth) v1Min v1Max).getD (v1Min, v1Max)
      else (v1Min, v1Max)
    mulRange v1.1 v1.2 v2Min v2Max isMin

def getLinear : ℕ → Invariant → Invariant → Option TripCount → Bool → Bool → Value
  | 0, _, _, _, _, _ => .unknown
  | depth + 1, a, b, trip, inBody, isMin =>
    match cancelledTrip trip (isConstant depth a .exact) b isMin with
    | some (kind, count) =>
      if isMin then
        subValue (.constant 0) (getTrip depth kind count trip inBody !isMin)
      else getTrip depth kind count trip inBody isMin
    | none =>
      -- General rule of linear induction a * i + b, for normalized 0 <= i < TC.
      addValue
        (getMul depth a (trip.elim .unknown fun t => getTrip depth t.kind t.count trip inBody true)
          (trip.elim .unknown fun t => getTrip depth t.kind t.count trip inBody false)
          trip inBody isMin)
        (getInvariant depth b trip inBody isMin)

/-- `GetVal` of a periodic induction. -/
def getPeriodic : ℕ → Periodic → Option TripCount → Bool → Bool → Value
  | 0, _, _, _, _ => .unknown
  | depth + 1, cycle, trip, inBody, isMin =>
    match cycle with
    | .last a b _ => mergeVal (getInvariant depth a trip inBody isMin)
        (getInvariant depth b trip inBody isMin) isMin
    | .cons a b _ => mergeVal (getInvariant depth a trip inBody isMin)
        (getPeriodic depth b trip inBody isMin) isMin

def getVal : ℕ → InductionInfo → Option TripCount → Bool → Bool → Value
  | 0, _, _, _, _ => .unknown
  | depth + 1, info, trip, inBody, isMin =>
    match info with
    | .invariant expression => getInvariant depth expression trip inBody isMin
    | .linear a b type => correctForType (getLinear depth a b trip inBody isMin) type
    | .wrapAround a b _ => mergeVal (getInvariant depth a trip inBody isMin)
        (getVal depth b trip inBody isMin) isMin
    | .periodic cycle => getPeriodic depth cycle trip inBody isMin

/-- `RefineOuter` of one value. -/
def refineOuter : ℕ → Value → Bool → Value
  | 0, _, _ => .unknown
  | depth + 1, v, isMin =>
    if admits v then
      match v.instruction with
      | none => v  -- nothing to refine
      | some instruction =>
        match analysis.graph.loopInformation instruction with
        | none => v  -- no loop
        | some loop =>
          match analysis.lookupInfo loop instruction with
          | none => v  -- no induction information
          | some info =>
            -- inner always in more outer
            addValue (mulValue (.constant v.aConstant)
                (getVal depth info (analysis.tripCount loop) true isMin))
              (.constant v.bConstant)
    else v

def isConstant : ℕ → Invariant → ConstantRequest → Option ℤ
  | 0, _, _ => none
  | depth + 1, info, request =>
    match info.constantFetch with
    | some value => some value
    | none =>
      -- no known trip count
      askConstant analysis.graph (refineOuter depth) request depth
        (getInvariant depth info none true true) (getInvariant depth info none true false)

end

end

/-- The array length and the constant of a division of an array length. -/
def HGraph.arrayLengthDivision (graph : HGraph) : HInstruction → Option (HInstruction × ℤ)
  | .node id =>
    match (graph.node id).kind, (graph.node id).inputs with
    | .div, [length, divisor] =>
      if graph.isArrayLength length then (isIntAndGet divisor).map (length, ·) else none
    | _, _ => none
  | _ => none

/-- An upper bound `a * (length / a) + b`, where `a >= 1`, is rewritten as
`length + b`. -/
def simplifyMax (graph : HGraph) (v : Value) : Value :=
  match v.instruction.bind graph.arrayLengthDivision with
  | some (length, divisor) =>
    if v.isKnown ∧ 1 ≤ v.aConstant ∧ v.aConstant = divisor then
      .known (some length) 1 v.bConstant
    else v
  | none => v

namespace InductionInfo

def needsTripCount : InductionInfo → Bool
  | linear .. => true
  | wrapAround _ b _ => b.needsTripCount
  | invariant _ | periodic _ => false

end InductionInfo

def isUnsafeTripCount (trip : Option TripCount) : Bool := trip.any fun trip => trip.kind.isUnsafe

structure InductionRange where
  minVal : Value
  maxVal : Value
  needsFiniteTest : Bool
  deriving DecidableEq, Repr

/-- The types of which `GetInductionRange` analyses the inductions. -/
def isIntOrLower : PrimitiveType → Bool
  | .int | .short | .char | .byte => true
  | _ => false

def getInductionRange (analysis : InductionAnalysis) (admits : Value → Bool) (depth : ℕ)
    (context : ℕ) (instruction : HInstruction) : Option InductionRange := do
  let block := (analysis.graph.node context).block
  let loop ← analysis.graph.loopOf block
  let info ← analysis.lookupInfo loop instruction
  guard (isIntOrLower info.type)
  -- Set up loop information.
  let inBody := block != (analysis.graph.loop loop).header
  let trip := analysis.tripCount loop
  -- Find range.
  return {
    minVal := getVal analysis admits depth info trip inBody true
    maxVal := simplifyMax analysis.graph (getVal analysis admits depth info trip inBody false)
    needsFiniteTest := info.needsTripCount && isUnsafeTripCount trip }

end NougatArt.Induction
