import NougatArt.Core.NaturalLoop
import NougatArt.Hir.Types

/-!
# Induction variables and the bound information of a loop

This is the integral part of `HFindInductionVariables` and of
`HLoopInformation_X86::ComputeBoundInformation`: the detection of basic
induction variables, the recognition of the exit test, and the formula for the
number of increments. The instructions are those these functions look at; all
other instructions are `other`. A graph carries the facts every SSA graph
satisfies: operands dominate their users, a block that ends in an `HIf` has two
successors, and binary operations and phis are typed by the kind of their
operands.
-/

namespace NougatArt

/-- `HPhi::ToPhiType`: the small integral types are computed as `int`. -/
def PrimitiveType.kind : PrimitiveType → PrimitiveType
  | .boolean | .byte | .char | .short | .int => .int
  | other => other

@[simp]
theorem PrimitiveType.kind_kind (type : PrimitiveType) : type.kind.kind = type.kind := by
  cases type <;> rfl

namespace LoopBound

inductive Kind
  | phi
  | intConstant (value : BitVec 32)
  | longConstant (value : BitVec 64)
  | add
  | typeConversion
  | compare
  | condition (comparison : IfCondition)
  | ifInsn
  | other
  deriving DecidableEq

def Kind.constantType : Kind → Option PrimitiveType
  | .intConstant _ => some .int
  | .longConstant _ => some .long
  | _ => none

structure HInstruction (blocks insns : ℕ) where
  kind : Kind
  type : PrimitiveType
  inputs : List (Fin insns)
  block : Fin blocks

structure HGraph (blocks insns : ℕ) where
  flow : FlowGraph (Fin blocks)
  predecessors : Fin blocks → List (Fin blocks)
  instruction : Fin insns → HInstruction blocks insns
  phis : Fin blocks → List (Fin insns)
  lastInstruction : Fin blocks → Fin insns
  mem_predecessors : ∀ source target, source ∈ predecessors target ↔ target ∈ flow.succs source
  predecessors_entry : predecessors flow.entry = []
  block_lastInstruction : ∀ block, (instruction (lastInstruction block)).block = block
  if_successors : ∀ block, (instruction (lastInstruction block)).kind = .ifInsn →
    (flow.succs block).length = 2
  kind_phis : ∀ block, ∀ phi ∈ phis block, (instruction phi).kind = .phi
  operands_dominate : ∀ insn, (instruction insn).kind ≠ .phi → ∀ input ∈ (instruction insn).inputs,
      flow.Dominates (instruction input).block (instruction insn).block
  operand_types : ∀ insn, (instruction insn).kind = .phi ∨ (instruction insn).kind = .add →
    ∀ input ∈ (instruction insn).inputs, (instruction input).type.kind = (instruction insn).type
  constant_types : ∀ insn, (instruction insn).kind.constantType = none ∨
    (instruction insn).kind.constantType = some (instruction insn).type

variable {blocks insns : ℕ}

namespace HGraph

variable (graph : HGraph blocks insns)

def kind (insn : Fin insns) : Kind := (graph.instruction insn).kind

def type (insn : Fin insns) : PrimitiveType := (graph.instruction insn).type

def block (insn : Fin insns) : Fin blocks := (graph.instruction insn).block

def inputAt (insn : Fin insns) (index : ℕ) : Option (Fin insns) :=
  (graph.instruction insn).inputs[index]?

/-- `GetIntConstantValue`, together with `AsConstant`: floating-point constants
are outside of this model. -/
def getIntConstantValue (insn : Fin insns) : Option ℤ :=
  match graph.kind insn with
  | .intConstant value => some value.toInt
  | .longConstant value => some value.toInt
  | _ => none

/-- `HBinaryOperation::GetConstantRight` of a commutative operation. -/
def getConstantRight (insn : Fin insns) : Option (Fin insns) := do
  let left ← graph.inputAt insn 0
  let right ← graph.inputAt insn 1
  if (graph.getIntConstantValue right).isSome then
    some right
  else if (graph.getIntConstantValue left).isSome then
    some left
  else
    none

def getCompareInstruction (insn : Fin insns) : Option (Fin insns) := do
  let first ← graph.inputAt insn 0
  let second ← graph.inputAt insn 1
  if graph.kind first = .compare then
    some first
  else if graph.kind second = .compare then
    some second
  else
    some insn

/-- The operand of a type conversion, and any other instruction itself. -/
def skipTypeConversion (insn : Fin insns) : Option (Fin insns) :=
  if graph.kind insn = .typeConversion then graph.inputAt insn 0 else some insn

end HGraph

/-- A loop of the graph. Critical edges are split, so an exit edge is the only
edge into its target; the first input of a header phi comes from the preheader. -/
structure HLoopInformation (graph : HGraph blocks insns) extends
    NaturalLoop graph.flow where
  backEdges : List (Fin blocks)
  mem_backEdges : ∀ source, source ∈ backEdges ↔ source ∈ body ∧ header ∈ graph.flow.succs source
  exit_predecessors : ∀ source ∈ body, ∀ target ∈ graph.flow.succs source,
    target ∉ body → graph.predecessors target = [source]
  phi_entry_outside : ∀ phi ∈ graph.phis header, ∀ input,
    graph.inputAt phi 0 = some input → graph.block input ∉ body
  has_successor : ∀ source ∈ body, graph.flow.succs source ≠ []
  reachable_backEdge : ∃ source ∈ backEdges, graph.flow.Reachable source

structure HInductionVariable (insns : ℕ) where
  increment : ℤ
  linearInsn : Fin insns
  phiInsn : Fin insns
  deriving DecidableEq

namespace HLoopInformation

variable {graph : HGraph blocks insns} (loop : HLoopInformation graph)

/-- `ExecutedPerIteration`: the block is in the loop and dominates its back edges. -/
def executedPerIteration (block : Fin blocks) : Bool :=
  block ∈ loop.body ∧ ∀ backEdge ∈ loop.backEdges, graph.flow.Dominates block backEdge

/-- The targets of the edges that leave the loop, in the order of the blocks. -/
def exitTargets : List (Fin blocks) :=
  ((List.finRange blocks).filter (· ∈ loop.body)).flatMap fun source =>
    (graph.flow.succs source).filter (· ∉ loop.body)

/-- `GetExitBlock(false)`: null unless exactly one edge leaves the loop. -/
def getExitBlock : Option (Fin blocks) :=
  match loop.exitTargets with
  | [exitBlock] => some exitBlock
  | _ => none

/-- `FindLoopUpperBound`: the last constant among the operands of the exit
condition, which must be neither `<` nor `==`. -/
def findLoopUpperBound : Option ℤ := do
  let exitBlock ← loop.getExitBlock
  guard (loop.backEdges.length = 1)
  let testBlock ← (graph.predecessors exitBlock)[0]?
  let ifInsn := graph.lastInstruction testBlock
  guard (graph.kind ifInsn = .ifInsn)
  let condition ← graph.inputAt ifInsn 0
  match graph.kind condition with
  | .condition .condLT => none
  | .condition .condEQ => none
  | .condition _ =>
    ((graph.instruction condition).inputs.filterMap graph.getIntConstantValue).getLast?
  | _ => none

/-- `IsValidCastForIV`: only `int` to `byte` and `int` to `short`, with the loop
bound in the range of the result. -/
def isValidCastForIV (cast : Fin insns) : Bool :=
  match (graph.inputAt cast 0).map graph.type, graph.type cast, loop.findLoopUpperBound with
  | some .int, .byte, some upperBound => -2 ^ 7 ≤ upperBound ∧ upperBound ≤ 2 ^ 7 - 1
  | some .int, .short, some upperBound => -2 ^ 15 ≤ upperBound ∧ upperBound ≤ 2 ^ 15 - 1
  | _, _, _ => false

/-- The candidate with a valid conversion trimmed; any other conversion ends the
detection. -/
def trimCast (candidate : Fin insns) : Option (Fin insns) :=
  if graph.kind candidate = .typeConversion then
    if loop.isValidCastForIV candidate then graph.inputAt candidate 0 else none
  else
    some candidate

def detectBasicIV (phi : Fin insns) : Option (HInductionVariable insns) := do
  guard ((graph.instruction phi).inputs.length = 2)
  let input ← (graph.instruction phi).inputs.find? fun insn =>
    loop.executedPerIteration (graph.block insn)
  let candidate ← loop.trimCast input
  guard (graph.kind candidate = .add)
  guard (graph.inputAt candidate 1 = some phi ∨ graph.inputAt candidate 0 = some phi)
  let right ← graph.getConstantRight candidate
  let increment ← graph.getIntConstantValue right
  guard (0 ≤ increment)
  return { increment := increment, linearInsn := candidate, phiInsn := phi }

/-- `FindInductionVariablesHelper`: the basic induction variables of the loop. -/
def inductionVariables : List (HInductionVariable insns) :=
  (graph.phis loop.header).filterMap loop.detectBasicIV

/-- `GetInductionVariable`: the instruction is the phi or the linear operation. -/
def getInductionVariable (insn : Fin insns) : Option (HInductionVariable insns) :=
  loop.inductionVariables.find? fun iv => iv.linearInsn = insn ∨ iv.phiInsn = insn

/-- `FindBIVEntrySSA`: the first constant input of the phi. -/
def findBIVEntrySSA (graph : HGraph blocks insns) (phi : Fin insns) : Option (Fin insns) :=
  (graph.instruction phi).inputs.find? fun insn => (graph.getIntConstantValue insn).isSome

/-! ## ComputeBoundInformation -/

/-- The exit block and the `HIf` on a condition that decides on leaving. -/
structure ExitTest (blocks insns : ℕ) where
  exitBlock : Fin blocks
  testBlock : Fin blocks
  condition : Fin insns
  comparison : IfCondition
  deriving DecidableEq

def exitTest : Option (ExitTest blocks insns) := do
  let exitBlock ← loop.getExitBlock
  let testBlock ← (graph.predecessors exitBlock)[0]?
  let branch := graph.lastInstruction testBlock
  guard (graph.kind branch = .ifInsn)
  let condition ← graph.inputAt branch 0
  match graph.kind condition with
  | .condition comparison => some { exitBlock, testBlock, condition, comparison }
  | _ => none

/-- The induction variable the condition tests. `operand` and `otherOperand`
are the compared instructions as the comparison has them; `element` and
`constant` are what is left of them after type conversions were skipped. -/
structure TestedIV (insns : ℕ) where
  iv : HInductionVariable insns
  isIVSecondUse : Bool
  isWide : Bool
  compareInsn : Fin insns
  operand : Fin insns
  element : Fin insns
  otherOperand : Fin insns
  constant : Fin insns
  deriving DecidableEq

/-- Only `int` and `long` comparisons have an integral bound. -/
def isWideType : PrimitiveType → Option Bool
  | .long => some true
  | .int => some false
  | _ => none

/-- The conversion of the second operand is skipped only when the first one is
not an induction variable. -/
def testedIV (condition : Fin insns) : Option (TestedIV insns) := do
  let compareInsn ← graph.getCompareInstruction condition
  let firstOperand ← graph.inputAt compareInsn 0
  let secondOperand ← graph.inputAt compareInsn 1
  let firstElement ← graph.skipTypeConversion firstOperand
  let isWide ← isWideType (graph.type firstElement)
  match loop.getInductionVariable firstElement with
  | some iv =>
    some { iv, isIVSecondUse := false, isWide, compareInsn, operand := firstOperand,
           element := firstElement, otherOperand := secondOperand,
           constant := secondOperand }
  | none =>
    let secondElement ← graph.skipTypeConversion secondOperand
    let iv ← loop.getInductionVariable secondElement
    some { iv, isIVSecondUse := true, isWide, compareInsn, operand := secondOperand,
           element := secondElement, otherOperand := firstOperand,
           constant := firstElement }

/-- The condition read with the induction variable on its left. -/
def flippedCondition (test : ExitTest blocks insns) (tested : TestedIV insns) :
    Option IfCondition :=
  if tested.isIVSecondUse then test.comparison.flipConditionForOperandSwap
  else some test.comparison

def continueCondition (graph : HGraph blocks insns) (test : ExitTest blocks insns)
    (tested : TestedIV insns) : Option IfCondition := do
  let flipped ← flippedCondition test tested
  if (graph.flow.succs test.testBlock)[0]? = some test.exitBlock then
    flipped.negateCondition
  else
    some flipped

structure HLoopBoundInformation (insns : ℕ) where
  loopBIV : HInductionVariable insns
  constantBound : Fin insns
  startValue : ℤ
  endValue : ℤ
  numIterations : ℤ
  deriving DecidableEq

def minValue (isWide : Bool) : ℤ :=
  if isWide then -2 ^ 63 else -2 ^ 31

def maxValue (isWide : Bool) : ℤ :=
  if isWide then 2 ^ 63 - 1 else 2 ^ 31 - 1

/-- The bound without its equality: `i <= 14` becomes `i < 15`. -/
def normalizeBound (isWide : Bool) (comparison : IfCondition) (endValue : ℤ) :
    Option (IfCondition × ℤ) :=
  match comparison with
  | .condLE =>
    if endValue = maxValue isWide then none else some (.condLT, wrap64 (endValue + 1))
  | .condGE =>
    if endValue = minValue isWide then none else some (.condGT, wrap64 (endValue - 1))
  | other => some (other, endValue)

/-- The checks on the normalized borders of a count-up and of a count-down loop.
An increment of zero is neither. -/
def bordersAccepted (isWide : Bool) (increment : ℤ) (comparison : IfCondition)
    (startValue endValue : ℤ) : Bool :=
  if 0 < increment then
    comparison = .condLT ∧ ¬ startValue ≥ endValue ∧ ¬ maxValue isWide - increment + 1 < endValue
  else if increment < 0 then
    comparison = .condGT ∧ ¬ startValue ≤ endValue ∧ ¬ endValue < minValue isWide - increment - 1
  else
    false

/-- The number of increments, computed in `int64_t`: the smallest value divided by minus one has no
result. -/
def incrementCount (increment startValue endValue : ℤ) : Option ℤ :=
  let distance := wrap64 (endValue - startValue)
  if distance = -2 ^ 63 ∧ increment = -1 then none
  else if distance.tmod increment ≠ 0 then some (distance.tdiv increment + 1)
  else some (distance.tdiv increment)

/-- `ComputeBoundInformation` for an integral induction variable. -/
def computeBoundInformation : Option (HLoopBoundInformation insns) := do
  let test ← loop.exitTest
  let tested ← loop.testedIV test.condition
  let bound ← graph.getIntConstantValue tested.constant
  let comparison ← continueCondition graph test tested
  let entryValue ← findBIVEntrySSA graph tested.iv.phiInsn
  let startValue ← graph.getIntConstantValue entryValue
  let (comparison, endValue) ← normalizeBound tested.isWide comparison bound
  guard (bordersAccepted tested.isWide tested.iv.increment comparison startValue endValue)
  -- An increment that was detected is not negative, so the division has a result.
  let numIterations ← incrementCount tested.iv.increment startValue endValue
  return { loopBIV := tested.iv, constantBound := tested.constant, startValue, endValue,
           numIterations }

/-- `GetNumIterations` of a block of the loop; `-1` stands for unknown. -/
def getNumIterations (bound : HLoopBoundInformation insns) (block : Fin blocks) : ℤ :=
  if bound.numIterations = -1 then
    -1
  else
    match loop.getExitBlock with
    | none => -1
    | some exitBlock =>
      let incrementBlock := graph.block bound.loopBIV.linearInsn
      if graph.flow.Dominates incrementBlock exitBlock ↔ graph.flow.Dominates block exitBlock then
        bound.numIterations
      else if graph.flow.Dominates incrementBlock exitBlock then
        bound.numIterations - 1
      else
        bound.numIterations + 1

end HLoopInformation

end LoopBound

end NougatArt
