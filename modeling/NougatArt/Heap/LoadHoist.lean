import NougatArt.Core.Ssa
import NougatArt.Heap.AliasRun

/-!
# Load hoisting and store sinking

This is `LoadHoistStoreSink`. In an innermost loop a getter of an invariant
address that is followed by the only setter of the same location moves to the
preheader, a phi carries the value around the loop, and the setter moves to the
exit block. Setters that alias nothing else in the loop move to the exit block
alone. If the loop can be suspended, the stores are repeated when it is.
-/

namespace NougatArt.Heap

def Kind.isGet : Kind → Bool
  | .instanceFieldGet _ | .staticFieldGet _ | .arrayGet _ => true
  | _ => false

def Kind.isSet : Kind → Bool
  | .instanceFieldSet _ | .staticFieldSet _ | .arraySet _ => true
  | _ => false

def Kind.isArray : Kind → Bool
  | .arrayGet _ | .arraySet _ => true
  | _ => false

def Kind.isVolatile : Kind → Bool
  | .instanceFieldGet field | .instanceFieldSet field
  | .staticFieldGet field | .staticFieldSet field => field.isVolatile
  | _ => false

def Kind.accessType : Kind → PrimitiveType
  | .instanceFieldGet field | .instanceFieldSet field
  | .staticFieldGet field | .staticFieldSet field => field.fieldType
  | .arrayGet type | .arraySet type => type
  | _ => .void

def Kind.valueIndex : Kind → ℕ
  | .arraySet _ => 2
  | _ => 1

end NougatArt.Heap

namespace NougatArt.LoadHoist

open Heap

/-- An instruction; the opcode tells apart those that the pass does not look into. -/
structure HInstruction where
  kind : Kind
  hasEnvironment : Bool
  isSuspendPoint : Bool
  opcode : ℕ
  deriving DecidableEq

/-- A graph in SSA form whose instructions have their operands. -/
structure HGraph (blocks insns : ℕ) extends SsaGraph (Fin blocks) (Fin insns) HInstruction where
  arity_le : ∀ insn, (code.op insn).kind.arity ≤ (code.inputs insn).length
  terminator_noAccess : ∀ block, ((code.op (code.terminator block)).kind.isGet ||
    (code.op (code.terminator block)).kind.isSet) = false

variable {blocks insns : ℕ}

def HGraph.kind (graph : HGraph blocks insns) (insn : Fin insns) : Kind := (graph.code.op insn).kind

def HGraph.inputAt (graph : HGraph blocks insns) (insn : Fin insns) (index : ℕ) : Fin insns :=
  (graph.code.inputs insn).getD index insn

def HGraph.getValueToSet (graph : HGraph blocks insns) (set : Fin insns) : Fin insns :=
  graph.inputAt set (graph.kind set).valueIndex

/-- The search for the single setter that must alias a getter; nothing else may
alias it. -/
def HGraph.findSet (graph : HGraph blocks insns) (aliasOf : Fin insns → Fin insns → AliasKind)
    (get : Fin insns) (candidate : Option (Fin insns)) :
    List (Fin insns) → Option (Fin insns)
  | [] => candidate
  | sideEffect :: rest =>
    if sideEffect = get then
      graph.findSet aliasOf get candidate rest
    else if aliasOf sideEffect get = .mustAlias ∧ (graph.kind sideEffect).isSet = true then
      if candidate.isSome then none else graph.findSet aliasOf get (some sideEffect) rest
    else if aliasOf sideEffect get ≠ .noAlias then
      none
    else
      graph.findSet aliasOf get candidate rest

structure HLoopInformation (graph : HGraph blocks insns) extends SsaLoop graph.toSsaGraph where
  innermost : toNaturalLoop.Innermost
  -- There are no critical edges, so an exit block has one predecessor.
  exit_predecessor : ∀ source ∈ body, ∀ exit ∈ graph.code.succs source, exit ∉ body →
    ∀ other, exit ∈ graph.code.succs other → other = source
  -- The `HSuspendCheck` or `HSuspend` of the loop.
  suspendPoint : Option (Fin insns)

namespace HLoopInformation

variable {graph : HGraph blocks insns} (loop : HLoopInformation graph)
  (aliasOf : Fin insns → Fin insns → AliasKind)

def contains (insn : Fin insns) : Bool := graph.getBlock insn ∈ loop.body

def hasSuspendPoint : Bool := loop.suspendPoint.isSome

/-- The instructions of the loop; `HBlocksInLoopIterator` visits the blocks in the order of
their ids. -/
def insnsInLoop : List (Fin insns) := loop.vertexList.flatMap fun block =>
    graph.code.instructions block ++ [graph.code.terminator block]

def getExitBlock : Option (Fin blocks) := loop.onlyExit

/-- `CanSideExit`, which ignores suspend points. -/
def canSideExit : Bool := loop.insnsInLoop.any fun insn =>
    (graph.code.op insn).hasEnvironment && !(graph.code.op insn).isSuspendPoint

def loopGate : Bool := loop.getExitBlock.isSome && loop.backEdgeList.length = 1 && !loop.canSideExit

def executedPerIteration (block : Fin blocks) : Bool :=
  decide (block ∈ loop.body) &&
    loop.backEdgeList.all fun backEdge => decide (graph.flow.Dominates block backEdge)

def invariantAddress (insn : Fin insns) : Bool := !loop.contains (graph.inputAt insn 0) &&
    (!(graph.kind insn).isArray || !loop.contains (graph.inputAt insn 1))

/-- The getters and setters of an invariant address; the position is the index that
`FindLoadStoreCouples` gives them. -/
def accesses : List (Fin insns) := loop.insnsInLoop.filter fun insn =>
    ((graph.kind insn).isGet || (graph.kind insn).isSet) && loop.invariantAddress insn

/-- `get_to_idx` and `set_to_idx`; the index of an instruction that is not in the
map is zero. -/
def toIdx (insn : Fin insns) : ℕ :=
  if insn ∈ loop.accesses then loop.accesses.idxOf insn else 0

def hasSideEffects : List (Fin insns) := loop.insnsInLoop.filter fun insn =>
    (graph.kind insn).isGet || (graph.kind insn).isSet || (graph.kind insn).hasWriteSideEffects

def loopHeaderOrInvariant (set : Fin insns) (checkIsPhi : Bool) : Bool :=
  let value := graph.getValueToSet set
  if loop.hasSuspendPoint then
    if graph.getBlock value ≠ loop.header ∧ loop.contains value = true then
      false
    else if checkIsPhi && value ∉ graph.code.phis (graph.getBlock value) then
      false
    else
      true
  else
    true

/-- The conditions on a getter and its setter to be hoisted and sunk. -/
def coupleIsValid (exit : Fin blocks) (get set : Fin insns) : Bool :=
  if loop.toIdx get > loop.toIdx set then
    false
  else if graph.getBlock get ≠ graph.getBlock set then
    false
  else if !loop.executedPerIteration (graph.getBlock get) then
    false
  else if ¬ graph.flow.Dominates (graph.getBlock get) exit then
    false
  else if loop.hasSuspendPoint && (graph.kind get).accessType = .not then
    false
  else if !loop.loopHeaderOrInvariant set false then
    false
  else
    true

def setIsValid (exit : Fin blocks) (set : Fin insns) : Bool :=
  if ¬ graph.flow.Dominates (graph.getBlock set) exit then
    false
  else if loop.contains (graph.inputAt set 0) then
    false
  else if (graph.kind set).isArray && loop.contains (graph.inputAt set 1) then
    false
  else if !loop.loopHeaderOrInvariant set true then
    false
  else
    (loop.hasSideEffects.all fun sideEffect =>
      set = sideEffect || aliasOf set sideEffect = .noAlias) &&
    (loop.accesses.all fun get => !(graph.kind get).isGet || aliasOf set get = .noAlias)

def couples : List (Fin insns × Fin insns) :=
  (loop.accesses.filter fun insn => (graph.kind insn).isGet).filterMap fun get =>
    (graph.findSet aliasOf get none loop.hasSideEffects).map fun set => (get, set)

def remainingSets : List (Fin insns) :=
  (loop.accesses.filter fun insn => (graph.kind insn).isSet).filter fun set =>
    set ∉ (loop.couples aliasOf).map Prod.snd

/-- `FindLoadStoreCouples`, for the exit block of the loop. -/
def findLoadStoreCouples (exit : Fin blocks) :
    Option (List (Fin insns × Fin insns) × List (Fin insns)) :=
  if loop.canSideExit then
    none
  else if (loop.couples aliasOf).any fun couple => (graph.kind couple.1).isVolatile then
    none
  else if (loop.remainingSets aliasOf).any fun set => (graph.kind set).isVolatile then
    none
  else
    some ((loop.couples aliasOf).filter fun couple => loop.coupleIsValid exit couple.1 couple.2,
        (loop.remainingSets aliasOf).filter (loop.setIsValid aliasOf exit))

end HLoopInformation

/-! ## The rewritten loop -/

inductive Target (insns : ℕ)
  | old (insn : Fin insns)
  -- The phi that replaces a getter.
  | phi (get : Fin insns)
  -- The copy of a setter in the suspend block.
  | copy (set : Fin insns)
  deriving DecidableEq

/-- What an instruction of the rewritten graph executes; those in the suspend block are
executed if the thread is suspended. -/
inductive TargetOp
  | plain (insn : HInstruction)
  | inSuspendBlock (insn : HInstruction)

section Rewrite

variable (graph : HGraph blocks insns) (pairs : List (Fin insns × Fin insns))
  (lone : List (Fin insns))

/-- What the uses of an instruction become: those of a getter go to its phi, unless
the getter is itself the value that its setter stores. -/
def HGraph.replacement (insn : Fin insns) : Target insns :=
  match pairs.lookup insn with
  | some set => if graph.getValueToSet set = insn then .old insn else .phi insn
  | none => .old insn

def HGraph.phiPairs : List (Fin insns × Fin insns) :=
  pairs.filter fun couple => graph.getValueToSet couple.2 ≠ couple.1

def moved : List (Fin insns) := pairs.map Prod.fst ++ pairs.map Prod.snd ++ lone

def HGraph.copies : List (Target insns) := ((graph.phiPairs pairs).map Prod.snd ++ lone).map .copy

/-- The setters at the beginning of the exit block; each is moved before the others. -/
def sunkSets : List (Target insns) := ((pairs.map Prod.snd ++ lone).map Target.old).reverse

def hoistedGets : List (Target insns) := (pairs.map Prod.fst).map .old

variable {graph} in
/-- The instructions of a block of the loop after `DoLoadHoistStoreSink`. -/
def HLoopInformation.rewrittenInsns (loop : HLoopInformation graph)
    (insns' : List (Fin insns)) : List (Target insns) :=
  insns'.flatMap fun insn =>
    if insn ∈ moved pairs lone then
      []
    else if loop.suspendPoint = some insn then
      .old insn :: graph.copies pairs lone
    else
      [.old insn]

variable {graph} in
/-- `DoLoadHoistStoreSink`, for the couples and the lone setters in the order in which
they are processed. -/
def HLoopInformation.doLoadHoistStoreSink (loop : HLoopInformation graph) (exit : Fin blocks) :
    Code (Fin blocks) (Target insns) TargetOp where
  op
    | .old insn => .plain (graph.code.op insn)
    | .phi get => .plain (graph.code.op get)
    | .copy set => .inSuspendBlock (graph.code.op set)
  inputs
    | .old insn => (graph.code.inputs insn).map (graph.replacement pairs)
    | .phi _ => []
    | .copy set =>
      let inputs := (graph.code.inputs set).map (graph.replacement pairs)
      match (graph.phiPairs pairs).find? fun couple => couple.2 = set with
      | some couple => inputs.set (graph.kind set).valueIndex (.phi couple.1)
      | none => inputs
  phis block := (graph.code.phis block).map .old ++
      if block = loop.header then
        (graph.phiPairs pairs).map fun couple => .phi couple.1
      else
        []
  phiInput
    | .old insn, source => graph.replacement pairs (graph.code.phiInput insn source)
    | .phi get, source =>
      if source = loop.preHeader then
        .old get
      else
        match pairs.lookup get with
        | some set => graph.replacement pairs (graph.getValueToSet set)
        | none => .old get
    | .copy set, _ => .copy set
  instructions block :=
    if block ∈ loop.body then
      loop.rewrittenInsns pairs lone (graph.code.instructions block)
    else if block = loop.preHeader then
      (graph.code.instructions block).map .old ++ hoistedGets pairs
    else if block = exit then
      sunkSets pairs lone ++ (graph.code.instructions block).map .old
    else
      (graph.code.instructions block).map .old
  terminator block := .old (graph.code.terminator block)
  succs := graph.code.succs

end Rewrite

end NougatArt.LoadHoist
