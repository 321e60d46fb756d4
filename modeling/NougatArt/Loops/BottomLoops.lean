import NougatArt.Core.Ssa
import NougatArt.Hir.Types

/-!
# Forming bottom tested loops

This is `HFormBottomLoops`. The header of a top tested loop is executed once before
the loop, and its instructions are cloned to the end of the back edge block, which
then tests whether the loop goes on. The uses of what the header computes are fixed
up by their position: in the header, in a clone, in the loop or after the exit.

The operands of an instruction include those of its environment. The blocks with a
single goto that are put on the new edges, so that none of them is critical, are not
told apart from the edges.
-/

namespace NougatArt.BottomLoops

open Prod

inductive Kind
  | suspendCheck
  | hIf
  | hGoto
  | loadClass
  | clinitCheck
  | typeConversion
  | other (isControlFlow canThrow isClonable : Bool)
  deriving DecidableEq

/-- An instruction; the opcode tells apart those that the pass does not look into. -/
structure HInstruction where
  kind : Kind
  opcode : ℕ
  type : PrimitiveType
  deriving DecidableEq

/-- A graph in SSA form without critical edges. -/
structure HGraph (blocks insns : ℕ) extends SsaGraph (Fin blocks) (Fin insns) HInstruction where
  if_succs : ∀ block, (code.op (code.terminator block)).kind = .hIf → (code.succs block).length = 2
  no_critical_edges : ∀ source, 1 < (code.succs source).length → ∀ target ∈ code.succs source,
    ∀ other, target ∈ code.succs other → other = source
  phis_of_one_predecessor : ∀ source target,
    (∀ other, target ∈ code.succs other → other = source) → code.phis target = []

structure HLoopInformation {blocks insns : ℕ} (graph : HGraph blocks insns) extends
    SsaLoop graph.toSsaGraph where
  isOrHasIrreducibleLoop : Bool
  hasTryCatchHandler : Bool
  suspendCheck : Option (Fin insns)
  suspendCheck_mem : ∀ insn, suspendCheck = some insn → insn ∈ graph.code.instructions header

namespace HLoopInformation

variable {blocks insns : ℕ} {graph : HGraph blocks insns} (loop : HLoopInformation graph)

def kind (_loop : HLoopInformation graph) (insn : Fin insns) : Kind := (graph.code.op insn).kind

def getExitBlock : Option (Fin blocks) := loop.onlyExit

def getBackEdges : List (Fin blocks) := loop.backEdgeList

def backBlock : Fin blocks := loop.getBackEdges.headD loop.header

def firstBlock (exit : Fin blocks) : Fin blocks :=
  match graph.code.succs loop.header with
  | [ifTrueSuccessor, ifFalseSuccessor] =>
    if ifTrueSuccessor = exit then ifFalseSuccessor else ifTrueSuccessor
  | _ => loop.header

/-- A phi of the header that the back edge leaves as it is. -/
def isDegenerate (phi : Fin insns) : Bool :=
  phi ∈ graph.code.phis loop.header && graph.code.phiInput phi loop.backBlock = phi

/-- The scan of the phis of the header for cycles; degenerate phis are removed when they
are met. -/
def phisDontFormCycles (seen : List (Fin insns)) (looksForward looksBackward : Bool) :
    List (Fin insns) → Bool
  | [] => true
  | phi :: rest =>
    let input := graph.code.phiInput phi loop.backBlock
    if input = phi then
      phisDontFormCycles (phi :: seen) looksForward looksBackward rest
    else if input ∈ graph.code.phis loop.header ∧ ¬ (loop.isDegenerate input ∧ input ∈ seen) then
      let looksForward := looksForward || input ∉ seen
      let looksBackward := looksBackward || input ∈ seen
      if looksForward && looksBackward then
        false
      else
        phisDontFormCycles (phi :: seen) looksForward looksBackward rest
    else
      phisDontFormCycles (phi :: seen) looksForward looksBackward rest

def insnsOf (_loop : HLoopInformation graph) (block : Fin blocks) : List (Fin insns) :=
  graph.code.instructions block ++ [graph.code.terminator block]

def checkLoopHeader : Bool := ((loop.insnsOf loop.header).all fun insn => match loop.kind insn with
    | .suspendCheck | .hIf | .loadClass | .clinitCheck | .typeConversion => true
    | .hGoto => false
    | .other isControlFlow canThrow isClonable => !(isControlFlow && !canThrow) && isClonable) &&
  loop.phisDontFormCycles [] false false (graph.code.phis loop.header)

def isSingleGoto (block : Fin blocks) : Bool :=
  (graph.code.phis block).isEmpty && (graph.code.instructions block).isEmpty &&
    loop.kind (graph.code.terminator block) = .hGoto

def shouldTransformLoop (exit : Fin blocks) : Bool := loop.getExitBlock = some exit &&
  !loop.isOrHasIrreducibleLoop &&
  loop.kind (graph.code.terminator loop.header) = .hIf &&
  loop.getBackEdges.length = 1 &&
  exit ∈ graph.code.succs loop.header &&
  !(loop.backBlock ∈ graph.code.succs loop.header && loop.isSingleGoto loop.backBlock) &&
  !loop.hasTryCatchHandler &&
  loop.checkLoopHeader

/-! ## The positions of instructions -/

/-- What is used instead of a degenerate phi after it is removed. -/
def resolve (insn : Fin insns) : Fin insns :=
  if loop.isDegenerate insn then graph.code.phiInput insn loop.preHeader else insn

def phiInput (phi : Fin insns) (source : Fin blocks) : Fin insns :=
  loop.resolve (graph.code.phiInput phi source)

def inputs (insn : Fin insns) : List (Fin insns) := (graph.code.inputs insn).map loop.resolve

def headerPhis : List (Fin insns) :=
  (graph.code.phis loop.header).filter fun phi => !loop.isDegenerate phi

/-- `HLoadClass` and `HClinitCheck` stay in the header and are their own clones. -/
def isOwnClone (insn : Fin insns) : Bool :=
  loop.kind insn = .loadClass || loop.kind insn = .clinitCheck

def typeOf (_loop : HLoopInformation graph) (insn : Fin insns) : PrimitiveType :=
  (graph.code.op insn).type

/-- A conversion to the type of its input is not cloned: the input, or what was committed as
the clone of the input, is committed as its clone. -/
def isElided (insn : Fin insns) : Bool :=
  insn ∈ graph.code.instructions loop.header && loop.suspendCheck ≠ some insn &&
    loop.kind insn = .typeConversion &&
    match loop.inputs insn with
    | [input] => loop.typeOf input = loop.typeOf insn
    | _ => false

/-- The instructions of the header that are cloned; its suspend check was moved away. -/
def cloned : List (Fin insns) := (graph.code.instructions loop.header).filter fun insn =>
    loop.suspendCheck ≠ some insn && !loop.isOwnClone insn && !loop.isElided insn

/-- The instruction whose clone, or else which itself, is used in a clone for an operand. -/
def cloneSource : ℕ → Fin insns → Fin insns
  | 0, insn => insn
  | fuel + 1, insn =>
    if loop.isElided insn then
      match loop.inputs insn with
      | [input] => cloneSource fuel input
      | _ => insn
    else
      insn

/-- The operands of a clone. A conversion comes after its input in the header, so this depth
suffices. -/
def cloneInputs (insn : Fin insns) : List (Fin insns) :=
  (loop.inputs insn).map (loop.cloneSource (graph.code.instructions loop.header).length)

inductive InstructionPosition
  | header
  | exit
  | phi
  | backEdge
  | clone
  deriving DecidableEq

/-- `GetInstructionPosition` of an instruction that is not a clone, after the suspend check
was moved to the first block. -/
def getInstructionPosition (insn : Fin insns) : InstructionPosition :=
  if loop.suspendCheck = some insn then
    .backEdge
  else if graph.getBlock insn ≠ loop.header then
    if graph.getBlock insn ∈ loop.body then .backEdge else .exit
  else if insn ∈ graph.code.phis loop.header then
    .phi
  else
    .header

def predecessors (_loop : HLoopInformation graph) (block : Fin blocks) : List (Fin blocks) :=
  (List.finRange blocks).filter fun source => block ∈ graph.code.succs source

def allInputs (user : Fin insns) : List (Fin insns) :=
  if user ∈ graph.code.phis (graph.getBlock user) then
    (loop.predecessors (graph.getBlock user)).map (loop.phiInput user)
  else
    loop.inputs user

def users (insn : Fin insns) : List (Fin insns) := (List.finRange insns).filter fun user =>
    insn ∈ loop.allInputs user && !loop.isDegenerate user

end HLoopInformation

/-- The block that a fixup is put in: the first block or the exit block. -/
inductive Place
  | inside
  | outside
  deriving DecidableEq

inductive Target (insns : ℕ)
  | old (insn : Fin insns)
  | clone (insn : Fin insns)
  -- `Phi(insn, clone)` for an instruction of the header.
  | headerFixup (place : Place) (insn : Fin insns)
  -- `Phi(phi(0), phi')` for a phi of the header.
  | interlaceFixup (place : Place) (phi : Fin insns)
  deriving DecidableEq

/-- The maps of `FBLContext`, with the second inputs of the interlace fixups. -/
structure FBLContext (insns : ℕ) where
  phiFixup : List (Fin insns × Target insns)
  interlacePhiFixup : Place → List (Fin insns)
  secondInput : List (Target insns × Target insns)
  headerFixup : Place → List (Fin insns)

namespace FBLContext

variable {insns : ℕ}

def empty : FBLContext insns where
  phiFixup := []
  interlacePhiFixup _ := []
  secondInput := []
  headerFixup _ := []

def getHeaderFixup (insn : Fin insns) (place : Place) (context : FBLContext insns) :
    FBLContext insns :=
  if insn ∈ context.headerFixup place then
    context
  else
    let fixups := insn :: context.headerFixup place
    { context with headerFixup := Function.update context.headerFixup place fixups }

def addInterlace (phi : Fin insns) (place : Place) (context : FBLContext insns) :
    FBLContext insns :=
  let fixups := phi :: context.interlacePhiFixup place
  { context with interlacePhiFixup := Function.update context.interlacePhiFixup place fixups }

def fixups (context : FBLContext insns) (place : Place) : List (Target insns) :=
  (context.headerFixup place).map (.headerFixup place) ++
    (context.interlacePhiFixup place).map (.interlaceFixup place)

end FBLContext

namespace HLoopInformation

variable {blocks insns : ℕ} {graph : HGraph blocks insns} (loop : HLoopInformation graph)

/-- `GetPhiFixup`, given `GetPhiInterlaceFixup` for the first block. The fixup of an
instruction of the header has to be in the map. -/
def getPhiFixupWith
    (getPhiInterlaceFixup : Fin insns → FBLContext insns → Option (Target insns × FBLContext insns))
    (phi : Fin insns) (context : FBLContext insns) : Option (Target insns × FBLContext insns) :=
  match context.phiFixup.lookup phi with
  | some fixup => some (fixup, context)
  | none =>
    let input := loop.phiInput phi loop.backBlock
    let fixup : Option (Target insns × FBLContext insns) :=
      match loop.getInstructionPosition input with
      | .header =>
        if input ∈ context.headerFixup .inside then
          some (.headerFixup .inside input, context)
        else
          none
      | .phi => getPhiInterlaceFixup input context
      | .clone | .exit | .backEdge => some (.old input, context)
    fixup.map fun result =>
      (result.1, { result.2 with phiFixup := (phi, result.1) :: result.2.phiFixup })

/-- `GetPhiInterlaceFixup`; the phi is in the map before its second input is known. -/
def getPhiInterlaceFixup : ℕ → Place → Fin insns → FBLContext insns →
    Option (Target insns × FBLContext insns)
  | 0, _, _, _ => none
  | fuel + 1, place, phi, context =>
    if phi ∈ context.interlacePhiFixup place then
      some (.interlaceFixup place phi, context)
    else
      (loop.getPhiFixupWith (getPhiInterlaceFixup fuel .inside) phi
        (context.addInterlace phi place)).map fun result =>
          let secondInput := (Target.interlaceFixup place phi, result.1) :: result.2.secondInput
          (.interlaceFixup place phi, { result.2 with secondInput })

/-- Every recursive call enters another phi of the header into the map. -/
def depth : ℕ := (graph.code.phis loop.header).length + 2

def getPhiFixup : Fin insns → FBLContext insns → Option (Target insns × FBLContext insns) :=
  loop.getPhiFixupWith (loop.getPhiInterlaceFixup loop.depth .inside)

/-- One use in `FixHeaderInsnUses`. A use by a phi of the header is remembered by the
fixup in the first block. -/
def fixHeaderInsnUse (insn : Fin insns) (context : FBLContext insns) (user : Fin insns) :
    FBLContext insns :=
  match loop.getInstructionPosition user with
  | .header | .clone => context
  | .exit => context.getHeaderFixup insn .outside
  | .backEdge | .phi => context.getHeaderFixup insn .inside

def fixHeaderInsnUses (context : FBLContext insns) (insn : Fin insns) : FBLContext insns :=
  (loop.users insn).foldl (loop.fixHeaderInsnUse insn) context

/-- One use in `FixHeaderPhisUses` that is not by a clone. -/
def fixHeaderPhiUse (phi : Fin insns) (context : FBLContext insns) (user : Fin insns) :
    Option (FBLContext insns) :=
  match loop.getInstructionPosition user with
  | .header | .phi => some context
  | .exit => (loop.getPhiInterlaceFixup loop.depth .outside phi context).map snd
  | .backEdge => (loop.getPhiInterlaceFixup loop.depth .inside phi context).map snd
  | .clone => (loop.getPhiFixup phi context).map snd

/-- The instructions of the header whose clones use a phi. -/
def clonedUsers (phi : Fin insns) : List (Fin insns) :=
  (loop.cloned ++ [graph.code.terminator loop.header]).filter fun user =>
    phi ∈ loop.cloneInputs user

def fixHeaderPhisUses (context : FBLContext insns) (phi : Fin insns) :
    Option (FBLContext insns) := do
  let context ← (loop.users phi).foldlM (loop.fixHeaderPhiUse phi) context
  (loop.clonedUsers phi).foldlM (fun context _ => (loop.getPhiFixup phi context).map snd) context

def cloneInstructions : Option (FBLContext insns) :=
  loop.headerPhis.foldlM loop.fixHeaderPhisUses (loop.cloned.foldl loop.fixHeaderInsnUses .empty)

/-! ## The rewritten loop -/

variable (context : FBLContext insns)

def replaceInput (position : InstructionPosition) (input : Fin insns) : Target insns :=
  if input ∈ loop.headerPhis then
    match position with
    | .header | .phi => .old (loop.phiInput input loop.preHeader)
    | .exit => .interlaceFixup .outside input
    | .backEdge => .interlaceFixup .inside input
    | .clone => (context.phiFixup.lookup input).getD (.old input)
  else if input ∈ loop.cloned then
    match position with
    | .header | .phi => .old input
    | .exit => .headerFixup .outside input
    | .backEdge => .headerFixup .inside input
    | .clone => .clone input
  else
    .old input

def rewriteLoop (exit : Fin blocks) : Code (Fin blocks) (Target insns) HInstruction where
  op
    | .old insn | .clone insn | .headerFixup _ insn | .interlaceFixup _ insn => graph.code.op insn
  inputs
    | .old insn =>
      (loop.inputs insn).map (loop.replaceInput context (loop.getInstructionPosition insn))
    | .clone insn => (loop.cloneInputs insn).map (loop.replaceInput context .clone)
    | .headerFixup _ _ | .interlaceFixup _ _ => []
  phis block :=
    if block = loop.header then
      []
    else
      (graph.code.phis block).map .old ++
        (if block = loop.firstBlock exit then context.fixups .inside else []) ++
        (if block = exit then context.fixups .outside else [])
  phiInput
    | .old phi, source =>
      loop.replaceInput context (loop.getInstructionPosition phi) (loop.phiInput phi source)
    | .clone insn, _ => .clone insn
    | .headerFixup _ insn, source => if source = loop.header then .old insn else .clone insn
    | .interlaceFixup place phi, source =>
      if source = loop.header then
        .old (loop.phiInput phi loop.preHeader)
      else
        (context.secondInput.lookup (.interlaceFixup place phi)).getD (.old phi)
  instructions block :=
    (if block = loop.firstBlock exit then loop.suspendCheck.toList.map .old else []) ++
      ((graph.code.instructions block).filter fun insn => loop.suspendCheck ≠ some insn).map .old ++
      (if block = loop.backBlock then loop.cloned.map .clone else [])
  terminator block :=
    if block = loop.backBlock then
      .clone (graph.code.terminator loop.header)
    else
      .old (graph.code.terminator block)
  succs block :=
    if block = loop.backBlock then graph.code.succs loop.header else graph.code.succs block

end HLoopInformation

end NougatArt.BottomLoops
