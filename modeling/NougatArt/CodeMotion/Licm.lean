import NougatArt.Core.NaturalLoop
import NougatArt.Hir.SideEffects

/-!
# Loop-invariant code motion

This is `LICM` with the `SideEffectsAnalysis` it reads. Loops are visited from
the inside out. Each instruction of a loop whose operands are defined before
the loop, and which does not read what the loop writes, is moved to the end of
the preheader. An instruction that can throw must be in the header, and no
instruction that can throw may have been left there before it.

The control flow does not change; a placement says where the instructions are
and what their environments hold.
-/

namespace NougatArt.CodeMotion

open Function

variable {blocks insns : ℕ}

structure HInstruction where
  canBeMoved : Bool
  canThrow : Bool
  sideEffects : SideEffects
  -- Tells apart the instructions that the pass does not look into.
  opcode : ℕ
  deriving DecidableEq

structure HLoopInformation (blocks : ℕ) where
  header : Fin blocks
  preHeader : Fin blocks
  body : Finset (Fin blocks)
  containsIrreducibleLoop : Bool
  deriving DecidableEq

/-- `HBlocksInLoopIterator` visits the blocks in the order of their ids. -/
def HLoopInformation.blocksInLoop (info : HLoopInformation blocks) : List (Fin blocks) :=
  (List.finRange blocks).filter (· ∈ info.body)

structure Placement (blocks insns : ℕ) where
  getBlock : Fin insns → Fin blocks
  -- Without the phis and the last instruction.
  instructions : Fin blocks → List (Fin insns)
  -- The registers of the environment and its parents.
  environment : Fin insns → List (Option (Fin insns))

structure Frame (blocks insns : ℕ) (Exception : Type) where
  flow : FlowGraph (Fin blocks)
  -- The successors other than the catch blocks of a try boundary.
  normalSuccs : Fin blocks → List (Fin blocks)
  -- The catch block that an exception raised in a block is delivered to.
  handler : Fin blocks → Exception → Option (Fin blocks)
  op : Fin insns → HInstruction
  inputs : Fin insns → List (Fin insns)
  phis : Fin blocks → List (Fin insns)
  phiInput : Fin insns → Fin blocks → Fin insns
  -- The register that a phi of a catch block takes over.
  catchRegister : Fin insns → ℕ
  lastInstruction : Fin blocks → Fin insns
  loopInformation : Fin blocks → Option (HLoopInformation blocks)
  postOrder : List (Fin blocks)

variable {Exception : Type} (frame : Frame blocks insns Exception)

/-! ## Side effects of loops -/

def Frame.loopOfHeader (block : Fin blocks) : Option (HLoopInformation blocks) :=
  (frame.loopInformation block).filter fun info => info.header = block

section SideEffectsAnalysis

def Frame.unionEffects (effects : SideEffects) : List (Fin insns) → SideEffects
  | [] => effects
  | insn :: rest =>
    let effects := effects.union (frame.op insn).sideEffects
    if effects.doesAll then effects else Frame.unionEffects effects rest

def Frame.blockEffects (placement : Placement blocks insns) (block : Fin blocks) : SideEffects :=
  frame.unionEffects .none (placement.instructions block ++ [frame.lastInstruction block])

/-- The effects of each loop, at the id of its header. -/
abbrev LoopEffects (blocks : ℕ) := Fin blocks → SideEffects

def updateLoopEffects (loopEffects : LoopEffects blocks) (info : HLoopInformation blocks)
    (effects : SideEffects) : LoopEffects blocks :=
  update loopEffects info.header ((loopEffects info.header).union effects)

/-- One round of `SideEffectsAnalysis::Run`. -/
def Frame.visitEffects (placement : Placement blocks insns) (loopEffects : LoopEffects blocks)
    (block : Fin blocks) : LoopEffects blocks :=
  let effects := frame.blockEffects placement block
  match frame.loopInformation block with
  | none => loopEffects
  | some info =>
    if info.header = block then
      let loopEffects := updateLoopEffects loopEffects info effects
      match frame.loopInformation info.preHeader with
      | none => loopEffects
      | some outer => updateLoopEffects loopEffects outer (loopEffects block)
    else
      updateLoopEffects loopEffects info effects

def Frame.loopEffects (placement : Placement blocks insns) : LoopEffects blocks :=
  frame.postOrder.foldl (frame.visitEffects placement) fun _ => .none

end SideEffectsAnalysis

/-! ## Moving instructions -/

/-- `IsIn`, for the loop of a block. -/
def Frame.isIn (block : Fin blocks) (info : HLoopInformation blocks) : Bool :=
  (frame.loopInformation block).any fun inner => inner.header ∈ info.body

variable (placement : Placement blocks insns) (info : HLoopInformation blocks)

def Frame.inputsAreDefinedBeforeLoop (insn : Fin insns) : Bool :=
  (frame.inputs insn).all (fun input => !frame.isIn (placement.getBlock input) info) &&
    (placement.environment insn).all fun register => register.all fun input =>
        !frame.isIn (placement.getBlock input) info || input ∈ frame.phis info.header

def Frame.updateLoopPhisIn (environment : List (Option (Fin insns))) : List (Option (Fin insns)) :=
  environment.map fun register => register.map fun input =>
    if input ∈ frame.phis info.header then frame.phiInput input info.preHeader else input

/-- The instruction is moved before the last instruction of the preheader. -/
def Frame.hoist (insn : Fin insns) : Placement blocks insns where
  getBlock := update placement.getBlock insn info.preHeader
  instructions block :=
    if block = info.preHeader then placement.instructions block ++ [insn]
    else (placement.instructions block).erase insn
  environment := update placement.environment insn
    (frame.updateLoopPhisIn info (placement.environment insn))

structure Move (blocks insns : ℕ) where
  info : HLoopInformation blocks
  insn : Fin insns
  deriving DecidableEq

structure Progress (blocks insns : ℕ) where
  placement : Placement blocks insns
  moves : List (Move blocks insns)

def Frame.canHoist (info : HLoopInformation blocks) (effects : SideEffects)
    (placement : Placement blocks insns) (foundThrowing : Bool) (insn : Fin insns) : Bool :=
  (frame.op insn).canBeMoved && (!(frame.op insn).canThrow || !foundThrowing) &&
    !(frame.op insn).sideEffects.mayDependOn effects &&
    frame.inputsAreDefinedBeforeLoop placement info insn

/-- The loop over the instructions of a block; the flag is
`found_first_non_hoisted_throwing_instruction_in_loop`. -/
def Frame.visitInstructions (info : HLoopInformation blocks) (effects : SideEffects) :
    Progress blocks insns → Bool → List (Fin insns) → Progress blocks insns
  | progress, _, [] => progress
  | progress, foundThrowing, insn :: rest =>
    if frame.canHoist info effects progress.placement foundThrowing insn then
      Frame.visitInstructions info effects
        { placement := frame.hoist progress.placement info insn
          moves := progress.moves ++ [⟨info, insn⟩] }
        foundThrowing rest
    else
      Frame.visitInstructions info effects progress
        (foundThrowing || (frame.op insn).canThrow) rest

/-- The visit of one block of a loop; inner loops were visited before. -/
def Frame.visitBlock (info : HLoopInformation blocks) (effects : SideEffects)
    (progress : Progress blocks insns) (block : Fin blocks) : Progress blocks insns :=
  if frame.loopInformation block = some info then
    frame.visitInstructions info effects progress (block ≠ info.header)
      (progress.placement.instructions block ++ [frame.lastInstruction block])
  else progress

def Frame.visitLoop (loopEffects : LoopEffects blocks) (progress : Progress blocks insns)
    (block : Fin blocks) : Progress blocks insns :=
  match frame.loopOfHeader block with
  | none => progress
  | some info =>
    if info.containsIrreducibleLoop then progress
    else info.blocksInLoop.foldl (frame.visitBlock info (loopEffects block)) progress

def Frame.run (placement : Placement blocks insns) : Progress blocks insns :=
  frame.postOrder.foldl (frame.visitLoop (frame.loopEffects placement)) ⟨placement, []⟩

/-! ## Well-formed graphs -/

/-- The instruction has been computed when control is in a block and some of its
instructions were executed. -/
def Frame.AvailableAt (block : Fin blocks) (executed : List (Fin insns)) (insn : Fin insns) :
    Prop :=
  insn ∈ frame.phis block ∨ insn ∈ executed ∨
    ∃ definition, (insn ∈ frame.phis definition ∨ insn ∈ placement.instructions definition) ∧
      frame.flow.Dominates definition block ∧ definition ≠ block

instance (placement : Placement blocks insns) (block : Fin blocks) (executed : List (Fin insns))
    (insn : Fin insns) : Decidable (frame.AvailableAt placement block executed insn) :=
  inferInstanceAs (Decidable (_ ∨ _ ∨ ∃ definition, (_ ∨ _) ∧
    frame.flow.Dominates definition block ∧ definition ≠ block))

/-- Each instruction is in one place, and what it uses was computed before. -/
structure Frame.WellPlaced : Prop where
  getBlock_of_mem : ∀ {insn block}, insn ∈ placement.instructions block →
    placement.getBlock insn = block
  getBlock_of_phi : ∀ {insn block}, insn ∈ frame.phis block → placement.getBlock insn = block
  nodup : ∀ block, (placement.instructions block).Nodup
  phi_notMem : ∀ {insn block}, insn ∈ frame.phis block →
    ∀ other, insn ∉ placement.instructions other
  last_notMem : ∀ block other, frame.lastInstruction block ∉ placement.instructions other
  last_notPhi : ∀ block other, frame.lastInstruction block ∉ frame.phis other
  inputs_available : ∀ block before insn after,
    placement.instructions block ++ [frame.lastInstruction block] = before ++ insn :: after →
    ∀ input ∈ frame.inputs insn, frame.AvailableAt placement block before input
  environment_available : ∀ block before insn after,
    placement.instructions block ++ [frame.lastInstruction block] = before ++ insn :: after →
    ∀ input, some input ∈ placement.environment insn →
      frame.AvailableAt placement block before input
  phiInput_available : ∀ block, ∀ target ∈ frame.normalSuccs block, ∀ phi ∈ frame.phis target,
      frame.AvailableAt placement block (placement.instructions block) (frame.phiInput phi block)

/-- A reducible loop as `SimplifyLoop` leaves it. -/
structure Frame.WellFormedLoop : Prop where
  header_mem : info.header ∈ info.body
  entry_notMem : frame.flow.entry ∉ info.body
  reachable : ∀ block ∈ info.body, frame.flow.Reachable block
  entered_at_header : ∀ source target, target ∈ frame.flow.succs source →
    target ∈ info.body → target ≠ info.header → source ∈ info.body
  preHeader_notMem : info.preHeader ∉ info.body
  preHeader_succs : frame.flow.succs info.preHeader = [info.header]
  preHeader_normalSuccs : frame.normalSuccs info.preHeader = [info.header]
  entered_from_preHeader : ∀ source, source ∉ info.body →
    info.header ∈ frame.flow.succs source → source = info.preHeader
  -- The preheader ends with an `HGoto` and is covered by the same try.
  preHeader_goto : (frame.op (frame.lastInstruction info.preHeader)).canThrow = false ∧
    (frame.op (frame.lastInstruction info.preHeader)).sideEffects.doesAnyWrite = false
  preHeader_handler : frame.handler info.preHeader = frame.handler info.header
  -- A block of the loop is in the loop itself or in an inner one.
  nested : ∀ block ∈ info.body, ∃ inner, frame.loopInformation block = some inner ∧
    block ∈ inner.body ∧ inner.header ∈ info.body ∧
    frame.loopInformation inner.header = some inner ∧
    (inner ≠ info → inner.header ≠ info.header ∧ inner.containsIrreducibleLoop = false ∧
      inner.preHeader ∈ info.body ∧
      ∀ outer, frame.loopInformation inner.preHeader = some outer → inner.body ⊆ outer.body)
  header_last : ∀ block ∈ info.body, block ∈ frame.postOrder ∧ (block ≠ info.header →
    frame.postOrder.idxOf block < frame.postOrder.idxOf info.header)

/-- A graph before the pass. -/
structure HGraph (blocks insns : ℕ) (Exception : Type) extends Frame blocks insns Exception where
  placement : Placement blocks insns
  wellPlaced : toFrame.WellPlaced placement
  normalSuccs_subset : ∀ block, normalSuccs block ⊆ flow.succs block
  -- A try boundary is left to a catch block before the blocks of the try are executed.
  handler_dominated : ∀ block exception target, handler block exception = some target →
    ∀ dominator, flow.Dominates dominator target → dominator ≠ target →
      flow.Dominates dominator block ∧ dominator ≠ block
  lastInstruction_canBeMoved : ∀ block, (op (lastInstruction block)).canBeMoved = false
  wellFormedLoop : ∀ info, loopInformation info.header = some info →
    info.containsIrreducibleLoop = false → toFrame.WellFormedLoop info

end NougatArt.CodeMotion
