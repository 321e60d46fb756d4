import NougatArt.Moves.MoveOperands

/-!
# Resolving parallel moves with swaps

This is `ParallelMoveResolverWithSwap`. A move is performed after the moves that are
blocked by it; a cycle of moves is resolved by swaps. When a move of 32 bits finds
that a move of 64 bits in progress closes a cycle, it goes back to that move, which is
swapped first.
-/

namespace NougatArt.Moves

open List

structure Resolver (count : ℕ) where
  moves : Fin count → MoveOperands
  emitted : List Step

/-- How the loop over the blocking moves ends: all were performed, or this move has to be
swapped, or another one has to. -/
inductive Outcome (count : ℕ)
  | finished
  | requiredSwap
  | goesBack (required : Fin count)

/-- `UpdateSourceOf`, for the source of the move. -/
def updateSourceOf (source updatedLocation newSource : Location) : Location :=
  if updatedLocation.lowOf = source then
    newSource.lowOf
  else if updatedLocation.highOf = source then
    newSource.highOf
  else
    newSource

namespace Resolver

variable {count : ℕ}

variable (resolver : Resolver count)

def setDestination (index : Fin count) (destination : Location) : Resolver count := { resolver with
    moves := Function.update resolver.moves index { resolver.moves index with destination } }

def eliminate (resolver : Resolver count) (index : Fin count) : Resolver count := { resolver with
    moves := Function.update resolver.moves index (resolver.moves index).eliminate }

def emit (step : Step) : Resolver count := { resolver with emitted := resolver.emitted ++ [step] }

/-- The source of a move after two locations were swapped. -/
def swapSource (source destination : Location) (move : MoveOperands) : MoveOperands :=
  if move.blocks source then
    { move with source := updateSourceOf move.source source destination }
  else if move.blocks destination then
    { move with source := updateSourceOf move.source destination source }
  else
    move

def performSwap (index : Fin count) : Resolver count :=
  let move := resolver.moves index
  let swapped := (resolver.emit (.swap move.source move.destination move.width)).eliminate index
  { swapped with
    moves := fun other => swapSource move.source move.destination (swapped.moves other) }

def findBlocker (location : Location) : Option (Fin count) :=
  (finRange count).find? fun other => (resolver.moves other).blocks location

/-- The end of `PerformMove`: the move is swapped, emitted or left to another one. -/
def finishMove (index : Fin count) (isRequired : Bool) : Option (Fin count) × Resolver count :=
  let move := resolver.moves index
  if move.source = move.destination then
    (none, resolver.eliminate index)
  else if isRequired then
    (some index, resolver.performSwap index)
  else
    match resolver.findBlocker move.destination with
    | some other =>
      if !move.is64BitMove && (resolver.moves other).is64BitMove then
        (some other, resolver)
      else
        (none, resolver.performSwap index)
    | none => (none, (resolver.emit (.move move.source move.destination)).eliminate index)

mutual

/-- `PerformMove`. The result is the move that is required to swap. -/
def performMove : ℕ → Fin count → Resolver count → Option (Option (Fin count) × Resolver count)
  | 0, _, _ => none
  | fuel + 1, index, resolver =>
    if (resolver.moves index).isRedundant then
      some (none, resolver.eliminate index)
    else
      let destination := (resolver.moves index).destination
      -- The destination is cleared while the move is in progress.
      match performBlockers fuel index destination 0
          (resolver.setDestination index .noLocation) with
      | none => none
      | some (.goesBack required, resolver) =>
        some (some required, resolver.setDestination index destination)
      | some (.finished, resolver) =>
        some ((resolver.setDestination index destination).finishMove index false)
      | some (.requiredSwap, resolver) =>
        some ((resolver.setDestination index destination).finishMove index true)

/-- The loop of `PerformMove` over the moves that block its destination. -/
def performBlockers : ℕ → Fin count → Location → ℕ → Resolver count →
    Option (Outcome count × Resolver count)
  | 0, _, _, _, _ => none
  | fuel + 1, index, destination, i, resolver =>
    if h : i < count then
      let other := resolver.moves ⟨i, h⟩
      if other.blocks destination && !other.isPending then
        match performMove fuel ⟨i, h⟩ resolver with
        | none => none
        | some (none, resolver) => performBlockers fuel index destination (i + 1) resolver
        | some (some required, resolver) =>
          if required = index then
            some (.requiredSwap, resolver)
          else if required = ⟨i, h⟩ then
            performBlockers fuel index destination 0 resolver
          else
            some (.goesBack required, resolver)
      else
        performBlockers fuel index destination (i + 1) resolver
    else
      some (.finished, resolver)

end

def depth (count : ℕ) : ℕ := (count + 1) * ((count + 1) * (count + 1) + 2)

variable (resolver : Resolver count)

def performMoveAt (index : Fin count) : Option (Resolver count) :=
  (performMove (depth count) index resolver).map Prod.snd

def isStack (location : Location) : Bool := location.isStackSlot || location.isDoubleStackSlot

/-- The first loop of `EmitNativeCode`, over the moves between slots of the stack. -/
def performStackMove (index : Fin count) : Option (Resolver count) :=
  let move := resolver.moves index
  if move.isEliminated || move.source.isConstant then
    some resolver
  else if isStack move.source && isStack move.destination then
    resolver.performMoveAt index
  else
    some resolver

/-- The second loop, over the moves that do not load constants. -/
def performOtherMove (index : Fin count) : Option (Resolver count) :=
  let move := resolver.moves index
  if !move.isEliminated && !move.source.isConstant then
    resolver.performMoveAt index
  else
    some resolver

def performConstantMove (index : Fin count) : Resolver count :=
  let move := resolver.moves index
  if !move.isEliminated then
    (resolver.emit (.move move.source move.destination)).eliminate index
  else
    resolver

def resolve (moves : Fin count → MoveOperands) : Option (Resolver count) := do
  let resolver ← (finRange count).foldlM performStackMove ⟨moves, []⟩
  let resolver ← (finRange count).foldlM performOtherMove resolver
  return (finRange count).foldl performConstantMove resolver

end Resolver

def buildInitialMoveList (parallelMove : List MoveOperands) : List MoveOperands :=
  parallelMove.filter fun move => !move.isRedundant

def emitNativeCode (parallelMove : List MoveOperands) : Option (List Step) :=
  (Resolver.resolve (buildInitialMoveList parallelMove).get).map Resolver.emitted

end NougatArt.Moves
