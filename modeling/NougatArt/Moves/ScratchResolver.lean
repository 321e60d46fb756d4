import NougatArt.Moves.MoveOperands

/-!
# Resolving parallel moves with scratch locations

This is `ParallelMoveResolverNoSwap`. A move that closes a cycle goes to a scratch
location, and a pending move from there to its destination is performed when the
destination is not blocked any more. The scratch location may be the destination of a
move that was not performed yet.
-/

namespace NougatArt.Moves

open List

inductive Kind
  | invalid
  | constant
  | stackSlot
  | doubleStackSlot
  | register
  | fpuRegister
  | registerPair
  | fpuRegisterPair
  deriving DecidableEq

def Location.kind : Location → Kind
  | noLocation => .invalid
  | constant _ => .constant
  | stackSlot _ => .stackSlot
  | doubleStackSlot _ => .doubleStackSlot
  | register _ => .register
  | fpuRegister _ => .fpuRegister
  | registerPair _ _ => .registerPair
  | fpuRegisterPair _ _ => .fpuRegisterPair

/-- The moves, the pending moves, the scratch locations and the steps emitted so far. -/
structure ScratchResolver (count : ℕ) where
  moves : Fin count → MoveOperands
  pendingMoves : List MoveOperands
  scratches : List Location
  emitted : List Step

/-- The functions of a code generator that choose the scratch locations. The list is that of
the scratch locations after the call. -/
structure Backend (count : ℕ) where
  allocateScratchLocationFor : ScratchResolver count → Kind → Location × List Location
  freeScratchLocation : List Location → Location → List Location

namespace ScratchResolver

variable {count : ℕ} (resolver : ScratchResolver count)

def setDestination (index : Fin count) (destination : Location) : ScratchResolver count :=
  { resolver with
    moves := Function.update resolver.moves index { resolver.moves index with destination } }

def eliminate (index : Fin count) : ScratchResolver count := { resolver with
    moves := Function.update resolver.moves index (resolver.moves index).eliminate }

def emit (source destination : Location) : ScratchResolver count :=
  { resolver with emitted := resolver.emitted ++ [.move source destination] }

def updateMoveSource (source destination : Location) : ScratchResolver count := { resolver with
    moves := fun index =>
      if (resolver.moves index).source = source then
        { resolver.moves index with source := destination }
      else
        resolver.moves index }

def addPendingMove (move : MoveOperands) : ScratchResolver count :=
  { resolver with pendingMoves := resolver.pendingMoves ++ [move] }

def isBlockedByMoves (location : Location) : Bool :=
  (resolver.pendingMoves.any fun move => move.blocks location) ||
    (finRange count).any fun index => (resolver.moves index).blocks location

/-- `GetScratchLocation`: a scratch location or the destination of a move. -/
def getScratchLocation (kind : Kind) : Location :=
  let isFree := fun location : Location =>
    location.kind = kind && !resolver.isBlockedByMoves location
  match resolver.scratches.find? isFree with
  | some location => location
  | none =>
    match ((finRange count).map fun index => (resolver.moves index).destination).find? isFree with
    | some location => location
    | none => .noLocation

def getUnblockedPendingMove (location : Location) : Option MoveOperands :=
  resolver.pendingMoves.find? fun move =>
    move.destination.overlapsWith location && !resolver.isBlockedByMoves move.destination

variable (backend : Backend count)

/-- The loop that frees the scratch locations which a move does not block any more. -/
def freeScratches (resolver : ScratchResolver count) (source : Location) : ScratchResolver count :=
  { resolver with
    scratches := (range resolver.scratches.length).foldl
      (fun scratches i => match scratches[i]? with
        | some scratch =>
          if scratch.overlapsWith source && !resolver.isBlockedByMoves scratch then
            backend.freeScratchLocation scratches source
          else
            scratches
        | none => scratches)
      resolver.scratches }

def performPendingMove (resolver : ScratchResolver count) (move : MoveOperands) :
    ScratchResolver count :=
  (({ resolver with pendingMoves := resolver.pendingMoves.erase move }.emit move.source
    move.destination).updateMoveSource move.source move.destination).freeScratches backend
      move.source

/-- The loop over the pending moves that the performed move unblocked. -/
def performPendingMoves (source : Location) : ℕ → ScratchResolver count → ScratchResolver count
  | 0, resolver => resolver
  | fuel + 1, resolver =>
    match resolver.getUnblockedPendingMove source with
    | none => resolver
    | some move => performPendingMoves source fuel (resolver.performPendingMove backend move)

/-- Performs a move to its destination or to a scratch location. -/
def performTo (resolver : ScratchResolver count) (index : Fin count) (destination : Location) :
    ScratchResolver count :=
  let source := (resolver.moves index).source
  ((resolver.emit source destination).eliminate index).updateMoveSource source destination

def performToScratch (resolver : ScratchResolver count) (index : Fin count) :
    ScratchResolver count :=
  let move := resolver.moves index
  let allocated := backend.allocateScratchLocationFor resolver move.source.kind
  ({ resolver with scratches := allocated.2 }.performTo index allocated.1).addPendingMove
    { move with source := allocated.1 }

/-- The end of `PerformMove`, after the moves that block it. -/
def finishMove (resolver : ScratchResolver count) (index : Fin count) : ScratchResolver count :=
  let move := resolver.moves index
  let performed :=
    if resolver.isBlockedByMoves move.destination then
      resolver.performToScratch backend index
    else
      resolver.performTo index move.destination
  performed.performPendingMoves backend move.source performed.pendingMoves.length

def performMove : ℕ → Fin count → ScratchResolver count → Option (ScratchResolver count)
  | 0, _, _ => none
  | fuel + 1, index, resolver =>
    if (resolver.moves index).isRedundant then
      some (resolver.eliminate index)
    else
      let destination := (resolver.moves index).destination
      -- The destination is cleared while the move is in progress.
      ((finRange count).foldlM (fun resolver other =>
          if (resolver.moves other).blocks destination && !(resolver.moves other).isPending then
            performMove fuel other resolver
          else
            some resolver)
        (resolver.setDestination index .noLocation)).map fun resolver =>
          (resolver.setDestination index destination).finishMove backend index

def performOtherMove (resolver : ScratchResolver count) (index : Fin count) :
    Option (ScratchResolver count) :=
  let move := resolver.moves index
  if !move.isEliminated && !move.source.isConstant then
    performMove backend (count + 1) index resolver
  else
    some resolver

/-- The second loop, over the constants that go to registers. -/
def performRegisterMove (resolver : ScratchResolver count) (index : Fin count) :
    ScratchResolver count :=
  let move := resolver.moves index
  if !move.isEliminated && !move.destination.isStackSlot && !move.destination.isDoubleStackSlot then
    resolver.performTo index move.destination
  else
    resolver

def performLastMove (resolver : ScratchResolver count) (index : Fin count) :
    ScratchResolver count :=
  let move := resolver.moves index
  if !move.isEliminated then
    (resolver.emit move.source move.destination).eliminate index
  else
    resolver

def resolve (moves : Fin count → MoveOperands) : Option (ScratchResolver count) := do
  let resolver ← (finRange count).foldlM (performOtherMove backend) ⟨moves, [], [], []⟩
  let resolver := (finRange count).foldl performRegisterMove resolver
  return (finRange count).foldl performLastMove resolver

end ScratchResolver

end NougatArt.Moves
