import NougatArt.Moves.Location
import Mathlib.Logic.Relation

/-!
# Moves and what they do to the memory

The code generators emit moves and swaps of two locations. A move copies the words of
its source to its destination, a swap exchanges the words of the operands, which may be
the first words of larger registers. A move is blocked by the moves whose sources are in
its destination.
-/

namespace NougatArt.Moves

open List

structure MoveOperands where
  source : Location
  destination : Location
  is64BitMove : Bool
  deriving DecidableEq

namespace MoveOperands

def isEliminated (move : MoveOperands) : Bool := move.source = .noLocation

/-- A move in progress has no destination. -/
def isPending (move : MoveOperands) : Bool :=
  move.destination = .noLocation && move.source ≠ .noLocation

def blocks (move : MoveOperands) (location : Location) : Bool :=
  !move.isEliminated && move.source.overlapsWith location

def isRedundant (move : MoveOperands) : Bool :=
  move.isEliminated || move.destination = .noLocation || move.source = move.destination

def eliminate (move : MoveOperands) : MoveOperands :=
  { move with source := .noLocation, destination := .noLocation }

def width (move : MoveOperands) : ℕ := if move.is64BitMove then 2 else 1

end MoveOperands

/-! ### Moves that wait for each other -/

section Blocked

variable {count : ℕ} (moves : Fin count → MoveOperands)

/-- The source of the second move is in the destination of the first one. -/
def BlockedBy (index other : Fin count) : Prop :=
  (moves other).source.overlapsWith (moves index).destination = true

def WaitsFor : Fin count → Fin count → Prop := Relation.TransGen (BlockedBy moves)

def OnCycle (index : Fin count) : Prop := WaitsFor moves index index

end Blocked

abbrev Memory := Word → BitVec 32

structure Target where
  widths : Widths
  constants : ℕ → List (BitVec 32)

namespace Target

variable (target : Target)

def read (memory : Memory) : Location → List (BitVec 32)
  | .constant constant => target.constants constant
  | location => (location.words target.widths).map memory

/-- What is left of the destination is filled with zeros. -/
def move (source destination : Location) (memory : Memory) : Memory := fun word =>
  if word ∈ destination.words target.widths then
    (target.read memory source).getD ((destination.words target.widths).idxOf word) 0
  else
    memory word

end Target

def exchange (first second : List Word) (word : Word) : Word :=
  if word ∈ first then
    second.getD (first.idxOf word) word
  else if word ∈ second then
    first.getD (second.idxOf word) word
  else
    word

namespace Target

variable (target : Target)

/-- A swap of operands with as many words as the width says. -/
def swap (source destination : Location) (width : ℕ) (memory : Memory) : Memory := fun word =>
  memory (exchange ((source.words target.widths).take width)
    ((destination.words target.widths).take width) word)

end Target

inductive Step
  | move (source destination : Location)
  | swap (source destination : Location) (width : ℕ)
  deriving DecidableEq

variable {word : Word}

namespace Target

variable (target : Target)

def perform (memory : Memory) : Step → Memory
  | .move source destination => target.move source destination memory
  | .swap source destination width => target.swap source destination width memory

def run (steps : List Step) (memory : Memory) : Memory := steps.foldl target.perform memory

variable {target}

@[simp]
theorem run_append (first second : List Step) (memory : Memory) :
    target.run (first ++ second) memory = target.run second (target.run first memory) :=
  foldl_append

@[simp]
theorem run_singleton (step : Step) (memory : Memory) :
    target.run [step] memory = target.perform memory step :=
  rfl

variable {loc : Location}

theorem read_of_not_constant (hloc : loc.isConstant = false) (memory : Memory) :
    target.read memory loc = (loc.words target.widths).map memory := by
  cases loc <;> first | rfl | cases hloc

variable {memory : Memory}

theorem read_congr {memory' : Memory}
    (hsame : ∀ word ∈ loc.words target.widths, memory word = memory' word) :
    target.read memory loc = target.read memory' loc := by
  cases hconst : loc.isConstant with
  | true =>
    cases loc <;> first | rfl | cases hconst
  | false =>
    rw [read_of_not_constant hconst, read_of_not_constant hconst]
    exact map_congr_left hsame

/-! ### Moves -/

variable {src dest : Location}

theorem move_of_notMem (hword : word ∉ dest.words target.widths) :
    target.move src dest memory word = memory word :=
  if_neg hword

/-- The destination of a move holds as much of the source as fits. -/
theorem read_move_destination (hdest : dest.WellFormed target.widths) (i : ℕ)
    (hindex : i < (dest.words target.widths).length) :
    (target.read (target.move src dest memory) dest)[i]? =
      some ((target.read memory src).getD i 0) := by
  rw [read_of_not_constant hdest.isConstant, getElem?_map,
    getElem?_eq_getElem hindex, Option.map_some]
  congr 1
  rw [move, if_pos (getElem_mem hindex), hdest.nodup.idxOf_getElem]

/-- The first words of the destination of a move are those of its source. -/
theorem take_read_move (hdest : dest.WellFormed target.widths) {width : ℕ}
    (hwidth : width ≤ (dest.words target.widths).length)
    (hsrc : width ≤ (target.read memory src).length) :
    (target.read (target.move src dest memory) dest).take width =
      (target.read memory src).take width := by
  apply ext_getElem?
  intro i
  by_cases hindex : i < width
  · rw [getElem?_take_of_lt hindex, getElem?_take_of_lt hindex,
      read_move_destination hdest i (by omega), getD_eq_getElem _ _ (by omega),
      getElem?_eq_getElem]
  · rw [getElem?_eq_none (by simp; omega), getElem?_eq_none (by simp; omega)]

end Target

/-! ### Swaps -/

section Exchange

variable {first second : List Word} (hfirst : first.Nodup) (hsnd : second.Nodup)
  (hdisj : first.Disjoint second) (hlen : first.length = second.length)

theorem exchange_of_notMem (hword : word ∉ first) (hword' : word ∉ second) :
    exchange first second word = word := by
  rw [exchange, if_neg hword, if_neg hword']

include hfirst hlen

theorem exchange_getElem_first (i : ℕ) (hindex : i < first.length) :
    exchange first second first[i] = second[i] := by
  rw [exchange, if_pos (getElem_mem hindex), hfirst.idxOf_getElem,
    getD_eq_getElem _ _ (hlen ▸ hindex)]

theorem map_exchange_first : first.map (exchange first second) = second := by
  apply ext_getElem
  · rw [length_map, hlen]
  · intro i hindex hindex'
    rw [getElem_map]
    exact exchange_getElem_first hfirst hlen i _

omit hfirst

include hsnd hdisj

theorem exchange_getElem_second (i : ℕ) (hindex : i < second.length) :
    exchange first second second[i] = first[i] := by
  have hmem : second[i] ∈ second := getElem_mem hindex
  rw [exchange, if_neg fun hword => hdisj hword hmem, if_pos hmem, hsnd.idxOf_getElem,
    getD_eq_getElem _ _ (hlen ▸ hindex)]

theorem map_exchange_second : second.map (exchange first second) = first := by
  apply ext_getElem
  · rw [length_map, hlen]
  · intro i hindex hindex'
    rw [getElem_map]
    exact exchange_getElem_second hsnd hdisj hlen i _

include hfirst

theorem exchange_exchange (word : Word) :
    exchange first second (exchange first second word) = word := by
  by_cases hword : word ∈ first
  · obtain ⟨i, hindex, rfl⟩ := getElem_of_mem hword
    rw [exchange_getElem_first hfirst hlen _ hindex, exchange_getElem_second hsnd hdisj hlen]
  · by_cases hword' : word ∈ second
    · obtain ⟨i, hindex, rfl⟩ := getElem_of_mem hword'
      rw [exchange_getElem_second hsnd hdisj hlen _ hindex, exchange_getElem_first hfirst hlen]
    · rw [exchange_of_notMem hword hword', exchange_of_notMem hword hword']

end Exchange

namespace Layout

variable {layout : Layout}

/-- An operand that a write to another one does not change. -/
def Keeps (layout : Layout) (written location : Location) : Prop :=
  location.isConstant = true ∨ layout.Operand location ∧ location.overlapsWith written = false

theorem Keeps.read_move {constants : ℕ → List (BitVec 32)} {written loc : Location}
    (hkeeps : layout.Keeps written loc) (hwritten : layout.Operand written) (src : Location)
    (memory : Memory) : Target.read ⟨layout.widths, constants⟩
        (Target.move ⟨layout.widths, constants⟩ src written memory) loc =
      Target.read ⟨layout.widths, constants⟩ memory loc := by
  rcases hkeeps with hconst | ⟨hloc, hapart⟩
  · cases loc <;> first | rfl | cases hconst
  · exact Target.read_congr fun _ hword =>
      Target.move_of_notMem (disjoint_of_not_overlapsWith hloc hwritten hapart hword)

end Layout

end NougatArt.Moves
