import NougatArt.Hir.Types

/-!
# Induction information

The induction variable analysis describes the values of an instruction in the
successive iterations of a loop. An invariant is an expression over
instructions defined outside the loop; the other descriptions are built from
invariants: `a * i + b`, a first value followed by another induction one
iteration late, and a sequence that is repeated.

Two readings of a description are used. The unbounded one computes with
integers; the run-time one reduces the result to the type that is recorded with
the description.
-/

namespace NougatArt.Induction

/-- An instruction as an operand. The graph keeps one instruction for each
constant, so a constant is named by its value. -/
inductive HInstruction
  | intConstant (value : ℤ)
  | longConstant (value : ℤ)
  | node (id : ℕ)
  deriving DecidableEq, Repr

inductive Kind
  | phi
  | add
  | sub
  | mul
  | div
  | shl
  | neg
  | typeConversion
  | boundsCheck
  | arrayLength
  | newArray
  | other
  deriving DecidableEq, Repr

structure Node where
  kind : Kind
  type : PrimitiveType
  inputs : List HInstruction
  block : ℕ
  deriving Repr

/-- A loop: the header block, all blocks of the loop with those of its inner
loops, the phis of the header, and the instructions of the blocks that belong
to no inner loop in the order in which they are visited. -/
structure HLoopInformation where
  header : ℕ
  blocks : List ℕ
  phis : List ℕ
  instructions : List ℕ
  deriving Repr

structure HGraph where
  node : ℕ → Node
  /-- The innermost loop of a block. -/
  loopOf : ℕ → Option ℕ
  loop : ℕ → HLoopInformation

namespace HGraph

variable (graph : HGraph)

def typeOf : HInstruction → PrimitiveType
  | .intConstant _ => .int
  | .longConstant _ => .long
  | .node id => (graph.node id).type

/-- `GetBlock()->GetLoopInformation()`; constants stand in the entry block. -/
def loopInformation : HInstruction → Option ℕ
  | .intConstant _ | .longConstant _ => none
  | .node id => graph.loopOf (graph.node id).block

/-- The loop `outer` contains the loop `inner` as an inner loop. -/
def encloses (outer inner : ℕ) : Bool :=
  outer != inner && (graph.loop outer).blocks.contains (graph.loop inner).header

end HGraph

/-- The constant of a 32-bit or 64-bit constant instruction. -/
def isIntAndGet : HInstruction → Option ℤ
  | .intConstant value | .longConstant value => some value
  | .node _ => none

inductive InductionOp
  | add
  | sub
  | mul
  | div
  | lt
  | le
  | gt
  | ge
  deriving DecidableEq, Repr

inductive Invariant
  | fetch (instruction : HInstruction) (type : PrimitiveType)
  | op (operation : InductionOp) (a b : Invariant) (type : PrimitiveType)
  | neg (b : Invariant) (type : PrimitiveType)
  deriving DecidableEq, Repr

/-- A periodic induction: `a`, then defined by `b`, repeated when exhausted. -/
inductive Periodic
  | last (a b : Invariant) (type : PrimitiveType)
  | cons (a : Invariant) (b : Periodic) (type : PrimitiveType)
  deriving DecidableEq, Repr

inductive InductionInfo
  | invariant (expression : Invariant)
  | linear (a b : Invariant) (type : PrimitiveType)
  | wrapAround (a : Invariant) (b : InductionInfo) (type : PrimitiveType)
  | periodic (cycle : Periodic)
  deriving DecidableEq, Repr

inductive TripKind
  | inLoop
  | inBody
  | inLoopUnsafe
  | inBodyUnsafe
  deriving DecidableEq, Repr

/-- A trip count: the number of iterations, with the test that the loop is taken. -/
structure TripCount where
  kind : TripKind
  count : Invariant
  takenTest : Invariant
  type : PrimitiveType
  deriving DecidableEq, Repr

namespace InductionOp

def apply : InductionOp → ℤ → ℤ → ℤ
  | add, left, right => left + right
  | sub, left, right => left - right
  | mul, left, right => left * right
  | div, left, right => left.tdiv right
  | lt, left, right => if left < right then 1 else 0
  | le, left, right => if left ≤ right then 1 else 0
  | gt, left, right => if left > right then 1 else 0
  | ge, left, right => if left ≥ right then 1 else 0

end InductionOp

namespace Invariant

def type : Invariant → PrimitiveType
  | fetch _ type | op _ _ _ type | neg _ type => type

def eval (value : HInstruction → ℤ) : Invariant → ℤ
  | fetch instruction _ => value instruction
  | op operation a b _ => operation.apply (a.eval value) (b.eval value)
  | neg b _ => -b.eval value

def fetches : Invariant → List HInstruction
  | fetch instruction _ => [instruction]
  | op _ a b _ => a.fetches ++ b.fetches
  | neg b _ => b.fetches

end Invariant

namespace Periodic

def type : Periodic → PrimitiveType
  | last _ _ type | cons _ _ type => type

def toList : Periodic → List Invariant
  | last a b _ => [a, b]
  | cons a b _ => a :: b.toList

theorem toList_ne_nil (cycle : Periodic) : cycle.toList ≠ [] := by
  cases cycle <;> simp [toList]

theorem length_toList_pos (cycle : Periodic) : 0 < cycle.toList.length :=
  List.length_pos_iff.mpr cycle.toList_ne_nil

def element (cycle : Periodic) (i : ℕ) : Invariant :=
  cycle.toList.get ⟨i % cycle.toList.length, Nat.mod_lt _ cycle.length_toList_pos⟩

theorem element_mem (cycle : Periodic) (i : ℕ) : cycle.element i ∈ cycle.toList := List.get_mem ..

end Periodic

/-- The type in which the machine computes with values of a type. -/
def computationType : PrimitiveType → PrimitiveType
  | .long => .long
  | _ => .int

/-- The arithmetic of a linear induction: the recorded type may be narrower than
the type in which the machine computes. -/
def inductionType : PrimitiveType → PrimitiveType
  | .byte => .byte
  | .char => .char
  | .short => .short
  | .long => .long
  | _ => .int

namespace InductionInfo

def type : InductionInfo → PrimitiveType
  | invariant expression => expression.type
  | linear _ _ type | wrapAround _ _ type => type
  | periodic cycle => cycle.type

def unbounded (value : HInstruction → ℤ) : InductionInfo → ℕ → ℤ
  | invariant expression, _ => expression.eval value
  | linear a b _, i => a.eval value * i + b.eval value
  | wrapAround a _ _, 0 => a.eval value
  | wrapAround _ b _, i + 1 => b.unbounded value i
  | periodic cycle, i => (cycle.element i).eval value

/-- The value in iteration `i` in the arithmetic of the recorded types. -/
def denote (value : HInstruction → ℤ) : InductionInfo → ℕ → ℤ
  | invariant expression, _ => (computationType expression.type).convert (expression.eval value)
  | linear a b type, i => (inductionType type).convert (a.eval value * i + b.eval value)
  | wrapAround a _ _, 0 => (computationType a.type).convert (a.eval value)
  | wrapAround _ b _, i + 1 => b.denote value i
  | periodic cycle, i =>
    (computationType (cycle.element i).type).convert ((cycle.element i).eval value)

def fetches : InductionInfo → List HInstruction
  | invariant expression => expression.fetches
  | linear a b _ => a.fetches ++ b.fetches
  | wrapAround a b _ => a.fetches ++ b.fetches
  | periodic cycle => cycle.toList.flatMap Invariant.fetches

end InductionInfo

structure InductionAnalysis where
  graph : HGraph
  lookupInfo : ℕ → HInstruction → Option InductionInfo
  tripCount : ℕ → Option TripCount

end NougatArt.Induction
