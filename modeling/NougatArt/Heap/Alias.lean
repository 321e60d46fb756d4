import NougatArt.Core.FlowGraph
import NougatArt.Hir.Types

/-!
# Alias analysis

This is `AliasCheck`. Seven kinds of instructions are compared by what they
access; every other instruction is known by its side effects only. The source
asks for aliasing of two base objects by calling itself on the instructions that
compute them, so the functions below are parametrized by the answer for the
bases, and `alias` ties the knot along the rank of the operands.
-/

namespace NougatArt.Heap

open Nat

inductive AliasKind
  | noAlias
  | mayAlias
  | mustAlias
  deriving DecidableEq, Repr

structure FieldInfo where
  fieldOffset : ℕ
  fieldType : PrimitiveType
  isVolatile : Bool
  deriving DecidableEq

/-- Instructions as alias analysis sees them. `addLHSMemory` adds to a field or
to an array element in memory; it has an index operand in the latter case. -/
inductive Kind
  | instanceFieldGet (field : FieldInfo)
  | instanceFieldSet (field : FieldInfo)
  | staticFieldGet (field : FieldInfo)
  | staticFieldSet (field : FieldInfo)
  | arrayGet (type : PrimitiveType)
  | arraySet (componentType : PrimitiveType)
  | addLHSMemory (offset : ℕ) (type : PrimitiveType)
  | nullCheck
  | boundsCheck
  | clinitCheck
  | loadClass (data : ℕ)
  | intConstant (value : BitVec 32)
  | phi
  | other (doesAnyWrite isMonitorOperation isInvoke : Bool)
  deriving DecidableEq

/-- `HasWriteSideEffects`. An addition in memory is declared without side effects. -/
def Kind.hasWriteSideEffects : Kind → Bool
  | .instanceFieldSet _ | .staticFieldSet _ | .arraySet _ | .clinitCheck => true
  | .other doesAnyWrite isMonitorOperation _ => doesAnyWrite || isMonitorOperation
  | _ => false

/-- The operands an instruction has at least: the base or class, then the index,
then the stored value. -/
def Kind.arity : Kind → ℕ
  | .instanceFieldGet _ | .staticFieldGet _ | .nullCheck | .clinitCheck => 1
  | .instanceFieldSet _ | .staticFieldSet _ | .arrayGet _ | .addLHSMemory _ _
  | .boundsCheck => 2
  | .arraySet _ => 3
  | .loadClass _ | .intConstant _ | .phi | .other _ _ _ => 0

/-- Stores produce no value that another instruction could use. -/
def Kind.producesValue : Kind → Bool
  | .instanceFieldSet _ | .staticFieldSet _ | .arraySet _ | .addLHSMemory _ _ => false
  | _ => true

structure ReferenceTypeInfo (Class : Type) where
  typeHandle : Class
  isExact : Bool
  deriving DecidableEq

/-- An SSA graph at the level of single instructions, all of which are reachable.
The rank orders the operands of an instruction, other than those of a phi, before
it. -/
structure HGraph (Class : Type) (insns : ℕ) where
  kind : Fin insns → Kind
  inputs : Fin insns → List (Fin insns)
  referenceTypeInfo : Fin insns → Option (ReferenceTypeInfo Class)
  flow : FlowGraph (Fin insns)
  rank : Fin insns → ℕ
  reachable : ∀ insn, flow.Reachable insn
  arity_le : ∀ insn, (kind insn).arity ≤ (inputs insn).length
  rank_lt : ∀ insn, kind insn ≠ .phi → ∀ input ∈ inputs insn, rank input < rank insn
  operands_dominate : ∀ insn, kind insn ≠ .phi → ∀ input ∈ inputs insn, flow.Dominates input insn
  operands_produce : ∀ insn, ∀ input ∈ inputs insn, (kind input).producesValue

namespace HGraph

variable {Class : Type} [DecidableEq Class] {insns : ℕ} (graph : HGraph Class insns)
  (isAssignableFrom : Class → Class → Bool)

/-- `InputAt`; the index is in range for the operands an instruction has. -/
def inputAt (insn : Fin insns) (index : ℕ) : Fin insns := (graph.inputs insn).getD index insn

def skipNullCheck (insn : Fin insns) : Fin insns :=
  if graph.kind insn = .nullCheck then graph.inputAt insn 0 else insn

def skipBoundsCheck (insn : Fin insns) : Fin insns :=
  if graph.kind insn = .boundsCheck then graph.inputAt insn 0 else insn

/-- All `NullCheck`s and `ClinitCheck`s are looked through. -/
def skipChecks : ℕ → Fin insns → Fin insns
  | 0, insn => insn
  | fuel + 1, insn =>
    if graph.kind insn = .nullCheck ∨ graph.kind insn = .clinitCheck then
      skipChecks fuel (graph.inputAt insn 0)
    else
      insn

/-- `GetIndex` of an `HInstructionLHSMemory`: it has three operands if it is indexed. -/
def getIndex (insn : Fin insns) : Option (Fin insns) :=
  if (graph.inputs insn).length = 2 then none else some (graph.inputAt insn 1)

def mayTypesAlias (x y : Fin insns) : Bool :=
  let x := graph.skipChecks (graph.rank x) x
  let y := graph.skipChecks (graph.rank y) y
  if x = y then
    true
  else
    match graph.referenceTypeInfo x, graph.referenceTypeInfo y with
    | some xRti, some yRti =>
      if xRti.typeHandle ≠ yRti.typeHandle then
        if xRti.isExact && yRti.isExact then
          false
        else if !isAssignableFrom xRti.typeHandle yRti.typeHandle &&
            !isAssignableFrom yRti.typeHandle xRti.typeHandle then
          false
        else
          true
      else
        true
    | _, _ => true

section Bases

variable (mustAlias : Fin insns → Fin insns → Bool)

def instanceBaseSame (x y : Fin insns) : Bool :=
  let x := graph.skipNullCheck x
  let y := graph.skipNullCheck y
  if x = y then true else mustAlias x y

def arrayBaseSame (x y : Fin insns) : Bool :=
  if x = y then true else mustAlias x y

def instanceAlias (xField yField : FieldInfo) (xBase yBase : Fin insns) : AliasKind :=
  if xField.isVolatile || yField.isVolatile then
    .mayAlias
  else if xField.fieldOffset ≠ yField.fieldOffset ∨ xField.fieldType ≠ yField.fieldType ∨
      !graph.mayTypesAlias isAssignableFrom xBase yBase then
    .noAlias
  else if graph.instanceBaseSame mustAlias xBase yBase then
    .mustAlias
  else
    .mayAlias

def sameLoadClass (x y : Fin insns) : Bool :=
  match graph.kind x, graph.kind y with
  | .loadClass xData, .loadClass yData => xData = yData
  | _, _ => false

def staticAlias (xField yField : FieldInfo) (xCls yCls : Fin insns) : AliasKind :=
  if xField.isVolatile || yField.isVolatile then
    .mayAlias
  else if xField.fieldOffset ≠ yField.fieldOffset ∨ xField.fieldType ≠ yField.fieldType ∨
      !graph.mayTypesAlias isAssignableFrom xCls yCls then
    .noAlias
  else if xCls = yCls ∨ graph.sameLoadClass xCls yCls then
    .mustAlias
  else
    .mayAlias

def arrayIndexAlias (x y : Fin insns) : AliasKind :=
  let x := graph.skipBoundsCheck x
  let y := graph.skipBoundsCheck y
  if x = y then
    .mustAlias
  else
    match graph.kind x, graph.kind y with
    | .intConstant xValue, .intConstant yValue =>
      if xValue.toInt = yValue.toInt then .mustAlias else .noAlias
    | _, _ => .mayAlias

def componentSize : PrimitiveType → ℕ
  | .void => 0
  | .boolean | .byte => 1
  | .char | .short => 2
  | .int | .float | .not => 4
  | .long | .double => 8

def isIntOrLongType : PrimitiveType → Bool
  | .int | .long => true
  | _ => false

def arrayTypesDiffer (xType yType : PrimitiveType) : Bool :=
  xType ≠ yType ∧ (componentSize xType ≠ componentSize yType ∨ xType = .not ∨ yType = .not ∨
      (!isIntOrLongType xType && !isIntOrLongType yType))

/-- `Array_alias`, for operands `base` and `index` of either access. -/
def arrayAlias (x y : Fin insns) (xType yType : PrimitiveType)
    (xBase yBase xIndex yIndex : Fin insns) : AliasKind :=
  if x = y then
    .mustAlias
  else if arrayBaseSame mustAlias xBase yBase then
    graph.arrayIndexAlias xIndex yIndex
  else if arrayTypesDiffer xType yType then
    .noAlias
  else
    .mayAlias

def lhsMemoryArrayAlias (xType yType : PrimitiveType)
    (xBase yBase xIndex yIndex : Fin insns) : AliasKind :=
  if arrayBaseSame mustAlias xBase yBase then
    graph.arrayIndexAlias xIndex yIndex
  else if xType ≠ yType ∧ (componentSize xType ≠ componentSize yType ∨ !isIntOrLongType yType) then
    .noAlias
  else
    .mayAlias

def lhsMemoryFieldAlias (xOffset : ℕ) (xBase yBase : Fin insns) (field : FieldInfo) : AliasKind :=
  if field.isVolatile then
    .mayAlias
  else if field.fieldOffset ≠ xOffset then
    .noAlias
  else if graph.instanceBaseSame mustAlias xBase yBase then
    .mustAlias
  else
    .mayAlias

def aliasOther (kind : Kind) : AliasKind :=
  if kind.hasWriteSideEffects then .mayAlias else .noAlias

/-- The answer for fields that are of a different kind than the other access. -/
def aliasOtherField (field : FieldInfo) : AliasKind :=
  if field.isVolatile then .mayAlias else .noAlias

/-- `Alias` of an `HInstanceFieldGet` or `HInstanceFieldSet` with another instruction. -/
def aliasInstanceField (x y : Fin insns) (xField : FieldInfo) : AliasKind :=
  if x = y then
    .mustAlias
  else
    match graph.kind y with
    | .instanceFieldGet yField | .instanceFieldSet yField =>
      graph.instanceAlias isAssignableFrom mustAlias xField yField (graph.inputAt x 0)
        (graph.inputAt y 0)
    | .staticFieldGet yField | .staticFieldSet yField => aliasOtherField yField
    | .arrayGet _ | .arraySet _ => .noAlias
    | .addLHSMemory _ _ => if (graph.getIndex y).isSome then .noAlias else .mayAlias
    | kind => aliasOther kind

/-- `Alias` of an `HStaticFieldGet` or `HStaticFieldSet` with another instruction. -/
def aliasStaticField (x y : Fin insns) (xField : FieldInfo) : AliasKind :=
  if x = y then
    .mustAlias
  else
    match graph.kind y with
    | .staticFieldGet yField | .staticFieldSet yField =>
      graph.staticAlias isAssignableFrom xField yField (graph.inputAt x 0) (graph.inputAt y 0)
    | .instanceFieldGet yField | .instanceFieldSet yField => aliasOtherField yField
    | .arrayGet _ | .arraySet _ => .noAlias
    | .addLHSMemory _ _ => if (graph.getIndex y).isSome then .noAlias else .mayAlias
    | kind => aliasOther kind

/-- `Alias` of an `HArrayGet` or `HArraySet` with another instruction. -/
def aliasArray (x y : Fin insns) (xType : PrimitiveType) : AliasKind :=
  match graph.kind y with
  | .arrayGet yType | .arraySet yType =>
    graph.arrayAlias mustAlias x y xType yType (graph.inputAt x 0) (graph.inputAt y 0)
      (graph.inputAt x 1) (graph.inputAt y 1)
  | .instanceFieldGet yField | .instanceFieldSet yField
  | .staticFieldGet yField | .staticFieldSet yField => aliasOtherField yField
  | .addLHSMemory _ _ => if (graph.getIndex y).isNone then .noAlias else .mayAlias
  | kind => aliasOther kind

/-- `Alias` of an `HInstructionLHSMemory` with another instruction. -/
def aliasLHSMemory (x y : Fin insns) (xOffset : ℕ) (xType : PrimitiveType) : AliasKind :=
  match graph.kind y, graph.getIndex x with
  | .arrayGet yType, some index | .arraySet yType, some index =>
    graph.lhsMemoryArrayAlias mustAlias xType yType (graph.inputAt x 0) (graph.inputAt y 0)
      index (graph.inputAt y 1)
  | .arrayGet _, none | .arraySet _, none => .noAlias
  | .instanceFieldGet yField, none | .instanceFieldSet yField, none
  | .staticFieldGet yField, none | .staticFieldSet yField, none =>
    graph.lhsMemoryFieldAlias mustAlias xOffset (graph.inputAt x 0) (graph.inputAt y 0) yField
  | .instanceFieldGet _, some _ | .instanceFieldSet _, some _
  | .staticFieldGet _, some _ | .staticFieldSet _, some _ => .noAlias
  | .addLHSMemory _ _, _ => .mayAlias
  | kind, _ => aliasOther kind

/-- `Alias` once the instruction with the lower id comes first. -/
def aliasOrdered (x y : Fin insns) : AliasKind :=
  match graph.kind x with
  | .instanceFieldGet xField | .instanceFieldSet xField =>
    graph.aliasInstanceField isAssignableFrom mustAlias x y xField
  | .staticFieldGet xField | .staticFieldSet xField =>
    graph.aliasStaticField isAssignableFrom x y xField
  | .arrayGet xType | .arraySet xType => graph.aliasArray mustAlias x y xType
  | .addLHSMemory xOffset xType => graph.aliasLHSMemory mustAlias x y xOffset xType
  | kind => aliasOther kind

end Bases

/-- `Alias` with the recursion into the base objects cut off at a depth. -/
def aliasAtDepth : ℕ → Fin insns → Fin insns → AliasKind
  | 0, _, _ => .mayAlias
  | depth + 1, x, y =>
    let mustAlias := fun x y => decide (aliasAtDepth depth x y = .mustAlias)
    if y < x then graph.aliasOrdered isAssignableFrom mustAlias y x
    else graph.aliasOrdered isAssignableFrom mustAlias x y

/-- `AliasCheck::Alias`. The bases have a smaller rank, so this depth suffices. -/
def aliasCheck (x y : Fin insns) : AliasKind :=
  graph.aliasAtDepth isAssignableFrom (graph.rank x + graph.rank y + 1) x y

/-! ## The recursion into the bases -/

variable {graph isAssignableFrom} {insn x y : Fin insns} {i : ℕ}

omit [DecidableEq Class] in
theorem inputAt_mem (hindex : i < (graph.kind insn).arity) :
    graph.inputAt insn i ∈ graph.inputs insn := by
  have hlen := lt_of_lt_of_le hindex (graph.arity_le insn)
  rw [inputAt, List.getD_eq_getElem?_getD, List.getElem?_eq_getElem hlen, Option.getD_some]
  exact List.getElem_mem hlen

omit [DecidableEq Class] in
theorem rank_inputAt_lt (hindex : i < (graph.kind insn).arity) :
    graph.rank (graph.inputAt insn i) < graph.rank insn := by
  refine graph.rank_lt insn (fun hphi => ?_) _ (inputAt_mem hindex)
  rw [hphi] at hindex
  exact not_lt_zero _ hindex

omit [DecidableEq Class] in
theorem rank_skipNullCheck_le (insn : Fin insns) :
    graph.rank (graph.skipNullCheck insn) ≤ graph.rank insn := by
  unfold skipNullCheck
  split
  next hkind => exact (rank_inputAt_lt (by rw [hkind]; decide)).le
  · exact le_rfl

section Congr

variable {mustAlias mustAlias' : Fin insns → Fin insns → Bool}

omit [DecidableEq Class] in
theorem instanceBaseSame_congr {xBase yBase : Fin insns} (hxBase : graph.rank xBase < graph.rank x)
    (hyBase : graph.rank yBase < graph.rank y)
    (hagree : ∀ a b, graph.rank a < graph.rank x → graph.rank b < graph.rank y →
      mustAlias a b = mustAlias' a b) : graph.instanceBaseSame mustAlias xBase yBase =
      graph.instanceBaseSame mustAlias' xBase yBase := by
  simp only [instanceBaseSame]
  rw [hagree _ _ ((rank_skipNullCheck_le xBase).trans_lt hxBase)
    ((rank_skipNullCheck_le yBase).trans_lt hyBase)]

/-- The answer depends on the aliasing of instructions of smaller rank only. -/
theorem aliasOrdered_congr
    (hagree : ∀ a b, graph.rank a < graph.rank x → graph.rank b < graph.rank y →
      mustAlias a b = mustAlias' a b) : graph.aliasOrdered isAssignableFrom mustAlias x y =
      graph.aliasOrdered isAssignableFrom mustAlias' x y := by
  have hbase : 0 < (graph.kind x).arity → 0 < (graph.kind y).arity →
      graph.instanceBaseSame mustAlias (graph.inputAt x 0) (graph.inputAt y 0) =
          graph.instanceBaseSame mustAlias' (graph.inputAt x 0) (graph.inputAt y 0) ∧
        arrayBaseSame mustAlias (graph.inputAt x 0) (graph.inputAt y 0) =
          arrayBaseSame mustAlias' (graph.inputAt x 0) (graph.inputAt y 0) := by
    intro hx hy
    have hxBase := rank_inputAt_lt hx
    have hyBase := rank_inputAt_lt hy
    refine ⟨instanceBaseSame_congr hxBase hyBase hagree, ?_⟩
    rw [arrayBaseSame, arrayBaseSame, hagree _ _ hxBase hyBase]
  unfold aliasOrdered aliasInstanceField aliasStaticField aliasArray aliasLHSMemory
    instanceAlias arrayAlias lhsMemoryArrayAlias lhsMemoryFieldAlias
  cases hx : graph.kind x <;> cases hy : graph.kind y <;> first
    | rfl
    | (have hbase := hbase (by rw [hx]; exact zero_lt_succ _) (by rw [hy]; exact zero_lt_succ _)
       simp only [hbase.1, hbase.2])

end Congr

/-- A depth beyond the ranks of the operands does not change the answer. -/
theorem aliasAtDepth_eq_of_lt {depth depth' : ℕ}
    (hdepth : graph.rank x + graph.rank y < depth)
    (hdepth' : graph.rank x + graph.rank y < depth') :
    graph.aliasAtDepth isAssignableFrom depth x y =
      graph.aliasAtDepth isAssignableFrom depth' x y := by
  induction depth generalizing depth' x y with
  | zero => exact absurd hdepth (not_lt_zero _)
  | succ depth ih =>
    rcases depth' with _ | depth'
    · exact absurd hdepth' (not_lt_zero _)
    have hbases : ∀ a b, graph.rank a + graph.rank b < graph.rank x + graph.rank y →
        graph.aliasAtDepth isAssignableFrom depth a b =
          graph.aliasAtDepth isAssignableFrom depth' a b :=
      fun a b hlt => ih (by omega) (by omega)
    simp only [aliasAtDepth]
    split <;> exact aliasOrdered_congr fun a b ha hb => by rw [hbases a b (by omega)]

/-- `Alias` calls itself on the bases, with the lower id first. -/
theorem aliasCheck_eq (x y : Fin insns) : graph.aliasCheck isAssignableFrom x y =
      let mustAlias := fun a b =>
        decide (graph.aliasCheck isAssignableFrom a b = .mustAlias)
      if y < x then graph.aliasOrdered isAssignableFrom mustAlias y x
      else graph.aliasOrdered isAssignableFrom mustAlias x y := by
  have hbases : ∀ a b, graph.rank a + graph.rank b < graph.rank x + graph.rank y →
      graph.aliasAtDepth isAssignableFrom (graph.rank x + graph.rank y) a b =
        graph.aliasCheck isAssignableFrom a b :=
    fun a b hlt => aliasAtDepth_eq_of_lt hlt (lt_succ_self _)
  rw [aliasCheck, aliasAtDepth]
  split <;> exact aliasOrdered_congr fun a b ha hb => by rw [hbases a b (by omega)]

/-- The answer does not depend on the order of the two instructions. -/
theorem aliasCheck_comm (x y : Fin insns) :
    graph.aliasCheck isAssignableFrom x y = graph.aliasCheck isAssignableFrom y x := by
  rw [aliasCheck_eq, aliasCheck_eq]
  rcases lt_trichotomy x y with hlt | rfl | hlt
  · rw [if_neg (not_lt_of_gt hlt), if_pos hlt]
  · rfl
  · rw [if_pos hlt, if_neg (not_lt_of_gt hlt)]

theorem aliasCheck_of_le (hle : x ≤ y) : graph.aliasCheck isAssignableFrom x y =
      graph.aliasOrdered isAssignableFrom
        (fun a b => decide (graph.aliasCheck isAssignableFrom a b = .mustAlias)) x y := by
  rw [aliasCheck_eq]
  rw [if_neg (not_lt_of_ge hle)]

end HGraph

end NougatArt.Heap
