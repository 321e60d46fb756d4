import NougatArt.Heap.Alias

/-!
# Executions with a heap

Instructions are executed one after the other along the flow graph. A state
remembers, for every instruction, its latest value, the heap its latest
execution has seen and all locations its executions have touched. Instructions
that alias analysis does not look into have arbitrary results and effects, as
far as their side effects permit. The accesses of a verified method are typed:
the field at an offset of an object is of one type, an array has one component
type, and values are of their recorded reference type.
-/

namespace NougatArt.Heap

open Function Bool

inductive Value
  | null
  | object (id : ℕ)
  | klass (id : ℕ)
  | integral (value : ℤ)
  deriving DecidableEq

inductive Location
  | field (holder : Value) (offset : ℕ)
  | element (array : Value) (index : ℤ)
  deriving DecidableEq

structure FieldLayout where
  type : PrimitiveType
  isStatic : Bool
  deriving DecidableEq

/-- What does not change in an execution: the class of an object, the fields of
an object or class, the component type of an array, and the class an
`HLoadClass` resolves to. -/
structure World (Class : Type) where
  isAssignableFrom : Class → Class → Bool
  classOf : Value → Class
  layout : Value → ℕ → Option FieldLayout
  componentType : Value → PrimitiveType
  loadedClass : ℕ → ℕ

def Value.isReference : Value → Bool
  | .object _ | .klass _ => true
  | .null | .integral _ => false

/-- A non-null value is an instance of the recorded type, and of exactly this
type if the record is exact. -/
def World.HasType {Class : Type} (world : World Class) (value : Value)
    (rti : ReferenceTypeInfo Class) : Prop :=
  value.isReference = true → world.isAssignableFrom rti.typeHandle (world.classOf value) = true ∧
      (rti.isExact = true → world.classOf value = rti.typeHandle)

instance {Class : Type} [DecidableEq Class] (world : World Class) (value : Value)
    (rti : ReferenceTypeInfo Class) : Decidable (world.HasType value rti) :=
  inferInstanceAs (Decidable (_ → _))

def fieldLocation (base : Value) (offset : ℕ) : Option Location :=
  if base.isReference then some (.field base offset) else none

def elementLocation (base index : Value) : Option Location :=
  match index with
  | .integral position => if base.isReference then some (.element base position) else none
  | _ => none

/-- A narrow field or element keeps the low bits of an integral value. -/
def narrow (type : PrimitiveType) : Value → Value
  | .integral value => .integral (type.convert value)
  | other => other

/-- The seven kinds access one location; without it the instruction throws. -/
def Kind.isAccess : Kind → Bool
  | .instanceFieldGet _ | .instanceFieldSet _ | .staticFieldGet _ | .staticFieldSet _
  | .arrayGet _ | .arraySet _ | .addLHSMemory _ _ => true
  | _ => false

/-- Checks, constants, class loads and phis touch no field and no array element. -/
def Kind.touchesHeap : Kind → Bool
  | .nullCheck | .boundsCheck | .loadClass _ | .intConstant _ | .phi => false
  | _ => true

/-- Outside of the seven kinds, an instruction without write side effects may still
read the heap, as some intrinsics do. -/
def Kind.hidesAccess : Kind → Bool
  | .other false false _ => true
  | _ => false

theorem Kind.isAccess_eq_false_of_touchesHeap :
    {kind : Kind} → kind.touchesHeap = false → kind.isAccess = false
  | .nullCheck, _ | .boundsCheck, _ | .loadClass _, _ | .intConstant _, _ | .phi, _ => rfl

namespace HGraph

variable {Class : Type} {insns : ℕ} (graph : HGraph Class insns) (world : World Class)

/-- The location an access goes to, given the values of its operands. -/
def location (env : Fin insns → Value) (insn : Fin insns) : Option Location :=
  match graph.kind insn with
  | .instanceFieldGet field | .instanceFieldSet field
  | .staticFieldGet field | .staticFieldSet field =>
    fieldLocation (env (graph.inputAt insn 0)) field.fieldOffset
  | .arrayGet _ | .arraySet _ =>
    elementLocation (env (graph.inputAt insn 0)) (env (graph.inputAt insn 1))
  | .addLHSMemory offset _ =>
    match graph.getIndex insn with
    | none => fieldLocation (env (graph.inputAt insn 0)) offset
    | some index => elementLocation (env (graph.inputAt insn 0)) (env index)
  | _ => none

/-- The result of an instruction that is determined by its operands and the heap. -/
def result (env : Fin insns → Value) (heap : Location → Value) (insn : Fin insns) : Option Value :=
  match graph.kind insn with
  | .instanceFieldGet _ | .staticFieldGet _ | .arrayGet _ => (graph.location env insn).map heap
  | .nullCheck | .clinitCheck | .boundsCheck => some (env (graph.inputAt insn 0))
  | .loadClass data => some (.klass (world.loadedClass data))
  | .intConstant value => some (.integral value.toInt)
  | _ => none

/-- The value a store leaves in its location. Narrow fields keep the low bits of
an integral value; an addition in memory may leave any value. -/
def storedValue (env : Fin insns → Value) (insn : Fin insns) : Option Value :=
  match graph.kind insn with
  | .instanceFieldSet field | .staticFieldSet field =>
    some (narrow field.fieldType (env (graph.inputAt insn 1)))
  | .arraySet componentType => some (narrow componentType (env (graph.inputAt insn 2)))
  | _ => none

/-- The types of verified accesses are those of the accessed location. -/
def AccessTyped (insn : Fin insns) : Location → Prop
  | .field holder offset =>
    match graph.kind insn with
    | .instanceFieldGet field | .instanceFieldSet field =>
      world.layout holder offset = some ⟨field.fieldType, false⟩
    | .staticFieldGet field | .staticFieldSet field =>
      world.layout holder offset = some ⟨field.fieldType, true⟩
    | _ => True
  | .element array _ =>
    match graph.kind insn with
    | .arrayGet type | .arraySet type | .addLHSMemory _ type => world.componentType array = type
    | _ => True

instance (insn : Fin insns) (location : Location) :
    Decidable (graph.AccessTyped world insn location) := by
  cases location <;> dsimp only [AccessTyped] <;> split <;> infer_instance

end HGraph

structure State (insns : ℕ) where
  trace : List (Fin insns)
  env : Fin insns → Value
  heap : Location → Value
  seen : Fin insns → Location → Value
  touched : Fin insns → Set Location

section Execution

variable {Class : Type} {insns : ℕ} (graph : HGraph Class insns) (world : World Class)

structure Step (before : State insns) (insn : Fin insns) (after : State insns) : Prop where
  flows : before.trace = [] ∧ insn = graph.flow.entry ∨
    ∃ previous past, before.trace = previous :: past ∧ insn ∈ graph.flow.succs previous
  trace_eq : after.trace = insn :: before.trace
  env_result : ∀ value, graph.result world before.env before.heap insn = some value →
    after.env insn = value
  env_other : ∀ other, other ≠ insn → after.env other = before.env other
  has_type : ∀ rti, graph.referenceTypeInfo insn = some rti → world.HasType (after.env insn) rti
  seen_insn : after.seen insn = before.heap
  seen_other : ∀ other, other ≠ insn → after.seen other = before.seen other
  touched_other : ∀ other, other ≠ insn → after.touched other = before.touched other
  -- An access touches its location, which is of the right type.
  access : (graph.kind insn).isAccess = true → ∃ location,
    graph.location before.env insn = some location ∧ graph.AccessTyped world insn location ∧
      after.touched insn = insert location (before.touched insn) ∧
      (∀ elsewhere, elsewhere ≠ location → after.heap elsewhere = before.heap elsewhere) ∧
      ((graph.kind insn).producesValue = true → after.heap location = before.heap location) ∧
      ∀ value, graph.storedValue before.env insn = some value → after.heap location = value
  frame : ∀ location, location ∉ after.touched insn → after.heap location = before.heap location
  -- An instruction without write side effects leaves the heap as it is.
  no_write : (graph.kind insn).isAccess = false →
    (graph.kind insn).hasWriteSideEffects = false → after.heap = before.heap
  no_touch : (graph.kind insn).touchesHeap = false → after.touched insn = before.touched insn

inductive Reachable : State insns → Prop
  | start {state : State insns} (htrace : state.trace = [])
      (htouched : ∀ insn, state.touched insn = ∅) : Reachable state
  | step {before after : State insns} {insn : Fin insns} (hbefore : Reachable before)
      (hstep : Step graph world before insn after) : Reachable after

/-! ## Running an execution -/

/-- Runs one instruction; `choice` is the result if it is not determined. -/
def execute (before : State insns) (insn : Fin insns) (choice : Value) : State insns where
  trace := insn :: before.trace
  env := update before.env insn ((graph.result world before.env before.heap insn).getD choice)
  heap :=
    match graph.location before.env insn, graph.storedValue before.env insn with
    | some location, some value => update before.heap location value
    | _, _ => before.heap
  seen := update before.seen insn before.heap
  touched := update before.touched insn ((graph.location before.env insn).elim (before.touched insn)
      fun location => insert location (before.touched insn))

/-- Control can go to the instruction, its access is typed and its result is of the
recorded type. -/
def canExecute [DecidableEq Class] (before : State insns) (insn : Fin insns) (choice : Value) :
    Bool :=
  (match before.trace with
    | [] => insn = graph.flow.entry
    | previous :: _ => insn ∈ graph.flow.succs previous) &&
  (match graph.location before.env insn with
    | some location => (graph.kind insn).isAccess && decide (graph.AccessTyped world insn location)
    | none => !(graph.kind insn).isAccess) &&
  (match graph.referenceTypeInfo insn with
    | some rti => decide (world.HasType ((execute graph world before insn choice).env insn) rti)
    | none => true)

def run : State insns → List (Fin insns × Value) → State insns
  | state, [] => state
  | state, (insn, choice) :: rest => run (execute graph world state insn choice) rest

def canRun [DecidableEq Class] : State insns → List (Fin insns × Value) → Bool
  | _, [] => true
  | state, (insn, choice) :: rest =>
    canExecute graph world state insn choice && canRun (execute graph world state insn choice) rest

variable {graph world} {insn : Fin insns}

theorem location_eq_none {env : Fin insns → Value} (hkind : (graph.kind insn).isAccess = false) :
    graph.location env insn = none := by
  unfold HGraph.location
  cases hinsn : graph.kind insn <;> simp [hinsn, Kind.isAccess] at hkind ⊢

theorem storedValue_eq_none {env : Fin insns → Value}
    (hstore : (graph.kind insn).isAccess = false ∨ (graph.kind insn).producesValue) :
    graph.storedValue env insn = none := by
  unfold HGraph.storedValue
  cases hkind : graph.kind insn <;>
    simp [hkind, Kind.isAccess, Kind.producesValue] at hstore ⊢

theorem execute_heap {before : State insns} {choice : Value}
    {loc : Location} (hne : graph.location before.env insn ≠ some loc) :
    (execute graph world before insn choice).heap loc = before.heap loc := by
  cases hloc : graph.location before.env insn with
  | none => simp [execute, hloc]
  | some accessed =>
    have hne : loc ≠ accessed := fun heq => hne (heq ▸ hloc)
    cases hstored : graph.storedValue before.env insn with
    | none => simp [execute, hstored]
    | some v => simp [execute, hloc, hstored, hne]

section Decidable

variable [DecidableEq Class] {before : State insns} {choice : Value}

section

variable (hcan : canExecute graph world before insn choice = true)

include hcan

theorem flows_of_canExecute :
    before.trace = [] ∧ insn = graph.flow.entry ∨ ∃ previous past, before.trace = previous :: past ∧
        insn ∈ graph.flow.succs previous := by
  have hflows := (and_eq_true_iff.mp (and_eq_true_iff.mp hcan).1).1
  cases htrace : before.trace with
  | nil =>
    rw [htrace] at hflows
    exact .inl ⟨rfl, of_decide_eq_true hflows⟩
  | cons previous past =>
    rw [htrace] at hflows
    exact .inr ⟨previous, past, rfl, of_decide_eq_true hflows⟩

theorem location_of_canExecute (hkind : (graph.kind insn).isAccess) :
    ∃ loc, graph.location before.env insn = some loc ∧ graph.AccessTyped world insn loc := by
  have haccess := (and_eq_true_iff.mp (and_eq_true_iff.mp hcan).1).2
  cases hloc : graph.location before.env insn with
  | none => simp [hloc, hkind] at haccess
  | some loc =>
    rw [hloc] at haccess
    exact ⟨loc, rfl, of_decide_eq_true (and_eq_true_iff.mp haccess).2⟩

theorem step_execute : Step graph world before insn (execute graph world before insn choice) where
  flows := flows_of_canExecute hcan
  trace_eq := rfl
  env_result v hvalue := by simp [execute, hvalue]
  env_other _ hne := by simp [execute, hne]
  has_type rti hrti := by
    have htype := (and_eq_true_iff.mp hcan).2
    rw [hrti] at htype
    exact of_decide_eq_true htype
  seen_insn := by simp [execute]
  seen_other _ hne := by simp [execute, hne]
  touched_other _ hne := by simp [execute, hne]
  access hkind := by
    obtain ⟨loc, hloc, htyped⟩ := location_of_canExecute hcan hkind
    refine ⟨loc, hloc, htyped, by simp [execute, hloc], ?_, ?_, ?_⟩
    · intro elsewhere hne
      exact execute_heap (by simpa [hloc] using hne.symm)
    · intro hproduces
      simp [execute, storedValue_eq_none (.inr hproduces)]
    · intro v hvalue
      simp [execute, hloc, hvalue]
  frame loc hnot := execute_heap fun hloc => hnot (by simp [execute, hloc])
  no_write hkind _ := by simp [execute, location_eq_none hkind]
  no_touch htouches := by
    have hkind := Kind.isAccess_eq_false_of_touchesHeap htouches
    simp [execute, location_eq_none hkind]

end

theorem Reachable.run {s : State insns} (hstate : Reachable graph world s)
    {schedule : List (Fin insns × Value)} (hcan : canRun graph world s schedule) :
    Reachable graph world (run graph world s schedule) := by
  induction schedule generalizing s with
  | nil => exact hstate
  | cons first rest ih =>
    obtain ⟨hfirst, hrest⟩ := and_eq_true_iff.mp hcan
    exact ih (hstate.step (step_execute hfirst)) hrest

end Decidable

end Execution

end NougatArt.Heap
