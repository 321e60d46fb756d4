import NougatArt.CodeMotion.Licm
import NougatArt.Core.Behaviour

/-!
# Executions of graphs with exceptions

The memory has one component for each kind of field and array element. What an
instruction does is left to a machine that respects its side effects. The
writes and calls of a run are events; an exception is observed with the
instruction that raises it and the registers of its environment, and control
goes to the catch block of the try or leaves the method.
-/

namespace NougatArt.CodeMotion

open List Function

abbrev MemoryBit := { bit : EffectBit // bit ∈ SideEffects.kAllWrites }

@[ext]
structure Executed (Value Component Event Exception : Type) where
  events : List Event
  heap : MemoryBit → Component
  outcome : Except Exception Value

/-- What instructions do. Those that write nothing are silent, and what they yield
depends only on their operands and on the memory that they may depend on. -/
structure Machine (Value Component Event Exception : Type) where
  execute : HInstruction → List Value → (MemoryBit → Component) →
    Executed Value Component Event Exception
  branch : HInstruction → List Value → ℕ
  frame : ∀ insn args heap (bit : MemoryBit), bit.1 ∉ insn.sideEffects.changes →
    (execute insn args heap).heap bit = heap bit
  silent : ∀ insn args heap, insn.sideEffects.doesAnyWrite = false →
    (execute insn args heap).events = []
  reads : ∀ insn args heap heap', insn.sideEffects.doesAnyWrite = false →
    (∀ bit : MemoryBit, bit.1 ∈ insn.sideEffects.dependsOn → heap bit = heap' bit) →
    (execute insn args heap).outcome = (execute insn args heap').outcome
  throws : ∀ insn args heap exception, (execute insn args heap).outcome = .error exception →
    insn.canThrow = true

inductive Observation (insns : ℕ) (Value Event Exception : Type)
  | event (event : Event)
  | thrown (insn : Fin insns) (exception : Exception) (registers : List (Option Value))
  deriving DecidableEq

structure State (insns : ℕ) (Value Component : Type) where
  env : Fin insns → Value
  heap : MemoryBit → Component

structure Thrown (insns : ℕ) (Value Component Exception : Type) where
  exception : Exception
  registers : List (Option Value)
  state : State insns Value Component

inductive Finished (Value Component Exception : Type)
  | returned (values : List Value) (heap : MemoryBit → Component)
  | uncaught (exception : Exception) (heap : MemoryBit → Component)

inductive Config (blocks insns : ℕ) (Value Component Exception : Type)
  -- Control is at the beginning of a block whose phis are assigned.
  | running (block : Fin blocks) (state : State insns Value Component)
  | finished (value : Finished Value Component Exception)

variable {blocks insns : ℕ} {Value Component Event Exception : Type}

/-- An instruction that writes nothing leaves the memory as it is. -/
theorem Machine.heap_of_doesAnyWrite (machine : Machine Value Component Event Exception)
    {insn : HInstruction} (hwrite : insn.sideEffects.doesAnyWrite = false) (args : List Value)
    (heap : MemoryBit → Component) : (machine.execute insn args heap).heap = heap :=
  funext fun bit => machine.frame insn args heap bit
    (SideEffects.notMem_changes_of_doesAnyWrite hwrite bit.2)

def Placement.registers (placement : Placement blocks insns) (env : Fin insns → Value)
    (insn : Fin insns) : List (Option Value) :=
  (placement.environment insn).map fun register => register.map env

namespace Frame

variable (frame : Frame blocks insns Exception)
  (machine : Machine Value Component Event Exception) (placement : Placement blocks insns)

def operands (env : Fin insns → Value) (insn : Fin insns) : List Value :=
  (frame.inputs insn).map env

def exec (state : State insns Value Component) (insn : Fin insns) :
    List (Observation insns Value Event Exception) ×
      Except (Thrown insns Value Component Exception) (State insns Value Component) :=
  let executed := machine.execute (frame.op insn) (frame.operands state.env insn) state.heap
  match executed.outcome with
  | .ok value => (executed.events.map .event, .ok ⟨update state.env insn value, executed.heap⟩)
  | .error exception =>
    let registers := placement.registers state.env insn
    (executed.events.map .event ++ [.thrown insn exception registers],
      .error ⟨exception, registers, ⟨state.env, executed.heap⟩⟩)

def execAll : State insns Value Component → List (Fin insns) →
    List (Observation insns Value Event Exception) ×
      Except (Thrown insns Value Component Exception) (State insns Value Component)
  | state, [] => ([], .ok state)
  | state, insn :: rest =>
    match frame.exec machine placement state insn with
    | (observed, .ok after) => (observed ++ (execAll after rest).1, (execAll after rest).2)
    | (observed, .error thrown) => (observed, .error thrown)

def enter (source target : Fin blocks) (state : State insns Value Component) :
    State insns Value Component where
  env insn :=
    if insn ∈ frame.phis target then state.env (frame.phiInput insn source) else state.env insn
  heap := state.heap

/-- The phis of a catch block take over the registers. -/
def enterCatch [Inhabited Value] (target : Fin blocks)
    (thrown : Thrown insns Value Component Exception) :
    State insns Value Component where
  env insn :=
    if insn ∈ frame.phis target then
      (thrown.registers[frame.catchRegister insn]?.join).getD default
    else thrown.state.env insn
  heap := thrown.state.heap

/-- The next block; none after an instruction that leaves the method. -/
def next (block : Fin blocks) (env : Fin insns → Value) : Option (Fin blocks) :=
  match frame.normalSuccs block with
  | [target] => some target
  | targets => targets[machine.branch (frame.op (frame.lastInstruction block))
      (frame.operands env (frame.lastInstruction block))]?

def code (block : Fin blocks) : List (Fin insns) :=
  placement.instructions block ++ [frame.lastInstruction block]

/-- Where control goes after a block. -/
def leave [Inhabited Value] (block : Fin blocks) :
    Except (Thrown insns Value Component Exception) (State insns Value Component) →
      Config blocks insns Value Component Exception
  | .ok after =>
    match frame.next machine block after.env with
    | some target => .running target (frame.enter block target after)
    | none => .finished (.returned (frame.operands after.env (frame.lastInstruction block))
        after.heap)
  | .error thrown =>
    match frame.handler block thrown.exception with
    | some target => .running target (frame.enterCatch target thrown)
    | none => .finished (.uncaught thrown.exception thrown.state.heap)

def system [Inhabited Value] : OutputSystem (Config blocks insns Value Component Exception)
    (Observation insns Value Event Exception) (Finished Value Component Exception) where
  step
    | .running block state =>
      let executed := frame.execAll machine placement state (frame.code placement block)
      (executed.1, frame.leave machine block executed.2)
    | .finished value => ([], .finished value)
  result
    | .running _ _ => none
    | .finished value => some value
  halted
    | .finished _, _, _ => rfl

variable {frame machine placement}

section Exec

variable {s : State insns Value Component} {insn : Fin insns}
  {executed : Executed Value Component Event Exception}
  (hexecuted : machine.execute (frame.op insn) (frame.operands s.env insn) s.heap =
    executed)

include hexecuted

theorem exec_of_ok {v : Value} (hout : executed.outcome = .ok v) :
    frame.exec machine placement s insn = (executed.events.map .event,
        .ok ⟨update s.env insn v, executed.heap⟩) := by
  simp only [exec, hexecuted, hout]

theorem exec_of_error {exception : Exception} (hout : executed.outcome = .error exception) :
    frame.exec machine placement s insn = (executed.events.map .event ++
          [.thrown insn exception (placement.registers s.env insn)],
        .error ⟨exception, placement.registers s.env insn, ⟨s.env, executed.heap⟩⟩) := by
  simp only [exec, hexecuted, hout]

end Exec

variable {s after : State insns Value Component} {insn : Fin insns}
  {observed : List (Observation insns Value Event Exception)}
  {thrown : Thrown insns Value Component Exception} {first : List (Fin insns)}

theorem execAll_cons_of_ok
    (h : frame.exec machine placement s insn = (observed, .ok after)) (rest : List (Fin insns)) :
    frame.execAll machine placement s (insn :: rest) =
      (observed ++ (frame.execAll machine placement after rest).1,
        (frame.execAll machine placement after rest).2) := by
  rw [execAll, h]

theorem execAll_cons_of_error (h : frame.exec machine placement s insn = (observed, .error thrown))
    (rest : List (Fin insns)) :
    frame.execAll machine placement s (insn :: rest) = (observed, .error thrown) := by
  rw [execAll, h]

theorem execAll_append_of_ok (h : frame.execAll machine placement s first = (observed, .ok after))
    (rest : List (Fin insns)) : frame.execAll machine placement s (first ++ rest) =
      (observed ++ (frame.execAll machine placement after rest).1,
        (frame.execAll machine placement after rest).2) := by
  induction first generalizing s observed with
  | nil =>
    obtain ⟨rfl, hstate⟩ := Prod.mk.inj h
    cases hstate
    rfl
  | cons insn first ih =>
    rcases hexec : frame.exec machine placement s insn with ⟨seen, thrown | next⟩
    · rw [execAll_cons_of_error hexec] at h
      cases h
    · rw [execAll_cons_of_ok hexec] at h
      obtain ⟨rfl, hstate⟩ := Prod.mk.inj h
      rw [cons_append, execAll_cons_of_ok hexec, ih (Prod.ext rfl hstate), append_assoc]

theorem execAll_append_of_error
    (h : frame.execAll machine placement s first = (observed, .error thrown))
    (rest : List (Fin insns)) :
    frame.execAll machine placement s (first ++ rest) = (observed, .error thrown) := by
  induction first generalizing s observed with
  | nil => cases h
  | cons insn first ih =>
    rcases hexec : frame.exec machine placement s insn with ⟨seen, stop | next⟩
    · rw [execAll_cons_of_error hexec] at h
      rw [cons_append, execAll_cons_of_error hexec, h]
    · rw [execAll_cons_of_ok hexec] at h
      obtain ⟨rfl, hstate⟩ := Prod.mk.inj h
      rw [cons_append, execAll_cons_of_ok hexec, ih (Prod.ext rfl hstate)]

/-- An instruction that neither writes nor throws only assigns its result. -/
theorem exec_of_invisible (hthrow : (frame.op insn).canThrow = false)
    (hwrite : (frame.op insn).sideEffects.doesAnyWrite = false) :
    ∃ v, frame.exec machine placement s insn = ([], .ok ⟨update s.env insn v, s.heap⟩) := by
  cases hout : (machine.execute (frame.op insn) (frame.operands s.env insn) s.heap).outcome with
  | error exception =>
    rw [machine.throws _ _ _ _ hout] at hthrow
    cases hthrow
  | ok v =>
    refine ⟨v, ?_⟩
    rw [exec_of_ok rfl hout, machine.silent _ _ _ hwrite, machine.heap_of_doesAnyWrite hwrite]
    rfl

theorem execAll_of_invisible {insnList : List (Fin insns)}
    (hthrow : ∀ insn ∈ insnList, (frame.op insn).canThrow = false)
    (hwrite : ∀ insn ∈ insnList, (frame.op insn).sideEffects.doesAnyWrite = false)
    (s : State insns Value Component) :
    ∃ env, frame.execAll machine placement s insnList = ([], .ok ⟨env, s.heap⟩) ∧
      ∀ other, other ∉ insnList → env other = s.env other := by
  induction insnList generalizing s with
  | nil => exact ⟨s.env, rfl, fun _ _ => rfl⟩
  | cons insn rest ih =>
    rw [forall_mem_cons] at hthrow hwrite
    obtain ⟨v, hexec⟩ := exec_of_invisible hthrow.1 hwrite.1
    obtain ⟨env, hrest, hother⟩ := ih hthrow.2 hwrite.2 ⟨update s.env insn v, s.heap⟩
    refine ⟨env, ?_, fun other hnot => ?_⟩
    · rw [execAll_cons_of_ok hexec, hrest]
      rfl
    · rw [mem_cons, not_or] at hnot
      rw [hother _ hnot.2]
      exact update_of_ne hnot.1 _ _

end Frame

end NougatArt.CodeMotion
