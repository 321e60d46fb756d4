import NougatArt.Heap.LoadHoist

/-!
# Executions of loops with a heap

Getters and setters access one location each. The other instructions are given by
their effects: each reads and writes its footprint only. At a suspend point the
thread may have been asked to suspend itself, which does not change the heap.
-/

namespace NougatArt.Heap

def Kind.fieldOffset : Kind → ℕ
  | .instanceFieldGet field | .instanceFieldSet field
  | .staticFieldGet field | .staticFieldSet field => field.fieldOffset
  | _ => 0

/-- The location of a getter or setter, from the values of its operands. -/
def Kind.accessLocation (kind : Kind) : List Value → Option Location
  | [] => none
  | base :: rest =>
    if kind.isArray then
      rest.head?.bind (elementLocation base)
    else
      fieldLocation base kind.fieldOffset

theorem isGet_eq_false_of_isSet : {kind : Kind} → kind.isSet = true → kind.isGet = false
  | .instanceFieldSet _, _ | .staticFieldSet _, _ | .arraySet _, _ => rfl

end NougatArt.Heap

namespace NougatArt.LoadHoist

open Heap

structure Store where
  heap : Location → Value
  suspended : Bool
  -- Whether the thread is asked to suspend itself at the following suspend points.
  requests : ℕ → Bool

def Store.poll (store : Store) : Store where
  heap := store.heap
  suspended := store.requests 0
  requests point := store.requests (point + 1)

def Store.write (store : Store) (location : Location) (value : Value) : Store :=
  { store with heap := Function.update store.heap location value }

@[simp]
theorem Store.write_heap (store : Store) (loc other : Location) (v : Value) :
    (store.write loc v).heap other = if other = loc then v else store.heap other :=
  Function.update_apply store.heap loc v other

structure Semantics where
  eval : HInstruction → List Value → (Location → Value) → Option Value × (Location → Value)
  footprint : HInstruction → List Value → (Location → Value) → Set Location
  branch : HInstruction → List Value → ℕ
  frame : ∀ insn args heap location, location ∉ footprint insn args heap →
    (eval insn args heap).2 location = heap location
  locality : ∀ insn args heap heap',
    (∀ location ∈ footprint insn args heap, heap location = heap' location) →
      (eval insn args heap).1 = (eval insn args heap').1 ∧ ∀ location ∈ footprint insn args heap,
          (eval insn args heap).2 location = (eval insn args heap').2 location
  locality_footprint : ∀ insn args heap heap',
    (∀ location ∈ footprint insn args heap, heap location = heap' location) →
      footprint insn args heap' = footprint insn args heap

namespace Semantics

variable (semantics : Semantics)

def execute (insn : HInstruction) (args : List Value) (store : Store) :
    Option (Option Value × Store) :=
  if insn.kind.isGet then
    (insn.kind.accessLocation args).map fun location => (some (store.heap location), store)
  else if insn.kind.isSet then
    (insn.kind.accessLocation args).bind fun location =>
      args[insn.kind.valueIndex]?.map fun value =>
        (none, store.write location (narrow insn.kind.accessType value))
  else if insn.isSuspendPoint then
    some (none, store.poll)
  else
    let result := semantics.eval insn args store.heap
    some (result.1, { store with heap := result.2 })

def machine : Machine HInstruction Value Store where
  execute := semantics.execute
  branch := semantics.branch

def targetMachine : Machine TargetOp Value Store where
  execute
    | .plain insn => semantics.execute insn
    | .inSuspendBlock insn => fun args store =>
      if store.suspended then semantics.execute insn args store else some (none, store)
  branch
    | .plain insn | .inSuspendBlock insn => semantics.branch insn

def touches (insn : HInstruction) (args : List Value) (heap : Location → Value) : Set Location :=
  if insn.kind.isGet || insn.kind.isSet then
    {location | insn.kind.accessLocation args = some location}
  else if insn.isSuspendPoint then
    ∅
  else
    semantics.footprint insn args heap

variable {semantics}

variable {insn : HInstruction}

theorem execute_of_isGet (hget : insn.kind.isGet) (args : List Value) (store : Store) :
    semantics.execute insn args store = (insn.kind.accessLocation args).map fun loc =>
        (some (store.heap loc), store) :=
  if_pos hget

theorem execute_of_isSet (hset : insn.kind.isSet) (args : List Value) (store : Store) :
    semantics.execute insn args store = (insn.kind.accessLocation args).bind fun loc =>
        args[insn.kind.valueIndex]?.map fun v =>
          (none, store.write loc (narrow insn.kind.accessType v)) := by
  have hget : ¬ insn.kind.isGet = true := by
    rw [isGet_eq_false_of_isSet hset]
    exact Bool.false_ne_true
  rw [execute, if_neg hget, if_pos hset]

theorem touches_of_isAccess (haccess : (insn.kind.isGet || insn.kind.isSet))
    (args : List Value) (heap : Location → Value) : semantics.touches insn args heap =
      {loc | insn.kind.accessLocation args = some loc} :=
  if_pos haccess

theorem touches_of_isSuspendPoint (haccess : ¬ (insn.kind.isGet || insn.kind.isSet))
    (hsuspend : ¬ insn.isSuspendPoint) (args : List Value) (heap : Location → Value) :
    semantics.touches insn args heap = semantics.footprint insn args heap := by
  rw [touches, if_neg haccess, if_neg hsuspend]

/-- The effect of an instruction on a store; `apart` is what it leaves alone. -/
structure SameEffect (apart : Set Location) (store after after' : Store) : Prop where
  heap : ∀ location, location ∉ apart → after'.heap location = after.heap location
  apart_heap : ∀ location, location ∈ apart → after.heap location = store.heap location
  suspended : after'.suspended = after.suspended
  requests : after'.requests = after.requests

section Congr

variable {args : List Value} {store store' after : Store}
  {result : Option Value} {apart : Set Location}
  (hdisj : ∀ loc ∈ semantics.touches insn args store.heap, loc ∉ apart)
  (hheap : ∀ loc, loc ∉ apart → store'.heap loc = store.heap loc)
  (hsusp : store'.suspended = store.suspended)
  (hrequests : store'.requests = store.requests)

include hdisj hheap hsusp hrequests

theorem execute_congr_get (hget : insn.kind.isGet)
    (hexec : semantics.execute insn args store = some (result, after)) :
    ∃ after', semantics.execute insn args store' = some (result, after') ∧
      SameEffect apart store after after' := by
  rw [touches_of_isAccess (by rw [hget, Bool.true_or])] at hdisj
  rw [execute_of_isGet hget, Option.map_eq_some_iff] at hexec
  obtain ⟨loc, hloc, hres⟩ := hexec
  cases hres
  refine ⟨store', ?_, hheap, fun _ _ => rfl, hsusp, hrequests⟩
  rw [execute_of_isGet hget, hloc, Option.map_some, hheap loc (hdisj loc hloc)]

theorem execute_congr_set (hset : insn.kind.isSet)
    (hexec : semantics.execute insn args store = some (result, after)) :
    ∃ after', semantics.execute insn args store' = some (result, after') ∧
      SameEffect apart store after after' := by
  rw [touches_of_isAccess (by rw [hset, Bool.or_true])] at hdisj
  rw [execute_of_isSet hset, Option.bind_eq_some_iff] at hexec
  obtain ⟨loc, hloc, hexec⟩ := hexec
  obtain ⟨v, hvalue, hres⟩ := Option.map_eq_some_iff.mp hexec
  cases hres
  have hapart : loc ∉ apart := hdisj loc hloc
  refine ⟨store'.write loc (narrow insn.kind.accessType v), ?_, ?_, ?_, hsusp, hrequests⟩
  · rw [execute_of_isSet hset, hloc, Option.bind_some, hvalue, Option.map_some]
  · intro other hother
    rw [Store.write_heap, Store.write_heap, hheap _ hother]
  · intro other hother
    have hne : other ≠ loc := fun heq => hapart (heq ▸ hother)
    rw [Store.write_heap, if_neg hne]

/-- An instruction does the same to two stores that agree on what it touches. -/
theorem execute_congr (hexec : semantics.execute insn args store = some (result, after)) :
    ∃ after', semantics.execute insn args store' = some (result, after') ∧
      SameEffect apart store after after' := by
  by_cases hget : insn.kind.isGet = true
  · exact execute_congr_get hdisj hheap hsusp hrequests hget hexec
  by_cases hset : insn.kind.isSet = true
  · exact execute_congr_set hdisj hheap hsusp hrequests hset hexec
  rw [execute, if_neg hget, if_neg hset] at hexec
  rw [execute, if_neg hget, if_neg hset]
  by_cases hsuspend : insn.isSuspendPoint = true
  · rw [if_pos hsuspend, Option.some.injEq, Prod.mk.injEq] at hexec
    obtain ⟨rfl, rfl⟩ := hexec
    refine ⟨store'.poll, if_pos hsuspend, hheap, fun _ _ => rfl, ?_, ?_⟩
    · exact congrFun hrequests 0
    · funext point
      exact congrFun hrequests (point + 1)
  · rw [if_neg hsuspend, Option.some.injEq, Prod.mk.injEq] at hexec
    obtain ⟨rfl, rfl⟩ := hexec
    have haccess : ¬ (insn.kind.isGet || insn.kind.isSet) = true := by
      simp [hget, hset]
    rw [touches_of_isSuspendPoint haccess hsuspend] at hdisj
    have hagree : ∀ loc ∈ semantics.footprint insn args store.heap,
        store.heap loc = store'.heap loc :=
      fun loc hmem => (hheap loc (hdisj loc hmem)).symm
    obtain ⟨hres, hwritten⟩ := semantics.locality insn args store.heap store'.heap hagree
    have hfootprint := semantics.locality_footprint insn args store.heap store'.heap hagree
    refine ⟨{ store' with heap := (semantics.eval insn args store'.heap).2 },
      by rw [if_neg hsuspend, hres], ?_, ?_, hsusp, hrequests⟩
    · intro loc hloc
      by_cases hmem : loc ∈ semantics.footprint insn args store.heap
      · exact (hwritten loc hmem).symm
      · change (semantics.eval insn args store'.heap).2 loc =
          (semantics.eval insn args store.heap).2 loc
        rw [semantics.frame _ _ _ _ hmem, semantics.frame _ _ _ _ (hfootprint ▸ hmem),
          hheap loc hloc]
    · intro loc hloc
      exact semantics.frame _ _ _ _ fun hmem => hdisj loc hmem hloc

end Congr

end Semantics

end NougatArt.LoadHoist
