import Mathlib

/-!
# Mark stacks of the semi-space collector

While the roots of the threads are marked, every newly marked object goes to a
stack of its own thread. Such a stack is created with room for `kMaxSize`
objects and is meant to grow by as much; whether it has to grow is decided by
comparing its size with the capacity of the mark stack of the heap, and the new
storage is made by a function that checks that there is none. `ProcessMarkStack` later
empties the stacks of the threads and the mark stack and scans each object, in
one loop or by the tasks of a thread pool.

Writing outside the storage of a stack and a failed `CHECK` are faults.
-/

namespace NougatArt.Gc

open List Nat Multiset

inductive Fault
  | outOfBounds
  | checkFailed
  deriving DecidableEq, Repr

def kMaxSize : ℕ := 4 * 1024

def kFifoSize : ℕ := 4

def kSSMinimumParallelMarkStackSize : ℕ := 32

universe u

variable {Obj : Type u}

section ThreadStacks

variable [Inhabited Obj]

/-- The objects marked from the roots of one thread. The storage may be missing; elements of it
that were never assigned hold the null reference `default`. -/
structure ThreadRootMarkStack (Obj : Type u) where
  capacity : ℕ
  incremental : ℕ
  size : ℕ
  markStack : Option (List Obj)
  deriving DecidableEq, Repr

namespace ThreadRootMarkStack

def objects (stack : ThreadRootMarkStack Obj) : List Obj :=
  (stack.markStack.getD []).take stack.size

def createMarkStack (stack : ThreadRootMarkStack Obj) (capacity : ℕ) :
    Except Fault (ThreadRootMarkStack Obj) :=
  match stack.markStack with
  | none => .ok { stack with markStack := some (replicate capacity default) }
  | some _ => .error .checkFailed

/-- The constructor. -/
def create (capacity : ℕ) : Except Fault (ThreadRootMarkStack Obj) :=
  createMarkStack { capacity, incremental := capacity, size := 0, markStack := none } capacity

variable (stack : ThreadRootMarkStack Obj)

/-- The old elements are to be copied to new storage of the present capacity, while `mark_stack_`
still points to the old one. -/
def regenerateMarkStack : Except Fault (ThreadRootMarkStack Obj) := do
  let original := stack.objects
  let created ← stack.createMarkStack stack.capacity
  return { created with
    markStack := created.markStack.map fun storage => original ++ storage.drop stack.size }

def resize : Except Fault (ThreadRootMarkStack Obj) :=
  if stack.size = stack.capacity then
    regenerateMarkStack { stack with capacity := stack.capacity + stack.incremental }
  else .error .checkFailed

def pushBack (obj : Obj) : Except Fault (ThreadRootMarkStack Obj) :=
  match stack.markStack with
  | none => .error .outOfBounds
  | some storage =>
    if stack.size < storage.length then
      .ok { stack with markStack := some (storage.set stack.size obj)
                       size := stack.size + 1 }
    else .error .outOfBounds

end ThreadRootMarkStack

/-- `MarkStackPush` while `marking_roots_` is set; the growth test reads the
capacity of the mark stack of the heap. -/
def markStackPush (markStackCapacity : ℕ) (stack : ThreadRootMarkStack Obj) (obj : Obj) :
    Except Fault (ThreadRootMarkStack Obj) := do
  let grown ← if markStackCapacity ≤ stack.size then stack.resize else .ok stack
  grown.pushBack obj

/-- `Thread::VisitRoots`, reduced to the objects that it finds unmarked. -/
def visitRoots (markStackCapacity : ℕ) :
    ThreadRootMarkStack Obj → List Obj → Except Fault (ThreadRootMarkStack Obj)
  | stack, [] => .ok stack
  | stack, obj :: rest => do
    let stack' ← markStackPush markStackCapacity stack obj
    visitRoots markStackCapacity stack' rest

variable {Thread : Type u} [LinearOrder Thread]

/-- `thread_roots_stacks_`, in the order of its keys. -/
abbrev RootStacks (Thread Obj : Type u) := List (Thread × ThreadRootMarkStack Obj)

def markRootsOf (markStackCapacity : ℕ) (roots : Thread → List Obj)
    (rootStacks : RootStacks Thread Obj) (thread : Thread) :
    Except Fault (RootStacks Thread Obj) :=
  match rootStacks.lookup thread with
  | none => do
    let created ← ThreadRootMarkStack.create kMaxSize
    let stack ← visitRoots markStackCapacity created (roots thread)
    -- A stack without objects is deleted again.
    return if 0 < stack.size then
      rootStacks.orderedInsert (fun left right => left.1 ≤ right.1) (thread, stack)
    else rootStacks
  | some found => do
    let stack ← visitRoots markStackCapacity found (roots thread)
    return rootStacks.map fun entry => if entry.1 = thread then (thread, stack) else entry

/-- `MarkThreadRoots`; `thread_roots_stacks_` is empty when a collection starts. -/
def markThreadRoots (markStackCapacity : ℕ) (roots : Thread → List Obj)
    (threads : List Thread) : Except Fault (RootStacks Thread Obj) :=
  threads.foldlM (markRootsOf markStackCapacity roots) []

end ThreadStacks

/-- The mark stack of the heap, the last pushed object first. -/
structure MarkStack (Obj : Type*) where
  capacity : ℕ
  objects : List Obj
  capacity_pos : 0 < capacity
  size_le : objects.length ≤ capacity

/-- An empty mark stack with room for 8192 objects. -/
def MarkStack.empty : MarkStack Obj := ⟨8192, [], by decide, zero_le _⟩

/-- `MarkStackPush` otherwise: the mark stack is doubled when it is full. -/
def MarkStack.push (stack : MarkStack Obj) (obj : Obj) : MarkStack Obj :=
  if hfull : stack.capacity ≤ stack.objects.length then
    { capacity := stack.capacity * 2
      objects := obj :: stack.objects
      capacity_pos := mul_pos stack.capacity_pos two_pos
      size_le := by
        have := stack.size_le
        have := stack.capacity_pos
        rw [length_cons]
        omega }
  else
    { stack with
      objects := obj :: stack.objects
      size_le := Nat.lt_of_not_le hfull }

/-- `ScanObject`: marks what the object refers to and yields the objects that
have to be pushed. `unmarked` bounds the number of objects still to be pushed. -/
structure Scanner (Obj State : Type*) where
  scan : Obj → State → List Obj × State
  unmarked : State → ℕ
  scan_le : ∀ obj state, (scan obj state).1.length + unmarked (scan obj state).2 ≤ unmarked state

variable {State : Type*} {stack fifo : List Obj}

/-- Moves objects from a stack to the prefetch queue while there is room. -/
def refill : ℕ → List Obj → List Obj → List Obj × List Obj
  | 0, stack, fifo => (stack, fifo)
  | _ + 1, [], fifo => ([], fifo)
  | room + 1, obj :: stack, fifo => refill room stack (fifo ++ [obj])

theorem refill_perm (room : ℕ) (stack fifo : List Obj) :
    ((refill room stack fifo).1 ++ (refill room stack fifo).2).Perm (stack ++ fifo) := by
  induction room generalizing stack fifo with
  | zero => exact List.Perm.refl _
  | succ room ih =>
    cases stack with
    | nil => exact List.Perm.refl _
    | cons obj stack =>
      refine (ih stack (fifo ++ [obj])).trans ?_
      rw [← append_assoc]
      exact perm_append_singleton obj (stack ++ fifo)

/-- The front of the queue, and what is left after it. -/
theorem refill_cons {room : ℕ} {rest : List Obj} {obj : Obj}
    (hfifo : (refill room stack fifo).2 = obj :: rest) :
    (stack + fifo : Multiset Obj) = obj ::ₘ ((refill room stack fifo).1 + rest) := by
  have hperm := refill_perm room stack fifo
  rw [hfifo] at hperm
  rw [coe_add, ← coe_eq_coe.mpr hperm, ← coe_add, ← cons_coe, add_cons]

theorem refill_length_le (room : ℕ) (stack fifo : List Obj) :
    (refill room stack fifo).1.length ≤ stack.length := by
  induction room generalizing stack fifo with
  | zero => exact le_rfl
  | succ room ih =>
    cases stack with
    | nil => exact le_rfl
    | cons obj stack => exact (ih stack (fifo ++ [obj])).trans (le_succ _)

/-- A queue with room takes an object of a stack that has one. -/
theorem refill_eq_nil
    (hempty : (refill (kFifoSize - fifo.length) stack fifo).2 = []) : stack = [] ∧ fifo = [] := by
  have hgrows : ∀ (room : ℕ) (stack fifo : List Obj), fifo ≠ [] →
      (refill room stack fifo).2 ≠ [] := by
    intro room
    induction room with
    | zero => exact fun _ _ hne => hne
    | succ room ih =>
      intro stack fifo hne
      cases stack with
      | nil => exact hne
      | cons obj stack => exact ih _ _ (append_ne_nil_of_right_ne_nil _ (by simp))
  have hfifo : fifo = [] := by
    by_contra hne
    exact hgrows _ _ _ hne hempty
  subst hfifo
  cases stack with
  | nil => exact ⟨rfl, rfl⟩
  | cons obj stack => exact absurd hempty (hgrows 3 stack [obj] (cons_ne_nil _ _))

namespace MarkStack

def refilled (stack : MarkStack Obj) (fifo : List Obj) : MarkStack Obj := { stack with
    objects := (refill (kFifoSize - fifo.length) stack.objects fifo).1
    size_le := (refill_length_le _ _ _).trans stack.size_le }

/-- The objects of the stacks of the threads go to the mark stack. -/
def pushThreadRoots {Thread : Type u} (stack : MarkStack Obj)
    (rootStacks : RootStacks Thread Obj) : MarkStack Obj :=
  rootStacks.foldl (fun pushed entry => entry.2.objects.foldl push pushed) stack

end MarkStack

/-- The sequential loop of `ProcessMarkStack`; yields the objects in the order
in which they are scanned. -/
def scanLoop (scanner : Scanner Obj State) :
    ℕ → MarkStack Obj → List Obj → State → Option (List Obj)
  | 0, _, _, _ => none
  | fuel + 1, markStack, fifo, state =>
    match (refill (kFifoSize - fifo.length) markStack.objects fifo).2 with
    | [] => some []
    | obj :: rest =>
      let found := scanner.scan obj state
      (scanLoop scanner fuel (found.1.foldl MarkStack.push (markStack.refilled fifo))
        rest found.2).map (obj :: ·)

/-- `MarkStackCopyTask` with the prefetch queue of its `Run`; the last pushed
object first. -/
structure MarkStackCopyTask (Obj : Type*) where
  markStack : List Obj
  fifo : List Obj
  size_le : markStack.length ≤ kMaxSize

namespace MarkStackCopyTask

/-- A full stack gives its upper half to a new task. -/
def markStackPush (task : MarkStackCopyTask Obj) (obj : Obj) :
    MarkStackCopyTask Obj × List (MarkStackCopyTask Obj) :=
  if hfull : task.markStack.length = kMaxSize then
    ({ markStack := obj :: task.markStack.drop (kMaxSize - kMaxSize / 2)
       fifo := task.fifo
       size_le := by
         rw [length_cons, length_drop, hfull]
         decide },
     [{ markStack := task.markStack.take (kMaxSize - kMaxSize / 2)
        fifo := []
        size_le := (length_take_le _ _).trans (sub_le _ _) }])
  else
    ({ markStack := obj :: task.markStack
       fifo := task.fifo
       size_le := lt_of_le_of_ne task.size_le hfull }, [])

def pushAll : MarkStackCopyTask Obj → List Obj →
    MarkStackCopyTask Obj × List (MarkStackCopyTask Obj)
  | task, [] => (task, [])
  | task, obj :: rest =>
    let pushed := task.markStackPush obj
    let last := pushAll pushed.1 rest
    (last.1, pushed.2 ++ last.2)

def refilled (task : MarkStackCopyTask Obj) (rest : List Obj) : MarkStackCopyTask Obj where
  markStack := (refill (kFifoSize - task.fifo.length) task.markStack task.fifo).1
  fifo := rest
  size_le := (refill_length_le _ _ _).trans task.size_le

end MarkStackCopyTask

/-- The tasks of the thread pool that are not finished, what they share, and the
objects scanned so far. -/
structure Pool (Obj State : Type*) where
  tasks : List (MarkStackCopyTask Obj)
  state : State
  scanned : List Obj

def Pool.step (scanner : Scanner Obj State) (pool : Pool Obj State) (position : ℕ) :
    Option (Pool Obj State) :=
  match pool.tasks[position]? with
  | none => none
  | some task =>
    match (refill (kFifoSize - task.fifo.length) task.markStack task.fifo).2 with
    | [] => some { pool with tasks := pool.tasks.take position ++ pool.tasks.drop (position + 1) }
    | obj :: rest =>
      let found := scanner.scan obj pool.state
      let pushed := (task.refilled rest).pushAll found.1
      some { tasks := pool.tasks.take position ++ pushed.1 ::
               (pool.tasks.drop (position + 1) ++ pushed.2)
             state := found.2
             scanned := pool.scanned ++ [obj] }

def Pool.run (scanner : Scanner Obj State) (pool : Pool Obj State) (schedule : List ℕ) :
    Option (Pool Obj State) :=
  schedule.foldlM (Pool.step scanner) pool

/-- Tasks for the objects of a stack, `chunkSize` objects for each of them. -/
def addTasks (chunkSize : ℕ) : ℕ → List Obj → List (MarkStackCopyTask Obj)
  | 0, _ => []
  | _ + 1, [] => []
  | rounds + 1, obj :: rest =>
    { markStack := ((obj :: rest).take (min chunkSize kMaxSize)).reverse
      fifo := []
      size_le := by
        rw [length_reverse]
        exact (length_take_le _ _).trans (min_le_right _ _) } ::
      addTasks chunkSize rounds ((obj :: rest).drop (min chunkSize kMaxSize))

/-- The pool of `ProcessMarkStackParallel` when its workers start. -/
def startWorkers {Thread : Type u} (threadCount : ℕ) (rootStacks : RootStacks Thread Obj)
    (markStack : MarkStack Obj) (state : State) : Pool Obj State where
  tasks :=
    rootStacks.flatMap (fun entry => addTasks kMaxSize entry.2.objects.length entry.2.objects) ++
    addTasks (markStack.objects.length / threadCount + 1) markStack.objects.length
      markStack.objects.reverse
  state := state
  scanned := []

def usesThreadPool (supportParallel : Bool) (threadCount : ℕ) (markStack : MarkStack Obj) : Bool :=
  supportParallel && decide (1 < threadCount) &&
    decide (kSSMinimumParallelMarkStackSize ≤ markStack.objects.length)

end NougatArt.Gc
