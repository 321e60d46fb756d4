import NougatArt.Gc.MarkStacks

/-!
# Thread roots reach the scan

The stack of a thread takes `rootLimit` objects and no more. Within this limit
all objects are stored in order, and emptying the stacks scans each of them.
-/

namespace NougatArt.Gc

open MarkStack

open List Nat MarkStackCopyTask

universe u

section Storing

variable {Obj : Type u}

variable (markStackCapacity : ℕ)

/-- The number of objects that the stack of one thread can take. -/
def rootLimit : ℕ := min markStackCapacity kMaxSize

/-- A stack that holds exactly the pushed objects, in the storage it was created with. -/
structure ThreadRootMarkStack.Holds (stack : ThreadRootMarkStack Obj) (pushed : List Obj) :
    Prop where
  capacity_eq : stack.capacity = kMaxSize
  size_eq : stack.size = pushed.length
  storage : ∃ storage, stack.markStack = some storage ∧ storage.length = kMaxSize
  objects_eq : stack.objects = pushed

namespace ThreadRootMarkStack.Holds

variable {stack : ThreadRootMarkStack Obj} {pushed : List Obj}

section

variable {markStackCapacity : ℕ} (h : stack.Holds pushed)

include h

theorem pushBack (hroom : pushed.length < kMaxSize) (obj : Obj) :
    ∃ stack', stack.pushBack obj = .ok stack' ∧ stack'.Holds (pushed ++ [obj]) := by
  obtain ⟨storage, hstorage, hlength⟩ := h.storage
  have hin : stack.size < storage.length := by
    rw [h.size_eq, hlength]
    exact hroom
  have hobjects : storage.take stack.size = pushed := by
    rw [← h.objects_eq, objects, hstorage, Option.getD_some]
  refine ⟨{ stack with markStack := some (storage.set stack.size obj), size := stack.size + 1 },
    by simp only [ThreadRootMarkStack.pushBack, hstorage, if_pos hin], h.capacity_eq, ?_,
    ⟨_, rfl, by rw [length_set, hlength]⟩, ?_⟩
  · rw [length_append, length_singleton, h.size_eq]
  · calc (storage.set stack.size obj).take (stack.size + 1)
        = (storage.take (stack.size + 1)).set stack.size obj := take_set
      _ = (pushed ++ [storage[stack.size]]).set stack.size obj := by
          rw [take_succ_eq_append_getElem hin, hobjects]
      _ = pushed ++ [obj] := by
          rw [List.set_append_right _ _ h.size_eq.ge, Nat.sub_eq_zero_of_le h.size_eq.le,
            List.set_cons_zero]

theorem pushBack_full (hfull : kMaxSize ≤ pushed.length)
    (obj : Obj) : stack.pushBack obj = .error .outOfBounds := by
  obtain ⟨storage, hstorage, hlength⟩ := h.storage
  have hout : ¬ stack.size < storage.length := by
    rw [h.size_eq, hlength]
    exact not_lt.mpr hfull
  simp only [ThreadRootMarkStack.pushBack, hstorage, if_neg hout]

variable [Inhabited Obj]

/-- There is storage already, so no stack can grow. -/
theorem resize : stack.resize = .error .checkFailed := by
  obtain ⟨storage, hstorage, -⟩ := h.storage
  unfold ThreadRootMarkStack.resize
  split
  · simp only [regenerateMarkStack, createMarkStack, hstorage]
    rfl
  · rfl

theorem markStackPush_room (hroom : pushed.length < rootLimit markStackCapacity) (obj : Obj) :
    ∃ stack', markStackPush markStackCapacity stack obj = .ok stack' ∧
      stack'.Holds (pushed ++ [obj]) := by
  obtain ⟨hmark, hroom⟩ := lt_min_iff.mp hroom
  have hgrow : ¬ markStackCapacity ≤ stack.size := by
    rw [h.size_eq]
    exact not_le.mpr hmark
  rw [markStackPush, if_neg hgrow]
  exact h.pushBack hroom obj

end

variable [Inhabited Obj]

variable (Obj) in
theorem create : ∃ stack : ThreadRootMarkStack Obj,
    ThreadRootMarkStack.create kMaxSize = .ok stack ∧ stack.Holds [] :=
  ⟨_, rfl, rfl, rfl, ⟨_, rfl, length_replicate⟩, rfl⟩

end ThreadRootMarkStack.Holds

variable [Inhabited Obj]

theorem visitRoots_append (stack : ThreadRootMarkStack Obj) (first rest : List Obj) :
    visitRoots markStackCapacity stack (first ++ rest) =
      visitRoots markStackCapacity stack first >>= (visitRoots markStackCapacity · rest) := by
  induction first generalizing stack with
  | nil => rfl
  | cons obj first ih =>
    rw [cons_append, visitRoots, visitRoots, bind_assoc]
    exact bind_congr fun stack' => ih stack'

section

variable {created : ThreadRootMarkStack Obj} (hcreated : created.Holds [])

include hcreated

theorem visitRoots_stores (roots : List Obj) (hlimit : roots.length ≤ rootLimit markStackCapacity) :
    ∃ stack, visitRoots markStackCapacity created roots = .ok stack ∧ stack.Holds roots := by
  induction roots using reverseRecOn with
  | nil => exact ⟨_, rfl, hcreated⟩
  | append_singleton roots obj ih =>
    rw [length_append, length_singleton] at hlimit
    obtain ⟨stack, hvisit, hholds⟩ := ih (le_of_succ_le hlimit)
    obtain ⟨stack', hpush, hholds'⟩ := hholds.markStackPush_room hlimit obj
    refine ⟨stack', ?_, hholds'⟩
    rw [visitRoots_append, hvisit]
    show visitRoots markStackCapacity stack [obj] = _
    rw [visitRoots, hpush]
    rfl

def limitFault : Fault :=
  if markStackCapacity ≤ kMaxSize then .checkFailed else .outOfBounds

omit hcreated in
theorem markStackPush_beyond {markStackCapacity : ℕ} {stack : ThreadRootMarkStack Obj}
    {pushed : List Obj} (h : stack.Holds pushed)
    (hlen : pushed.length = rootLimit markStackCapacity) (obj : Obj) :
    markStackPush markStackCapacity stack obj = .error (limitFault markStackCapacity) := by
  rw [← h.size_eq, rootLimit] at hlen
  by_cases hle : markStackCapacity ≤ kMaxSize
  · rw [min_eq_left hle] at hlen
    rw [markStackPush, limitFault, if_pos hle, if_pos hlen.ge, h.resize]
    rfl
  · rw [min_eq_right (le_of_not_ge hle)] at hlen
    rw [markStackPush, limitFault, if_neg hle, if_neg (by omega)]
    exact h.pushBack_full (by rw [← h.size_eq, hlen]) obj

theorem visitRoots_fails (roots : List Obj) (hlimit : rootLimit markStackCapacity < roots.length) :
    visitRoots markStackCapacity created roots = .error (limitFault markStackCapacity) := by
  obtain ⟨first, obj, rest, rfl, hlen⟩ : ∃ first obj rest, roots = first ++ obj :: rest ∧
      first.length = rootLimit markStackCapacity :=
    ⟨roots.take (rootLimit markStackCapacity), roots[rootLimit markStackCapacity],
      roots.drop (rootLimit markStackCapacity + 1),
      by rw [← drop_eq_getElem_cons hlimit, take_append_drop],
      length_take_of_le hlimit.le⟩
  obtain ⟨stack, hvisit, hholds⟩ := visitRoots_stores _ hcreated _ hlen.le
  rw [visitRoots_append, hvisit]
  show visitRoots markStackCapacity stack (obj :: rest) = _
  rw [visitRoots, markStackPush_beyond hholds hlen]
  rfl

end

variable {Thread : Type u} [LinearOrder Thread]

/-- Each of the threads with roots has one stack, which holds its roots in order. -/
def StoresRoots (roots : Thread → List Obj) (threads : List Thread)
    (rootStacks : RootStacks Thread Obj) : Prop :=
  (rootStacks.map fun entry => (entry.1, entry.2.objects)).Perm
    ((threads.filter fun thread => roots thread ≠ []).map fun thread => (thread, roots thread))

variable {roots : Thread → List Obj} {threads : List Thread} {rootStacks : RootStacks Thread Obj}

omit [Inhabited Obj] in
theorem StoresRoots.lookup_eq_none (h : StoresRoots roots threads rootStacks) {thread : Thread}
    (hnew : thread ∉ threads) : rootStacks.lookup thread = none := by
  rw [lookup_eq_none_iff]
  intro entry hentry
  have hmem := h.subset (mem_map_of_mem hentry)
  obtain ⟨found, hfound, heq⟩ := mem_map.mp hmem
  have hkey : found = entry.1 := congrArg Prod.fst heq
  rw [bne_iff_ne]
  rintro rfl
  exact hnew (hkey ▸ mem_of_mem_filter hfound)

section

variable (h : StoresRoots roots threads rootStacks) {thread : Thread} (hnew : thread ∉ threads)

include h hnew

theorem markRootsOf_stores (hlimit : (roots thread).length ≤ rootLimit markStackCapacity) :
    ∃ rootStacks', markRootsOf markStackCapacity roots rootStacks thread = .ok rootStacks' ∧
      StoresRoots roots (threads ++ [thread]) rootStacks' := by
  obtain ⟨created, hcreate, hcreated⟩ := ThreadRootMarkStack.Holds.create Obj
  obtain ⟨stack, hvisit, hholds⟩ := visitRoots_stores _ hcreated (roots thread) hlimit
  refine ⟨if 0 < stack.size then
    rootStacks.orderedInsert (fun left right => left.1 ≤ right.1) (thread, stack)
      else rootStacks, ?_, ?_⟩
  · simp only [markRootsOf, h.lookup_eq_none hnew, hcreate, hvisit, bind, Except.bind, pure,
      Except.pure]
  · rw [StoresRoots, filter_append, map_append]
    by_cases hempty : roots thread = []
    · have hsize : ¬ 0 < stack.size := by rw [hholds.size_eq, hempty]; exact lt_irrefl 0
      rw [if_neg hsize, filter_cons_of_neg (by simpa using hempty), filter_nil, map_nil, append_nil]
      exact h
    · have hsize : 0 < stack.size := by
        rw [hholds.size_eq]
        exact length_pos_iff.mpr hempty
      rw [if_pos hsize, filter_cons_of_pos (by simpa using hempty), filter_nil, map_singleton]
      refine ((perm_orderedInsert _ _ _).map _).trans ?_
      rw [map_cons, hholds.objects_eq]
      exact (h.cons _).trans (perm_append_singleton _ _).symm

theorem markRootsOf_fails (hlimit : rootLimit markStackCapacity < (roots thread).length) :
    markRootsOf markStackCapacity roots rootStacks thread =
      .error (limitFault markStackCapacity) := by
  obtain ⟨created, hcreate, hcreated⟩ := ThreadRootMarkStack.Holds.create Obj
  simp only [markRootsOf, h.lookup_eq_none hnew, hcreate, visitRoots_fails _ hcreated _ hlimit,
    bind, Except.bind]

end

/-- The loop over the remaining threads, after some threads were visited. -/
theorem foldlM_markRootsOf_stores (rest : List Thread)
    (hlimit : ∀ thread ∈ rest, (roots thread).length ≤ rootLimit markStackCapacity) :
    ∀ (threads : List Thread) (rootStacks : RootStacks Thread Obj),
      StoresRoots roots threads rootStacks → (threads ++ rest).Nodup →
      ∃ rootStacks', rest.foldlM (markRootsOf markStackCapacity roots) rootStacks =
        .ok rootStacks' ∧ StoresRoots roots (threads ++ rest) rootStacks' := by
  induction rest with
  | nil =>
    intro threads rootStacks h _
    exact ⟨rootStacks, rfl, by rwa [append_nil]⟩
  | cons thread rest ih =>
    intro threads rootStacks h hnodup
    rw [forall_mem_cons] at hlimit
    have hnew : thread ∉ threads := fun hmem => disjoint_of_nodup_append hnodup hmem mem_cons_self
    obtain ⟨next, hnext, hstores⟩ := markRootsOf_stores markStackCapacity h hnew hlimit.1
    rw [foldlM_cons, hnext]
    rw [append_cons] at hnodup ⊢
    exact ih hlimit.2 (threads ++ [thread]) next hstores hnodup

theorem foldlM_markRootsOf_fails (rest : List Thread) :
    ∀ (threads : List Thread) (rootStacks : RootStacks Thread Obj),
      StoresRoots roots threads rootStacks → (threads ++ rest).Nodup →
      (∃ thread ∈ rest, rootLimit markStackCapacity < (roots thread).length) →
      rest.foldlM (markRootsOf markStackCapacity roots) rootStacks =
        .error (limitFault markStackCapacity) := by
  induction rest with
  | nil =>
    rintro threads rootStacks h hnodup ⟨thread, hthread, -⟩
    exact absurd hthread not_mem_nil
  | cons thread rest ih =>
    intro threads rootStacks h hnodup hbeyond
    have hnew : thread ∉ threads := fun hmem => disjoint_of_nodup_append hnodup hmem mem_cons_self
    rw [foldlM_cons]
    by_cases hlimit : (roots thread).length ≤ rootLimit markStackCapacity
    · obtain ⟨next, hnext, hstores⟩ := markRootsOf_stores markStackCapacity h hnew hlimit
      rw [hnext]
      refine ih (threads ++ [thread]) next hstores ?_ ?_
      · rwa [append_assoc, singleton_append]
      · obtain ⟨large, hmem, hlarge⟩ := hbeyond
        rcases mem_cons.mp hmem with rfl | hmem
        · exact absurd hlimit (not_le.mpr hlarge)
        · exact ⟨large, hmem, hlarge⟩
    · rw [markRootsOf_fails _ h hnew (Nat.lt_of_not_le hlimit)]
      rfl

omit [Inhabited Obj] [LinearOrder Thread] in
theorem StoresRoots.nil : StoresRoots roots [] ([] : RootStacks Thread Obj) := List.Perm.refl _

end Storing

section Scanning

variable {Obj : Type u} {Thread : Type u} {State : Type*}

def storedObjects (rootStacks : RootStacks Thread Obj) : Multiset Obj :=
  (rootStacks.map fun entry => (entry.2.objects : Multiset Obj)).sum

section ThreadStacks

variable [LinearOrder Thread]

theorem storedObjects_orderedInsert (entry : Thread × ThreadRootMarkStack Obj)
    (rootStacks : RootStacks Thread Obj) :
    storedObjects (rootStacks.orderedInsert (fun left right => left.1 ≤ right.1) entry) =
      entry.2.objects + storedObjects rootStacks := by
  rw [storedObjects, ((perm_orderedInsert _ entry rootStacks).map _).sum_eq, map_cons, sum_cons]
  rfl

/-- The objects of a thread that has no stack yet are stored if there is room. -/
theorem markRootsOf_new [Inhabited Obj] (markStackCapacity : ℕ) {pushed : List Obj}
    {rootStacks : RootStacks Thread Obj} {thread : Thread} (hnew : rootStacks.lookup thread = none)
    (hlimit : pushed.length ≤ rootLimit markStackCapacity) :
    ∃ rootStacks', markRootsOf markStackCapacity (fun _ => pushed) rootStacks thread =
        .ok rootStacks' ∧ storedObjects rootStacks' = pushed + storedObjects rootStacks ∧
      ∀ other, other ≠ thread → rootStacks.lookup other = none →
        rootStacks'.lookup other = none := by
  obtain ⟨created, hcreate, hcreated⟩ := ThreadRootMarkStack.Holds.create Obj
  obtain ⟨stack, hvisit, hholds⟩ := visitRoots_stores _ hcreated _ hlimit
  refine ⟨if 0 < stack.size then
    rootStacks.orderedInsert (fun left right => left.1 ≤ right.1) (thread, stack)
    else rootStacks, ?_, ?_, ?_⟩
  · simp only [markRootsOf, hnew, hcreate, hvisit, bind, Except.bind, pure, Except.pure]
  · split
    case isTrue => rw [storedObjects_orderedInsert, hholds.objects_eq]
    case isFalse hempty =>
      rw [hholds.size_eq, not_lt, le_zero, length_eq_zero_iff] at hempty
      rw [hempty, Multiset.coe_nil, zero_add]
  · intro other hne hnone
    split
    case isTrue =>
      rw [lookup_eq_none_iff] at hnone ⊢
      intro entry hentry
      obtain rfl | hentry := (mem_orderedInsert ..).mp hentry
      · exact bne_iff_ne.mpr hne
      · exact hnone _ hentry
    case isFalse => exact hnone

end ThreadStacks

namespace MarkStack

@[simp]
theorem objects_push (stack : MarkStack Obj) (obj : Obj) :
    (stack.push obj).objects = obj :: stack.objects := by
  unfold push
  split <;> rfl

theorem objects_foldl_push (objs : List Obj) (stack : MarkStack Obj) :
    (objs.foldl push stack).objects = objs.reverse ++ stack.objects := by
  induction objs generalizing stack with
  | nil => rfl
  | cons obj objs ih =>
    rw [foldl_cons, ih, objects_push, reverse_cons, append_assoc, singleton_append]

theorem coe_objects_foldl_push (objs : List Obj) (stack : MarkStack Obj) :
    ((objs.foldl push stack).objects : Multiset Obj) = objs + stack.objects := by
  rw [objects_foldl_push, ← Multiset.coe_add, Multiset.coe_reverse]

theorem objects_pushThreadRoots (rootStacks : RootStacks Thread Obj) (stack : MarkStack Obj) :
    ((stack.pushThreadRoots rootStacks).objects : Multiset Obj) =
      storedObjects rootStacks + stack.objects := by
  induction rootStacks generalizing stack with
  | nil => exact (zero_add _).symm
  | cons entry rootStacks ih =>
    calc ((stack.pushThreadRoots (entry :: rootStacks)).objects : Multiset Obj)
        = storedObjects rootStacks + (entry.2.objects + stack.objects) := by
          rw [← coe_objects_foldl_push]
          exact ih _
      _ = storedObjects (entry :: rootStacks) + stack.objects := by
          rw [storedObjects, storedObjects, map_cons, sum_cons]
          abel

end MarkStack

/-- Every object on the mark stack and in the queue is scanned. -/
theorem scanLoop_scans (scanner : Scanner Obj State) (fuel : ℕ) :
    ∀ (markStack : MarkStack Obj) (fifo : List Obj) (s : State),
      markStack.objects.length + fifo.length + scanner.unmarked s < fuel →
      ∃ scanned, scanLoop scanner fuel markStack fifo s = some scanned ∧
        (markStack.objects + fifo : Multiset Obj) ≤ scanned := by
  induction fuel with
  | zero => exact fun _ _ _ h => absurd h (not_lt_zero _)
  | succ fuel ih =>
    intro markStack fifo s hfuel
    rw [scanLoop]
    cases hfifo : (refill (kFifoSize - fifo.length) markStack.objects fifo).2 with
    | nil =>
      obtain ⟨hstack, rfl⟩ := refill_eq_nil hfifo
      refine ⟨[], rfl, ?_⟩
      rw [hstack]
      exact le_rfl
    | cons obj rest =>
      have hgray : (markStack.objects + fifo : Multiset Obj) =
          obj ::ₘ ((markStack.refilled fifo).objects + rest) := refill_cons hfifo
      have hlen := congrArg Multiset.card hgray
      have hscan := scanner.scan_le obj s
      obtain ⟨scanned, hrun, hle⟩ := ih
        ((scanner.scan obj s).1.foldl push (markStack.refilled fifo)) rest
        (scanner.scan obj s).2 (by
          simp only [objects_foldl_push, length_append, length_reverse,
            Multiset.card_add, Multiset.card_cons, Multiset.coe_card] at hlen ⊢
          omega)
      refine ⟨obj :: scanned, by simp only [hrun, Option.map_some], ?_⟩
      calc (markStack.objects + fifo : Multiset Obj)
          = obj ::ₘ ((markStack.refilled fifo).objects + rest : Multiset Obj) := hgray
        _ ≤ obj ::ₘ (scanned : Multiset Obj) := by
            refine Multiset.cons_le_cons obj (le_trans ?_ hle)
            rw [coe_objects_foldl_push]
            exact add_le_add_left (Multiset.le_add_left _ _) _

namespace MarkStackCopyTask

def contents (task : MarkStackCopyTask Obj) : Multiset Obj := task.markStack + task.fifo

theorem markStackPush_contents (task : MarkStackCopyTask Obj) (obj : Obj) :
    (task.markStackPush obj).1.contents + ((task.markStackPush obj).2.map contents).sum =
      obj ::ₘ task.contents := by
  unfold markStackPush
  split
  · have hhalves := take_append_drop (kMaxSize - kMaxSize / 2) task.markStack
    simp only [contents, map_cons, map_nil, sum_cons, sum_nil]
    rw [← Multiset.cons_coe, Multiset.cons_add, Multiset.cons_add]
    congr 1
    conv_rhs => rw [← hhalves, ← Multiset.coe_add]
    abel
  · simp only [contents, map_nil, sum_nil, add_zero]
    rw [← Multiset.cons_coe, Multiset.cons_add]

theorem length_markStackPush (task : MarkStackCopyTask Obj) (obj : Obj) :
    (task.markStackPush obj).2.length ≤ 1 := by
  unfold markStackPush
  split
  · exact le_rfl
  · exact zero_le 1

theorem pushAll_contents (objs : List Obj) (task : MarkStackCopyTask Obj) :
    (task.pushAll objs).1.contents + ((task.pushAll objs).2.map contents).sum =
      objs + task.contents := by
  induction objs generalizing task with
  | nil => exact add_comm _ _
  | cons obj objs ih =>
    calc (task.pushAll (obj :: objs)).1.contents + ((task.pushAll (obj :: objs)).2.map contents).sum
        = ((task.markStackPush obj).1.pushAll objs).1.contents +
            (((task.markStackPush obj).1.pushAll objs).2.map contents).sum +
            ((task.markStackPush obj).2.map contents).sum := by
          simp only [pushAll, List.map_append, List.sum_append]
          abel
      _ = objs + ((task.markStackPush obj).1.contents +
            ((task.markStackPush obj).2.map contents).sum) := by rw [ih, add_assoc]
      _ = (obj :: objs : List Obj) + task.contents := by
          rw [markStackPush_contents, Multiset.add_cons, ← Multiset.cons_coe, Multiset.cons_add]

theorem length_pushAll (objs : List Obj) (task : MarkStackCopyTask Obj) :
    (task.pushAll objs).2.length ≤ objs.length := by
  induction objs generalizing task with
  | nil => exact le_rfl
  | cons obj objs ih =>
    have hfirst := length_markStackPush task obj
    have hrest := ih (task.markStackPush obj).1
    simp only [pushAll, length_append, length_cons]
    omega

end MarkStackCopyTask

namespace Pool

def pending (pool : Pool Obj State) : Multiset Obj := (pool.tasks.map contents).sum

/-- Each round of a task scans an object or ends the task; an object pushed later
may need a task of its own. -/
def measure (scanner : Scanner Obj State) (pool : Pool Obj State) : ℕ :=
  pool.pending.card + pool.tasks.length + 2 * scanner.unmarked pool.state

variable {scanner : Scanner Obj State} {pool pool' : Pool Obj State} {position : ℕ}

section

variable (hstep : pool.step scanner position = some pool')

include hstep

/-- What a round of a task does: it ends a task without objects, or it scans one
object and pushes what it finds. -/
theorem step_cases :
    (∃ before task after, pool.tasks = before ++ task :: after ∧ task.contents = 0 ∧
      pool' = { pool with tasks := before ++ after }) ∨
    ∃ before task after obj pushed spawned, pool.tasks = before ++ task :: after ∧
      pool' = { tasks := before ++ pushed :: (after ++ spawned)
                state := (scanner.scan obj pool.state).2
                scanned := pool.scanned ++ [obj] } ∧
      obj ::ₘ (pushed.contents + (spawned.map contents).sum) =
        (scanner.scan obj pool.state).1 + task.contents ∧
      spawned.length ≤ (scanner.scan obj pool.state).1.length := by
  unfold step at hstep
  rcases htask : pool.tasks[position]? with _ | task
  · rw [htask] at hstep
    cases hstep
  rw [htask] at hstep
  obtain ⟨hposition, rfl⟩ := List.getElem?_eq_some_iff.mp htask
  have htasks : pool.tasks = pool.tasks.take position ++
      pool.tasks[position] :: pool.tasks.drop (position + 1) := by
    rw [← drop_eq_getElem_cons hposition, take_append_drop]
  generalize pool.tasks[position] = task at *
  cases hfifo : (refill (kFifoSize - task.fifo.length) task.markStack task.fifo).2 with
  | nil =>
    left
    obtain ⟨hstack, hqueue⟩ := refill_eq_nil hfifo
    simp only [hfifo, Option.some.injEq] at hstep
    refine ⟨_, task, _, htasks, ?_, hstep.symm⟩
    rw [contents, hstack, hqueue]
    rfl
  | cons obj rest =>
    right
    simp only [hfifo, Option.some.injEq] at hstep
    refine ⟨_, task, _, obj, _, _, htasks, hstep.symm, ?_, length_pushAll _ _⟩
    rw [pushAll_contents, ← Multiset.add_cons]
    exact congrArg _ (refill_cons hfifo).symm

theorem step_keeps : pool.pending + pool.scanned ≤ pool'.pending + pool'.scanned := by
  obtain ⟨before, task, after, htasks, hempty, rfl⟩ |
    ⟨before, task, after, obj, pushed, spawned, htasks, rfl, hcont, -⟩ := step_cases hstep
  · simp only [pending, htasks, List.map_append, List.map_cons, List.sum_append, List.sum_cons,
      hempty, zero_add]
    exact le_rfl
  · simp only [pending, htasks, List.map_append, List.map_cons, List.sum_append, List.sum_cons]
    calc (before.map MarkStackCopyTask.contents).sum +
          (task.contents + (after.map contents).sum) + (pool.scanned : Multiset Obj)
        ≤ (before.map contents).sum + (after.map contents).sum + pool.scanned +
          ((scanner.scan obj pool.state).1 + task.contents) := by
          refine le_of_eq_of_le ?_ (add_le_add_right (Multiset.le_add_left task.contents _) _)
          abel
      _ = _ := by
          rw [← hcont, ← Multiset.coe_add, Multiset.coe_singleton, ← Multiset.singleton_add]
          abel

theorem step_measure : pool'.measure scanner < pool.measure scanner := by
  obtain ⟨before, task, after, htasks, hempty, rfl⟩ |
    ⟨before, task, after, obj, pushed, spawned, htasks, rfl, hcont, hspawned⟩ := step_cases hstep
  · simp only [measure, pending, htasks, List.map_append, List.map_cons, List.sum_append,
      List.sum_cons, hempty, zero_add, List.length_append, List.length_cons]
    omega
  · have hcard := congrArg Multiset.card hcont
    have hscan := scanner.scan_le obj pool.state
    simp only [measure, pending, htasks, List.map_append, List.map_cons, List.sum_append,
      List.sum_cons, List.length_append, List.length_cons, Multiset.card_add, Multiset.card_cons,
      Multiset.coe_card] at hcard ⊢
    omega

end

/-- The rounds of a run are bounded, and no object is lost in it. -/
theorem run_keeps (schedule : List ℕ) (pool : Pool Obj State)
    (hrun : pool.run scanner schedule = some pool') :
    pool.pending + pool.scanned ≤ pool'.pending + pool'.scanned ∧
      schedule.length + pool'.measure scanner ≤ pool.measure scanner := by
  induction schedule generalizing pool with
  | nil =>
    cases hrun
    exact ⟨le_rfl, (zero_add _).le⟩
  | cons position schedule ih =>
    obtain ⟨next, hstep, hrest⟩ := Option.bind_eq_some_iff.mp hrun
    obtain ⟨hkeeps, hmeasure⟩ := ih next hrest
    have hless := step_measure hstep
    refine ⟨(step_keeps hstep).trans hkeeps, ?_⟩
    rw [length_cons]
    omega

theorem exists_step (htasks : pool.tasks ≠ []) :
    ∃ position, (pool.step scanner position).isSome := by
  refine ⟨0, ?_⟩
  obtain ⟨task, rest, heq⟩ := exists_cons_of_ne_nil htasks
  unfold step
  rw [heq, getElem?_cons_zero]
  dsimp only
  split <;> rfl

end Pool

theorem addTasks_contents {chunkSize : ℕ} (hchunk : 0 < chunkSize) (rounds : ℕ) (objs : List Obj)
    (hrounds : objs.length ≤ rounds) :
    ((addTasks chunkSize rounds objs).map contents).sum = objs := by
  induction rounds generalizing objs with
  | zero =>
    rw [length_eq_zero_iff.mp (le_zero.mp hrounds)]
    rfl
  | succ rounds ih =>
    cases objs with
    | nil => rfl
    | cons obj rest =>
      have hpos : 0 < min chunkSize kMaxSize := lt_min hchunk (by decide)
      have hlen : ((obj :: rest).drop (min chunkSize kMaxSize)).length ≤ rounds := by
        rw [length_drop]
        omega
      rw [addTasks, map_cons, sum_cons, ih _ hlen, contents,
        Multiset.coe_reverse, Multiset.coe_nil, add_zero, Multiset.coe_add,
        take_append_drop]

theorem startWorkers_pending (threadCount : ℕ) (rootStacks : RootStacks Thread Obj)
    (markStack : MarkStack Obj) (s : State) :
    (startWorkers threadCount rootStacks markStack s).pending =
      storedObjects rootStacks + markStack.objects := by
  have hroots : ((rootStacks.flatMap fun entry =>
      addTasks kMaxSize entry.2.objects.length entry.2.objects).map
        contents).sum = storedObjects rootStacks := by
    induction rootStacks with
    | nil => rfl
    | cons entry rootStacks ih =>
      rw [List.flatMap_cons, List.map_append, List.sum_append, ih,
        addTasks_contents (by decide) _ _ le_rfl]
      rfl
  rw [Pool.pending, startWorkers, List.map_append, List.sum_append, hroots,
    addTasks_contents (succ_pos _) _ _ (length_reverse).le, Multiset.coe_reverse]

/-- `ProcessMarkStack` comes to its end and has scanned every stored object then,
whatever the order in which the workers of the thread pool take their turns. -/
def ScansStored (scanner : Scanner Obj State) (supportParallel : Bool) (threadCount : ℕ)
    (rootStacks : RootStacks Thread Obj) (markStack : MarkStack Obj) (state : State) : Prop :=
  if usesThreadPool supportParallel threadCount markStack then
    ∃ rounds, ∀ schedule pool,
      (startWorkers threadCount rootStacks markStack state).run scanner schedule = some pool →
        schedule.length ≤ rounds ∧
        (pool.tasks ≠ [] → ∃ position, (pool.step scanner position).isSome) ∧
        (pool.tasks = [] → storedObjects rootStacks ≤ pool.scanned)
  else
    ∃ fuel scanned,
      scanLoop scanner fuel (markStack.pushThreadRoots rootStacks) [] state = some scanned ∧
        storedObjects rootStacks ≤ scanned

theorem scansStored (scanner : Scanner Obj State) (supportParallel : Bool) (threadCount : ℕ)
    (rootStacks : RootStacks Thread Obj) (markStack : MarkStack Obj) (s : State) :
    ScansStored scanner supportParallel threadCount rootStacks markStack s := by
  unfold ScansStored
  split
  · refine ⟨(startWorkers threadCount rootStacks markStack s).measure scanner, ?_⟩
    intro schedule pool hrun
    obtain ⟨hkeeps, hmeasure⟩ := Pool.run_keeps _ _ hrun
    refine ⟨by omega, Pool.exists_step, fun htasks => ?_⟩
    rw [startWorkers_pending, Pool.pending, htasks, map_nil, sum_nil, zero_add] at hkeeps
    exact (Multiset.le_add_right _ _).trans ((Multiset.le_add_right _ _).trans hkeeps)
  · obtain ⟨scanned, hrun, hle⟩ := scanLoop_scans scanner _
      (markStack.pushThreadRoots rootStacks) [] s (lt_succ_self _)
    refine ⟨_, scanned, hrun, le_trans ?_ hle⟩
    rw [objects_pushThreadRoots, add_assoc]
    exact Multiset.le_add_right _ _

variable [Inhabited Obj] [LinearOrder Thread]

/-- All newly marked roots are stored on the stacks of their threads, and all
stored objects are scanned. -/
def RootsReachScan (markStackCapacity : ℕ) (roots : Thread → List Obj) (threads : List Thread)
    (scanner : Scanner Obj State) (supportParallel : Bool) (threadCount : ℕ)
    (markStack : MarkStack Obj) (state : State) : Prop :=
  ∃ rootStacks, markThreadRoots markStackCapacity roots threads = .ok rootStacks ∧
    StoresRoots roots threads rootStacks ∧
    ScansStored scanner supportParallel threadCount rootStacks markStack state

/-- The threads of the thread list are distinct. Their roots reach the scan
exactly when no thread has more of them than its stack can take. -/
theorem rootsReachScan_iff (markStackCapacity : ℕ) (roots : Thread → List Obj)
    (threads : { threads : List Thread // threads.Nodup }) (scanner : Scanner Obj State)
    (supportParallel : Bool) (threadCount : ℕ) (markStack : MarkStack Obj) (state : State) :
    RootsReachScan markStackCapacity roots threads scanner supportParallel threadCount
        markStack state ↔
      ∀ thread ∈ threads.1, (roots thread).length ≤ rootLimit markStackCapacity := by
  obtain ⟨threads, hnodup⟩ := threads
  constructor
  · rintro ⟨rootStacks, hmark, -, -⟩ thread hthread
    by_contra hlimit
    have hfails := foldlM_markRootsOf_fails _ _ [] [] .nil hnodup
      ⟨thread, hthread, Nat.lt_of_not_le hlimit⟩
    rw [markThreadRoots, hfails] at hmark
    cases hmark
  · intro hlimit
    obtain ⟨rootStacks, hmark, hstores⟩ := foldlM_markRootsOf_stores _ _ hlimit [] [] .nil hnodup
    exact ⟨rootStacks, hmark, hstores, scansStored _ _ _ _ _ _⟩

/-- With a mark stack of its usual size, object 4097 of a thread is written
behind the end of the storage. -/
theorem manyRoots_outOfBounds :
    markThreadRoots (64 * 1024) (fun _ : ℕ => replicate 4097 (7 : ℕ)) [0] =
      .error .outOfBounds := by
  refine foldlM_markRootsOf_fails (64 * 1024) [0] [] [] .nil (nodup_singleton 0) ⟨0, ?_, ?_⟩
  · exact mem_singleton_self 0
  · rw [length_replicate]
    decide

end Scanning

end NougatArt.Gc
