import NougatArt.Gc.CopyRoots

/-!
# The collection preserves the graph of the reachable objects

The roots of the threads go to stacks of their own, which take a limited number
of objects. When they do, and no cell that is visited again has a copy in the
fallback space, the reachable objects are copied once each and all references to
them are replaced.
-/

namespace NougatArt.Gc

open List

open Option Function Nat Finset Prod MarkStack

namespace SemiSpace

variable {ss : SemiSpace} {start heap heap' : Heap} {cells : List ℕ} {gray : Multiset ℕ}

variable {Thread : Type} [LinearOrder Thread] {obj : ℕ}

/-- Every thread finds room on its stack for what its roots reach first. -/
def ThreadsFit (ss : SemiSpace) (start : Heap) (markStackCapacity : ℕ) :
    List ℕ → List (Thread × List ℕ) → Prop
  | _, [] => True
  | done, (_, cells) :: threads =>
    (ss.markedBy start cells \ ss.markedBy start done).card ≤ rootLimit markStackCapacity ∧
      ThreadsFit ss start markStackCapacity (done ++ cells) threads

/-- The roots of the threads: all are stored, or some thread has too many. -/
theorem Collecting.markThreadRoots (hstart : ss.WellFormed start cells)
    (hroom : ss.HasRoom start cells) (markStackCapacity cur : ℕ)
    (threads : List (Thread × List ℕ)) :
    ∀ (heap : Heap) (rootStacks : RootStacks Thread ℕ) (done : List ℕ),
      ss.Collecting start cells heap (storedObjects rootStacks) cur [] →
      ss.Scanned start cells heap (storedObjects rootStacks) [] →
      ss.Rooted start heap done → ss.reached start heap = ss.markedBy start done →
      done ++ threads.flatMap snd ⊆ cells →
      ss.RevisitsQuietly start (done ++ threads.flatMap snd) → (threads.map fst).Nodup →
      (∀ thread ∈ threads.map fst, rootStacks.lookup thread = none) →
      (ss.ThreadsFit start markStackCapacity done threads ∧ ∃ rootStacks' heap',
          ss.markThreadRoots markStackCapacity threads rootStacks heap = .ok (rootStacks', heap') ∧
          ss.Collecting start cells heap' (storedObjects rootStacks') cur [] ∧
          ss.Scanned start cells heap' (storedObjects rootStacks') [] ∧
          ss.Rooted start heap' (done ++ threads.flatMap snd)) ∨
      (¬ ss.ThreadsFit start markStackCapacity done threads ∧
        ∃ fault, ss.markThreadRoots markStackCapacity threads rootStacks heap = .error fault) := by
  induction threads with
  | nil =>
    intro heap rootStacks done h hscanned hroots _ _ _ _ _
    refine .inl ⟨trivial, rootStacks, heap, rfl, h, hscanned, ?_⟩
    rwa [flatMap_nil, append_nil]
  | cons entry threads ih =>
    obtain ⟨thread, own⟩ := entry
    intro heap rootStacks done h hscanned hroots hreached hcells hquiet hnodup hnew
    rw [flatMap_cons, ← append_assoc] at hcells hquiet
    rw [List.map_cons, List.nodup_cons] at hnodup
    obtain ⟨pushed, heap₁, hvisit, hcollecting, hroots', hext, hreached'⟩ :=
      Collecting.visitRootCells hstart hroom own _ _ _ h hroots
        (fun cell hcell => .inl (hcells (mem_append_left _ hcell))) hquiet.of_append
    have hscanned := hscanned.of_extends hstart hext
    have hcount := hext.card_eq
    have hlen : pushed.length = (ss.markedBy start own \ ss.markedBy start done).card := by
      have hcard := card_sdiff_add_card (ss.markedBy start own) (ss.markedBy start done)
      rw [hreached', hreached, union_comm, ← hcard] at hcount
      exact add_right_cancel hcount
    have hnone := hnew _ mem_cons_self
    by_cases hlimit : pushed.length ≤ rootLimit markStackCapacity
    · obtain ⟨rootStacks', hmark, hstored, hlookup⟩ := markRootsOf_new _ hnone hlimit
      have hrun : ss.markThreadRoots markStackCapacity ((thread, own) :: threads) rootStacks heap =
          ss.markThreadRoots markStackCapacity threads rootStacks' heap₁ := by
        rw [SemiSpace.markThreadRoots, hvisit]
        simp only [bind, Except.bind, hmark]
      have hfit : ss.ThreadsFit start markStackCapacity done ((thread, own) :: threads) ↔
          ss.ThreadsFit start markStackCapacity (done ++ own) threads := by
        rw [ThreadsFit, ← hlen]
        exact and_iff_right hlimit
      rw [hrun, hfit, flatMap_cons, ← append_assoc]
      refine ih heap₁ _ (done ++ own) (hstored ▸ hcollecting) (hstored ▸ hscanned) hroots' ?_
        hcells hquiet hnodup.2 ?_
      · rw [hreached', hreached, markedBy_append]
      · intro other hother
        exact hlookup other (fun heq => hnodup.1 (heq ▸ hother))
          (hnew other (mem_cons_of_mem _ hother))
    · refine .inr ⟨fun hfit => hlimit (hlen ▸ hfit.1), limitFault markStackCapacity, ?_⟩
      rw [SemiSpace.markThreadRoots, hvisit]
      obtain ⟨created, hcreate, hcreated⟩ := ThreadRootMarkStack.Holds.create ℕ
      simp only [bind, Except.bind, markRootsOf, hnone, hcreate,
        visitRoots_fails _ hcreated _ (Nat.lt_of_not_le hlimit)]

/-! ## The graph after the collection -/

/-- A one-to-one map from the objects that the roots reach to their images: the
objects of the from-space are copied once each, roots, fields and native roots are
replaced by images, and everything else in an object stays as it was. -/
structure CopyMap (ss : SemiSpace) (start : Heap) (cells : List ℕ) (last : Heap)
    (image : ℕ → ℕ) : Prop where
  injective : ∀ obj other, ss.Reachable start cells obj → ss.Reachable start cells other →
    image obj = image other → obj = other
  fixed : ∀ ref, ss.inFromSpace ref = false → image ref = ref
  moved : ∀ obj, ss.Reachable start cells obj → ss.inFromSpace obj = true →
    image obj ∉ start.allocated
  allocated : ∀ address, address ∈ last.allocated ↔ address ∈ start.allocated ∨
    ∃ obj, ss.Reachable start cells obj ∧ ss.inFromSpace obj = true ∧ image obj = address
  roots : ∀ cell ∈ cells, last.rootCells cell = image (start.rootCells cell)
  refOffsets : ∀ obj, ss.Reachable start cells obj →
    (last.object (image obj)).refOffsets = (start.object obj).refOffsets
  fields : ∀ obj, ss.Reachable start cells obj → ∀ offset ∈ (start.object obj).refOffsets,
    last.fieldAt (image obj) offset = image (start.fieldAt obj offset)
  nativeRoots : ∀ obj, ss.Reachable start cells obj →
    (last.object (image obj)).nativeRoots = (start.object obj).nativeRoots
  natives : ∀ obj, ss.Reachable start cells obj → ∀ cell ∈ (start.object obj).nativeRoots,
    last.rootCells cell = image (start.rootCells cell)
  size : ∀ obj, ss.Reachable start cells obj →
    (last.object (image obj)).sizeOf = (start.object obj).sizeOf
  bytes : ∀ obj, ss.Reachable start cells obj → ∀ index,
    (∀ offset ∈ (start.object obj).refOffsets, index < offset ∨ offset + 4 ≤ index) →
    (last.object (image obj)).bytes.getD index 0 = (start.object obj).bytes.getD index 0
  lockWord : ∀ obj, ss.Reachable start cells obj →
    (last.object (image obj)).lockWord = (start.object obj).lockWord
  leftFromSpace : ∀ obj, ss.Reachable start cells obj → ss.inFromSpace (image obj) = false

/-- Enough fuel lets the collection end, with the graph of the reachable objects
as it was. -/
def PreservesGraph (ss : SemiSpace) (markStack : MarkStack ℕ) (threads : List (Thread × List ℕ))
    (others : List ℕ) (start : Heap) : Prop :=
  ∃ bound, ∀ fuel, bound ≤ fuel → ∃ last image,
    ss.collect fuel markStack threads others start = some (.ok last) ∧
      ss.CopyMap start (threads.flatMap snd ++ others) last image

theorem Updated.lockWord_eq {old new : Object} {waits : ℕ → Prop}
    (h : ss.Updated heap old new waits) : new.lockWord = old.lockWord := by
  have hbyte : ∀ i, 4 ≤ i → i < 8 → new.bytes.getD i 0 = old.bytes.getD i 0 := by
    intro i hle hlt
    refine h.byte_eq i fun off hoff => ?_
    obtain ⟨haligned, -, hne⟩ := old.field_spec off (old.mem_fields_of_ref hoff)
    simp only [kMonitorOffset] at hne
    omega
  simp only [Object.lockWord, readWord, kMonitorOffset]
  rw [hbyte 4 (by omega) (by omega), hbyte 5 (by omega) (by omega), hbyte 6 (by omega) (by omega),
    hbyte 7 (by omega) (by omega)]

namespace Collecting

variable {last : Heap} {cur : ℕ}

section

variable {scanned : List ℕ} (h : ss.Collecting start cells last 0 cur [])
  (hscanned : ss.Scanned start cells last 0 scanned) (hstart : ss.WellFormed start cells)
  (hroots : ss.Rooted start last (visitedBy start cells scanned))

omit h in
include hscanned hstart hroots in
/-- A native root of an object with an image has been visited. -/
theorem native_visited {addr cell : ℕ} (hobj : ss.Reachable start cells obj)
    (himage : ss.image last obj = some addr) (hcell : cell ∈ (start.object obj).nativeRoots) :
    ss.image last (start.rootCells cell) = some (last.rootCells cell) := by
  have hmem : obj ∈ scanned :=
    (hscanned.complete obj (hobj.mem hstart) hobj.traced addr himage).resolve_left
      (Multiset.notMem_zero addr)
  exact hroots.visited cell (mem_append_right _ (mem_flatMap.mpr ⟨obj, hmem, hcell⟩))

include h hscanned hstart hroots

/-- When nothing is left to scan, all reachable objects have been marked. -/
theorem exists_image
    (hobj : ss.Reachable start cells obj) : ∃ addr, ss.image last obj = some addr := by
  induction hobj with
  | root hcell _ => exact ⟨_, hroots.visited _ (mem_append_left _ hcell)⟩
  | native hobj hcell _ ih =>
    obtain ⟨addr, himage⟩ := ih
    exact ⟨_, native_visited hscanned hstart hroots hobj himage hcell⟩
  | field hobj hoff _ ih =>
    obtain ⟨addr, himage⟩ := ih
    refine ⟨_, (h.tracing.content _ (hobj.mem hstart) hobj.traced _ himage).visited _ hoff ?_⟩
    rintro (hgray | ⟨-, hmem⟩)
    · exact Multiset.notMem_zero _ hgray
    · exact not_mem_nil hmem

theorem copyMap : ss.CopyMap start cells last fun ref => (ss.image last ref).getD ref := by
  have himage : ∀ obj, ss.Reachable start cells obj →
      ss.image last obj = some ((ss.image last obj).getD obj) := by
    intro obj hobj
    obtain ⟨addr, hfound⟩ := h.exists_image hscanned hstart hroots hobj
    rw [hfound, getD_some]
  have hupdated := fun obj (hobj : ss.Reachable start cells obj) =>
    h.tracing.content obj (hobj.mem hstart) hobj.traced _ (himage obj hobj)
  constructor
  case injective =>
    intro obj other hobj hother heq
    refine h.forwarding.image_injective hstart (hobj.mem hstart) (hother.mem hstart)
      (himage obj hobj) ?_
    rw [himage _ hother, ← heq]
  case fixed =>
    intro ref hfrom
    cases hfound : ss.image last ref with
    | none => rfl
    | some addr => exact image_eq_self hfrom hfound
  case moved =>
    intro obj hobj hfrom
    exact (h.forwarding.copy_of_forwarded hstart (hobj.mem hstart) hfrom
      ((image_of_from hfrom).symm.trans (himage obj hobj))).2.2.1
  case allocated =>
    intro addr
    constructor
    · intro hmem
      by_cases hold : addr ∈ start.allocated
      · exact .inl hold
      · obtain ⟨obj, hobj, hfrom, hfwd, -⟩ := h.forwarding.copies _ hmem hold
        have hfound : ss.image last obj = some addr := by rw [image_of_from hfrom, hfwd]
        refine .inr ⟨obj, h.tracing.reachable obj (mem_reached_of_image hobj
          (isTraced_of_inFromSpace hfrom) hfound), hfrom, ?_⟩
        rw [hfound, getD_some]
    · rintro (hmem | ⟨obj, hobj, -, rfl⟩)
      · exact h.forwarding.start_subset hmem
      · exact (h.forwarding.image_cases hstart (hobj.mem hstart) (himage obj hobj)).1
  case roots =>
    intro cell hcell
    rw [hroots.visited _ (mem_append_left _ hcell), getD_some]
  case refOffsets => exact fun obj hobj => (hupdated obj hobj).refOffsets_eq
  case fields =>
    intro obj hobj off hoff
    have hvis := (hupdated obj hobj).visited off hoff (by
      rintro (hgray | ⟨-, hmem⟩)
      · exact Multiset.notMem_zero _ hgray
      · exact not_mem_nil hmem)
    rw [Heap.fieldAt, Heap.fieldAt, hvis, getD_some]
  case nativeRoots => exact fun obj hobj => (hupdated obj hobj).nativeRoots_eq
  case natives =>
    intro obj hobj cell hcell
    rw [native_visited hscanned hstart hroots hobj (himage obj hobj) hcell, getD_some]
  case size => exact fun obj hobj => (hupdated obj hobj).length_eq
  case bytes => exact fun obj hobj => (hupdated obj hobj).byte_eq
  case lockWord => exact fun obj hobj => (hupdated obj hobj).lockWord_eq
  case leftFromSpace =>
    exact fun obj hobj => (h.forwarding.image_cases hstart (hobj.mem hstart) (himage obj hobj)).2.1

end

end Collecting

/-- A sequential collection preserves the graph of the reachable objects exactly
if every thread has room on its stack for what its roots reach first, provided
that no copy fails for lack of memory and that no cell with a copy in the
fallback space is visited again by a collection of the whole heap. -/
theorem preservesGraph_iff (ss : SemiSpace) (markStack : MarkStack ℕ)
    (threads : List (Thread × List ℕ)) (others : List ℕ) (start : Heap)
    (hempty : markStack.objects = []) (hthreads : (threads.map fst).Nodup)
    (hstart : ss.WellFormed start (threads.flatMap snd ++ others))
    (hroom : ss.HasRoom start (threads.flatMap snd ++ others))
    (hquiet : ss.MarksQuietly start (threads.flatMap snd ++ others)) :
    ss.PreservesGraph markStack threads others start ↔
      ss.ThreadsFit start markStack.capacity [] threads := by
  have hinitial : ss.Collecting start (threads.flatMap snd ++ others) start
      (storedObjects ([] : RootStacks Thread ℕ)) 0 [] := ⟨.initial hstart, .initial hstart⟩
  have hreached : ss.reached start start = ss.markedBy start [] := by
    refine filter_eq_empty_iff.mpr fun obj hobj hmarked => ?_
    rw [hstart.image_eq_none hobj hmarked.1] at hmarked
    exact Bool.false_ne_true hmarked.2
  have hroots := hquiet.revisitsQuietly
  obtain ⟨hfit, rootStacks, heap₁, hmark, hcollecting, hscanned, hvisited⟩ | ⟨hfit, fault, hmark⟩ :=
    Collecting.markThreadRoots hstart hroom markStack.capacity 0 threads _ [] [] hinitial
      (.initial hstart) ⟨fun _ hmem => absurd hmem not_mem_nil, fun _ _ => rfl⟩ hreached
      (subset_append_left ..) hroots.of_append hthreads (fun _ _ => rfl)
  · refine iff_of_true ?_ hfit
    obtain ⟨pushed, heap₂, hvisit, hcollecting', hvisited', hext, -⟩ :=
      Collecting.visitRootCells hstart hroom _ heap₁ _ _ hcollecting hvisited
        (fun cell hcell => .inl hcell) hroots
    have hscanned := hscanned.of_extends hstart hext
    generalize hstack : (pushed.foldl push markStack).pushThreadRoots rootStacks = stack
    have hobjects : pushed + storedObjects rootStacks =
        (stack.objects : Multiset ℕ) + (([] : List ℕ) : Multiset ℕ) := by
      rw [← hstack, objects_pushThreadRoots, objects_foldl_push, hempty,
        append_nil, Multiset.coe_reverse, Multiset.coe_nil, add_zero, add_comm]
    rw [hobjects] at hcollecting' hscanned
    refine ⟨stack.objects.length + start.allocated.card + 1, fun fuel hfuel => ?_⟩
    obtain ⟨last, scanned, hloop, hlast, hdone, hcells⟩ := Collecting.processLoop hstart hroom
      hquiet fuel _ [] heap₂ [] hcollecting' hscanned
      (by rwa [visitedBy_nil]) (by
        rw [length_nil]
        omega)
    refine ⟨last, _, ?_, hlast.copyMap hdone hstart hcells⟩
    rw [collect, markRoots, hmark]
    simp only [bind, Except.bind, hvisit, pure, Except.pure, processMarkStack, hstack]
    exact hloop
  · refine iff_of_false ?_ hfit
    rintro ⟨bound, hall⟩
    obtain ⟨last, image, hcollect, -⟩ := hall bound le_rfl
    rw [collect, markRoots, hmark] at hcollect
    exact absurd hcollect (by simp [bind, Except.bind])

/-! ## A class and an object -/

namespace TwoObjects

/-- A class in the from-space with a static field that refers to an object; cell 0 is the
declaring class of one of its methods. The classes of both are in an immune space. -/
def first : Object where
  bytes := [136, 19, 0, 0, 7, 0, 0, 0, 24, 0, 0, 0]
  refOffsets := [0, 8]
  referentOffset := none
  nativeRoots := [0]
  header_le := by decide
  field_spec := by decide
  fields_nodup := by decide

def second : Object where
  bytes := [136, 19, 0, 0, 0, 0, 0, 0]
  refOffsets := [0]
  referentOffset := none
  nativeRoots := []
  header_le := by decide
  field_spec := by decide
  fields_nodup := by decide

def layout : Layout where
  spaceOf address :=
    if address = 0 then .unmapped
    else if address < 1000 then .bumpPointer false
    else if address < 2000 then .bumpPointer true
    else if address < 3000 then .primaryFreeList
    else if address < 4000 then .nonMoving
    else .immune
  spaceOf_null := rfl

/-- The to-space takes one of the objects, the fallback space the other one. -/
def answer (stays falls obj : ℕ) : Space → Option ℕ
  | .bumpPointer true => if obj = stays then some 1000 else none
  | .nonMoving => if obj = falls then some 3000 else none
  | _ => none

theorem answer_cases {stays falls obj addr : ℕ} {space : Space}
    (h : answer stays falls obj space = some addr) :
    obj = stays ∧ space = .bumpPointer true ∧ addr = 1000 ∨
      obj = falls ∧ space = .nonMoving ∧ addr = 3000 := by
  unfold answer at h
  split at h
  · exact .inl (by simpa [eq_comm] using h)
  · exact .inr (by simpa [eq_comm] using h)
  · exact absurd h (some_ne_none addr).symm

def allocator (stays falls : ℕ) : Allocator layout where
  alloc := answer stays falls
  alloc_spec h := by
    obtain ⟨-, rfl, rfl⟩ | ⟨-, rfl, rfl⟩ := answer_cases h <;> exact ⟨rfl, rfl, by decide⟩
  alloc_injective h h' := by
    obtain ⟨rfl, rfl, rfl⟩ | ⟨rfl, rfl, rfl⟩ := answer_cases h <;>
      obtain ⟨rfl, heq, -⟩ | ⟨rfl, heq, -⟩ := answer_cases h' <;> first | rfl | cases heq

def collector (stays falls : ℕ) : SemiSpace where
  layout := layout
  allocator := allocator stays falls
  wordSize := .bits64
  fromSpace := .bumpPointer false
  toSpace := .bumpPointer true
  promoDestSpace := .primaryFreeList
  fallbackSpace := .nonMoving
  generational := false
  collectFromSpaceOnly := false
  usesAgingTable := false
  thresholdAge := 0
  forceCopyAll := false
  to_ne_from := by decide
  promo_ne_from := Space.primaryFreeList_ne_bumpPointer false
  promo_ne_to := Space.primaryFreeList_ne_bumpPointer true
  promo_hasBitmap := Space.hasBitmap_primaryFreeList
  fallback_ne_from := by decide
  fallback_ne_to := by decide
  fallback_hasBitmap := rfl
  from_ne_unmapped := by decide
  to_ne_unmapped := by decide

/-- The method is on the stack of a thread, so that its declaring class is a root. -/
def startHeap : Heap where
  allocated := {8, 24}
  object address := if address = 8 then first else second
  rootCells _ := 8
  liveBits _ := false
  markBits _ := false
  dirtyCards _ := false
  ages _ := 0
  delayed := []

def markStack : MarkStack ℕ := .empty

theorem wellFormed : (collector 8 24).WellFormed startHeap [0] where
  fields := by decide
  natives := by decide
  roots := by decide
  notInToSpace := by decide
  notForwarded := by decide
  unmarked := by decide
  hasMarkBit := by decide
  noReferent := by decide
  free h := by
    obtain ⟨-, -, rfl⟩ | ⟨-, -, rfl⟩ := answer_cases h <;> decide

theorem hasRoom : (collector 8 24).HasRoom startHeap [0] := by
  intro obj hobj _ hfalls
  have hmem : obj ∈ ({8, 24} : Finset ℕ) := hobj.mem wellFormed
  obtain rfl | rfl : obj = 8 ∨ obj = 24 := by simpa using hmem
  · exact absurd hfalls.1 (some_ne_none 1000)
  · exact some_ne_none 3000

/-- All cells refer to the class, which stays in the bump pointer spaces. -/
theorem marksQuietly : (collector 8 24).MarksQuietly startHeap [0] :=
  fun _ _ _ _ _ => .inr fun _ hfalls => absurd hfalls.1 (some_ne_none 1000)

set_option maxRecDepth 20000 in
/-- When the class is scanned, the declaring class of its method is taken for an unmarked object
and pushed again; the second scan finds the reference of the static field into the to-space. -/
theorem collect_classFallsBack (fuel : ℕ) :
    (collector 24 8).collect (fuel + 5) markStack [((0 : ℕ), [0])] [] startHeap =
      some (.error .checkFailed) := rfl

end TwoObjects

/-- The class fits into the to-space; the cell of the method is visited as a root of the thread
and again when the class is scanned, and the object falls back. -/
theorem twoObjects_classStays :
    (TwoObjects.collector 8 24).PreservesGraph TwoObjects.markStack [((0 : ℕ), [0])] []
      TwoObjects.startHeap :=
  (preservesGraph_iff (TwoObjects.collector 8 24) TwoObjects.markStack [(0, [0])] []
    TwoObjects.startHeap rfl (by decide) TwoObjects.wellFormed TwoObjects.hasRoom
    TwoObjects.marksQuietly).mpr ⟨by decide, trivial⟩

/-- The class has to go to the fallback space: the cell of the method is visited again, the
class is scanned twice, and the collection fails. -/
theorem twoObjects_classFallsBack :
    ¬ (TwoObjects.collector 24 8).PreservesGraph TwoObjects.markStack [((0 : ℕ), [0])] []
      TwoObjects.startHeap := by
  rintro ⟨bound, hall⟩
  obtain ⟨last, image, hcollect, -⟩ := hall (bound + 5) (Nat.le_add_right ..)
  rw [TwoObjects.collect_classFallsBack] at hcollect
  exact absurd hcollect (by simp)

end SemiSpace

end NougatArt.Gc
