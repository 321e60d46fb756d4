import NougatArt.Gc.MarkStacks
import NougatArt.Gc.Objects

/-!
# The sequential semi-space collector

Marking copies an object out of the from-space, to the promotion space when it
is old enough, else to the to-space, and to the fallback space when there is no
room; the forwarding address in the lock word of the old copy tells later visits
where the object is. Objects outside the from-space are marked in a bitmap when
the whole heap is collected. What the spaces answer when they are asked for
memory is given.
-/

namespace NougatArt.Gc

open Function

/-- The spaces of the heap. A space without a bitmap here is a bump pointer space
or the large object space, whose bitmap is looked up separately. -/
inductive Space
  | unmapped
  | bumpPointer (second : Bool)
  | primaryFreeList
  | nonMoving
  | largeObject
  | immune
  deriving DecidableEq, Repr

/-- Whether the heap bitmap finds a continuous space bitmap for the space. -/
def Space.hasBitmap : Space → Bool
  | .primaryFreeList | .nonMoving | .immune => true
  | .unmapped | .bumpPointer _ | .largeObject => false

theorem Space.hasBitmap_primaryFreeList : Space.primaryFreeList.hasBitmap = true := rfl

theorem Space.primaryFreeList_ne_bumpPointer (second : Bool) :
    Space.primaryFreeList ≠ .bumpPointer second := nofun

structure Heap where
  allocated : Finset ℕ
  object : ℕ → Object
  /-- The references outside of the collected objects, native roots among them, by the number
  of their cell. -/
  rootCells : ℕ → ℕ
  liveBits : ℕ → Bool
  markBits : ℕ → Bool
  dirtyCards : ℕ → Bool
  /-- The aging tables of the two bump pointer spaces. -/
  ages : ℕ → ℕ
  /-- The references whose referents wait for the reference processor. -/
  delayed : List ℕ

structure Layout where
  spaceOf : ℕ → Space
  spaceOf_null : spaceOf 0 = .unmapped

/-- The answers of `AllocThreadUnsafe` to the requests of one collection. A space is asked for
memory for an object once at most, when the object has no copy yet, so that a request is known
by the object and the space. -/
structure Allocator (layout : Layout) where
  alloc : ℕ → Space → Option ℕ
  alloc_spec : ∀ {obj space address}, alloc obj space = some address →
    layout.spaceOf address = space ∧ IsObjectAddress address
  alloc_injective : ∀ {obj other space address}, alloc obj space = some address →
    alloc other space = some address → obj = other

def kCardSize : ℕ := 128

def cardOf (address : ℕ) : ℕ := address / kCardSize

namespace Heap

variable (heap : Heap)

def writeBarrierEveryFieldOf (address : ℕ) : Heap :=
  { heap with dirtyCards := update heap.dirtyCards (cardOf address) true }

def putObject (address : ℕ) (object : Object) : Heap :=
  { heap with object := update heap.object address object }

def fieldAt (address offset : ℕ) : ℕ := (heap.object address).refAt offset

/-- `HeapReference::Assign` to a field of an object. -/
def assign (address offset ref : ℕ) : Heap :=
  heap.putObject address ((heap.object address).setRef offset ref)

/-- `SetLockWord` with a forwarding address. -/
def forward (address target : ℕ) : Heap :=
  heap.putObject address ((heap.object address).setLockWord (fromForwardingAddress target))

/-- `GetForwardingAddressInFromSpace`. -/
def forwardingAddressOf (address : ℕ) : Option ℕ := forwardingAddress (heap.object address).lockWord

def setMarkBit (address : ℕ) : Heap := { heap with markBits := update heap.markBits address true }

/-- The heap after a request for a copy of an object that has been granted; the
memory is zeroed. -/
def granted (address : ℕ) (source : Object) : Heap := { heap with
    allocated := insert address heap.allocated
    object := update heap.object address source.blank }

/-- `IncreaseObjectAge`; nothing is done for the null reference. -/
def increaseObjectAge (placed : Option ℕ) (oldAge : ℕ) : Heap :=
  match placed with
  | none => heap
  | some address => { heap with ages := update heap.ages address ((oldAge + 1) % 256) }

end Heap

/-- The members of the collector that a collection does not change. -/
structure SemiSpace where
  layout : Layout
  allocator : Allocator layout
  wordSize : WordSize
  fromSpace : Space
  toSpace : Space
  promoDestSpace : Space
  fallbackSpace : Space
  generational : Bool
  collectFromSpaceOnly : Bool
  /-- `need_aging_table_ && swap_semi_spaces_`. -/
  usesAgingTable : Bool
  thresholdAge : ℕ
  forceCopyAll : Bool
  to_ne_from : toSpace ≠ fromSpace
  promo_ne_from : promoDestSpace ≠ fromSpace
  promo_ne_to : promoDestSpace ≠ toSpace
  promo_hasBitmap : promoDestSpace.hasBitmap = true
  fallback_ne_from : fallbackSpace ≠ fromSpace
  fallback_ne_to : fallbackSpace ≠ toSpace
  fallback_hasBitmap : fallbackSpace.hasBitmap = true
  from_ne_unmapped : fromSpace ≠ .unmapped
  to_ne_unmapped : toSpace ≠ .unmapped

namespace SemiSpace

variable (ss : SemiSpace)

def inFromSpace (address : ℕ) : Bool := decide (ss.layout.spaceOf address = ss.fromSpace)

def inToSpace (address : ℕ) : Bool := decide (ss.layout.spaceOf address = ss.toSpace)

/-- Sets the live bit of an object. `BindBitmaps` has made the mark bitmap of the
to-space its live bitmap, and those of all spaces when the rest of the heap is
not collected. -/
def setLiveBit (address : ℕ) (heap : Heap) : Heap :=
  let heap := { heap with liveBits := update heap.liveBits address true }
  if ss.collectFromSpaceOnly || ss.inToSpace address then heap.setMarkBit address else heap

def allocate (space : Space) (obj : ℕ) (heap : Heap) : Option ℕ × Heap :=
  match ss.allocator.alloc obj space with
  | none => (none, heap)
  | some address => (some address, heap.granted address (heap.object obj))

def ageOf (obj : ℕ) (heap : Heap) : ℕ := if ss.usesAgingTable then heap.ages obj else 0

def recordPromoted (address : ℕ) (heap : Heap) : Heap :=
  let heap := heap.writeBarrierEveryFieldOf address
  -- A collection of the bump pointer spaces delays the live bit until the object is popped.
  if ss.collectFromSpaceOnly then heap else (ss.setLiveBit address heap).setMarkBit address

/-- The old objects: moved to the promotion space, else to the to-space. -/
def promote (obj : ℕ) (heap : Heap) : Option ℕ × Heap :=
  match ss.allocate ss.promoDestSpace obj heap with
  | (some address, heap₁) => (some address, ss.recordPromoted address heap₁)
  | (none, heap₁) =>
    match ss.allocate ss.toSpace obj heap₁ with
    | (placed, heap₂) =>
      (placed, if ss.usesAgingTable then heap₂.increaseObjectAge placed (ss.ageOf obj heap)
        else heap₂)

/-- The young objects: copied to the to-space. -/
def copyYoung (obj : ℕ) (heap : Heap) : Option ℕ × Heap :=
  match ss.allocate ss.toSpace obj heap with
  | (none, heap₁) => (none, heap₁)
  | (some address, heap₁) =>
    let heap₂ := if ss.usesAgingTable then
      heap₁.increaseObjectAge (some address) (ss.ageOf obj heap) else heap₁
    (some address, if ss.toSpace.hasBitmap then ss.setLiveBit address heap₂ else heap₂)

/-- The fallback space takes what nothing else took. -/
def fallBack (obj : ℕ) (heap : Heap) : Except Fault (ℕ × Heap) :=
  match ss.allocate ss.fallbackSpace obj heap with
  | (none, _) => .error .checkFailed
  | (some address, heap₁) => .ok (address, ss.setLiveBit address heap₁)

def isPromoted (obj : ℕ) (heap : Heap) : Bool :=
  ss.generational && (decide (ss.thresholdAge ≤ ss.ageOf obj heap) || ss.forceCopyAll)

def markNonForwardedObject (obj : ℕ) (heap : Heap) : Except Fault (ℕ × Heap) := do
  let tried := if ss.isPromoted obj heap then ss.promote obj heap else ss.copyYoung obj heap
  let placed ← match tried with
    | (some address, heap₁) => Except.ok (address, heap₁)
    | (none, heap₁) => ss.fallBack obj heap₁
  return (placed.1, placed.2.putObject placed.1 ((heap.object obj).copied ss.wordSize placed.1))

/-- `HeapBitmap::Set` on the mark bitmap, with the previous bit. -/
def markBitmapSet (obj : ℕ) (heap : Heap) : Except Fault (Bool × Heap) :=
  if (ss.layout.spaceOf obj).hasBitmap then .ok (heap.markBits obj, heap.setMarkBit obj)
  -- The checks of `BitmapSetSlowPathVisitor`, then the search for a large object.
  else if ss.inToSpace obj || decide (obj % kPageSize ≠ 0) then .error .checkFailed
  else if ss.layout.spaceOf obj = .largeObject then
    .ok (heap.markBits obj, heap.setMarkBit obj)
  else .error .checkFailed

/-- Whether an object outside the from-space is marked in a bitmap. -/
def isMarkedInBitmap (obj : ℕ) : Bool :=
  !ss.collectFromSpaceOnly && decide (ss.layout.spaceOf obj ≠ .immune)

/-- `MarkObject`: the new value of the reference, what is pushed on the mark stack. -/
def markObject (ref : ℕ) (heap : Heap) : Except Fault (ℕ × List ℕ × Heap) :=
  if ref = 0 then .ok (ref, [], heap)
  else if ss.inFromSpace ref then
    match heap.forwardingAddressOf ref with
    | some address => .ok (address, [], heap)
    | none => do
      let copied ← ss.markNonForwardedObject ref heap
      -- The lock word has been copied before it is overwritten.
      return (copied.1, [copied.1], copied.2.forward ref copied.1)
  else if ss.isMarkedInBitmap ref then do
    let found ← ss.markBitmapSet ref heap
    return (ref, if found.1 then [] else [ref], found.2)
  else .ok (ref, [], heap)

def markObjectIfNotInToSpace (ref : ℕ) (heap : Heap) : Except Fault (ℕ × List ℕ × Heap) :=
  if ss.inToSpace ref then .ok (ref, [], heap) else ss.markObject ref heap

/-- `IsMarked`: where a marked object is. -/
def isMarked (obj : ℕ) (heap : Heap) : Option ℕ :=
  if ss.inFromSpace obj then heap.forwardingAddressOf obj
  else if ss.collectFromSpaceOnly || decide (ss.layout.spaceOf obj = .immune) ||
      ss.inToSpace obj then some obj
  else if heap.markBits obj then some obj
  else none

/-- `DelayReferenceReferent` for a reference whose referent is at an offset. -/
def delayReferenceReferent (obj offset : ℕ) (heap : Heap) : Heap :=
  if heap.fieldAt obj offset = 0 then heap
  else
    match ss.isMarked (heap.fieldAt obj offset) heap with
    | some marked => heap.assign obj offset marked
    | none => { heap with delayed := obj :: heap.delayed }

/-- Marks what the fields of an object at some offsets refer to. -/
def visitReferences (obj : ℕ) : List ℕ → Heap → Except Fault (List ℕ × Heap)
  | [], heap => .ok ([], heap)
  | offset :: offsets, heap => do
    let marked ← ss.markObject (heap.fieldAt obj offset) heap
    let rest ← visitReferences obj offsets (marked.2.2.assign obj offset marked.1)
    return (marked.2.1 ++ rest.1, rest.2)

/-- One round of the loop in `VisitRoots`. -/
def visitRoot (cell : ℕ) (heap : Heap) : Except Fault (List ℕ × Heap) := do
  let marked ← ss.markObjectIfNotInToSpace (heap.rootCells cell) heap
  return (marked.2.1, { marked.2.2 with rootCells := update marked.2.2.rootCells cell marked.1 })

def visitRootCells : List ℕ → Heap → Except Fault (List ℕ × Heap)
  | [], heap => .ok ([], heap)
  | cell :: cells, heap => do
    let first ← ss.visitRoot cell heap
    let rest ← visitRootCells cells first.2
    return (first.1 ++ rest.1, rest.2)

/-- The fields of the object, then its native roots; what a native root refers to may be in the
to-space already, as for the other roots. -/
def scanObject (obj : ℕ) (heap : Heap) : Except Fault (List ℕ × Heap) := do
  let visited ← ss.visitReferences obj (heap.object obj).refOffsets heap
  let natives ← ss.visitRootCells (heap.object obj).nativeRoots visited.2
  return (visited.1 ++ natives.1,
    match (heap.object obj).referentOffset with
    | none => natives.2
    | some offset => ss.delayReferenceReferent obj offset natives.2)

variable {Thread : Type} [LinearOrder Thread]

/-- The loop of `MarkThreadRoots` over the threads and the cells each of them visits. -/
def markThreadRoots (markStackCapacity : ℕ) : List (Thread × List ℕ) → RootStacks Thread ℕ → Heap →
    Except Fault (RootStacks Thread ℕ × Heap)
  | [], rootStacks, heap => .ok (rootStacks, heap)
  | (thread, cells) :: threads, rootStacks, heap => do
    let visited ← ss.visitRootCells cells heap
    let rootStacks' ← markRootsOf markStackCapacity (fun _ => visited.1) rootStacks thread
    markThreadRoots markStackCapacity threads rootStacks' visited.2

/-- `MarkRoots`: the roots of the threads, then all others. -/
def markRoots (markStack : MarkStack ℕ) (threads : List (Thread × List ℕ)) (others : List ℕ)
    (heap : Heap) : Except Fault (RootStacks Thread ℕ × MarkStack ℕ × Heap) := do
  let marked ← ss.markThreadRoots markStack.capacity threads [] heap
  let visited ← ss.visitRootCells others marked.2
  return (marked.1, visited.1.foldl MarkStack.push markStack, visited.2)

/-- What is done with an object that is popped off the mark stack. -/
def popped (obj : ℕ) (heap : Heap) : Heap :=
  if ss.collectFromSpaceOnly && decide (ss.layout.spaceOf obj = ss.promoDestSpace) then
    ss.setLiveBit obj heap
  else heap

/-- The loop of `ProcessMarkStack`; `none` when the fuel is used up. -/
def processLoop : ℕ → MarkStack ℕ → List ℕ → Heap → Option (Except Fault Heap)
  | 0, _, _, _ => none
  | fuel + 1, markStack, fifo, heap =>
    match (refill (kFifoSize - fifo.length) markStack.objects fifo).2 with
    | [] => some (.ok heap)
    | obj :: rest =>
      match ss.scanObject obj (ss.popped obj heap) with
      | .error fault => some (.error fault)
      | .ok found => processLoop fuel (found.1.foldl MarkStack.push (markStack.refilled fifo)) rest
          found.2

/-- `ProcessMarkStack` without the thread pool. -/
def processMarkStack (fuel : ℕ) (rootStacks : RootStacks Thread ℕ) (markStack : MarkStack ℕ)
    (heap : Heap) : Option (Except Fault Heap) :=
  ss.processLoop fuel (markStack.pushThreadRoots rootStacks) [] heap

/-- Marking from the roots alone: `MarkRoots`, then `ProcessMarkStack`. -/
def collect (fuel : ℕ) (markStack : MarkStack ℕ) (threads : List (Thread × List ℕ))
    (others : List ℕ) (heap : Heap) : Option (Except Fault Heap) :=
  match ss.markRoots markStack threads others heap with
  | .error fault => some (.error fault)
  | .ok (rootStacks, markStack', heap') => ss.processMarkStack fuel rootStacks markStack' heap'

end SemiSpace

end NougatArt.Gc
