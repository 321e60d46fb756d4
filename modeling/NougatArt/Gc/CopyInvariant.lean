import NougatArt.Gc.SemiSpaceSteps

/-!
# The heap during a sequential collection

The heap is compared with the heap before the collection. Objects of the
from-space keep everything but their lock words. An object that has been marked
has an image; the fields of the image that were visited hold images, the others
still hold what they held before.
-/

namespace NougatArt.Gc

open Option Finset Bool

namespace SemiSpace

variable (ss : SemiSpace)

def isTraced (ref : ℕ) : Bool :=
  decide (ref ≠ 0) && (ss.inFromSpace ref || ss.isMarkedInBitmap ref)

/-- What a reference has to become, as soon as its object has been marked. -/
def image (heap : Heap) (ref : ℕ) : Option ℕ :=
  if ss.inFromSpace ref then heap.forwardingAddressOf ref
  else if ss.isTraced ref && !heap.markBits ref then none
  else some ref

/-- A heap at the start of a collection, with the root cells that will be visited. -/
structure WellFormed (heap : Heap) (cells : List ℕ) : Prop where
  fields : ∀ obj ∈ heap.allocated, ss.isTraced obj = true →
    ∀ offset ∈ (heap.object obj).refOffsets, ss.isTraced (heap.fieldAt obj offset) = true →
      heap.fieldAt obj offset ∈ heap.allocated
  natives : ∀ obj ∈ heap.allocated, ss.isTraced obj = true →
    ∀ cell ∈ (heap.object obj).nativeRoots, ss.isTraced (heap.rootCells cell) = true →
      heap.rootCells cell ∈ heap.allocated
  roots : ∀ cell ∈ cells, ss.isTraced (heap.rootCells cell) = true →
    heap.rootCells cell ∈ heap.allocated
  notInToSpace : ∀ obj ∈ heap.allocated, ss.inToSpace obj = false
  notForwarded : ∀ obj ∈ heap.allocated, ss.inFromSpace obj = true →
    heap.forwardingAddressOf obj = none
  unmarked : ∀ obj ∈ heap.allocated, ss.isMarkedInBitmap obj = true → heap.markBits obj = false
  hasMarkBit : ∀ obj ∈ heap.allocated, ss.isMarkedInBitmap obj = true →
    ss.inFromSpace obj = false → (ss.layout.spaceOf obj).hasBitmap = true ∨
      ss.layout.spaceOf obj = .largeObject ∧ obj % kPageSize = 0
  noReferent : ∀ obj ∈ heap.allocated, (heap.object obj).referentOffset = none
  free : ∀ {obj space address}, ss.allocator.alloc obj space = some address →
    address ∉ heap.allocated

inductive Reachable (heap : Heap) (cells : List ℕ) : ℕ → Prop
  | root {cell : ℕ} (hcell : cell ∈ cells) (htraced : ss.isTraced (heap.rootCells cell) = true) :
      Reachable heap cells (heap.rootCells cell)
  | field {obj offset : ℕ} (hobj : Reachable heap cells obj)
      (hoffset : offset ∈ (heap.object obj).refOffsets)
      (htraced : ss.isTraced (heap.fieldAt obj offset) = true) :
      Reachable heap cells (heap.fieldAt obj offset)
  | native {obj cell : ℕ} (hobj : Reachable heap cells obj)
      (hcell : cell ∈ (heap.object obj).nativeRoots)
      (htraced : ss.isTraced (heap.rootCells cell) = true) :
      Reachable heap cells (heap.rootCells cell)

/-- The fallback space takes what the other spaces refuse. -/
def HasRoom (start : Heap) (cells : List ℕ) : Prop :=
  ∀ obj, ss.Reachable start cells obj → ss.inFromSpace obj = true → ss.FallsBack obj start →
    ss.allocator.alloc obj ss.fallbackSpace ≠ none

def reached (start heap : Heap) : Finset ℕ :=
  start.allocated.filter fun obj => ss.isTraced obj = true ∧ (ss.image heap obj).isSome = true

/-- A reference that can occur in the heap before the collection. -/
def Valid (start : Heap) (ref : ℕ) : Prop := ss.isTraced ref = true → ref ∈ start.allocated

structure Forwarding (start heap : Heap) : Prop where
  start_subset : start.allocated ⊆ heap.allocated
  fromSpace : ∀ obj ∈ start.allocated, ss.inFromSpace obj = true →
    heap.object obj = start.object obj ∨ ∃ address, IsObjectAddress address ∧
      address ∈ heap.allocated ∧ address ∉ start.allocated ∧ ss.inFromSpace address = false ∧
      heap.object obj = (start.object obj).setLockWord (fromForwardingAddress address)
  injective : ∀ obj ∈ start.allocated, ss.inFromSpace obj = true →
    ∀ other ∈ start.allocated, ss.inFromSpace other = true →
    ∀ address, heap.forwardingAddressOf obj = some address →
      heap.forwardingAddressOf other = some address → obj = other
  copies : ∀ address ∈ heap.allocated, address ∉ start.allocated →
    ∃ obj ∈ start.allocated, ss.inFromSpace obj = true ∧
      heap.forwardingAddressOf obj = some address ∧
      ss.allocator.alloc obj (ss.layout.spaceOf address) = some address
  ages_eq : ∀ obj ∈ start.allocated, heap.ages obj = start.ages obj
  copies_marked : ss.collectFromSpaceOnly = false →
    ∀ obj ∈ start.allocated, ss.inFromSpace obj = true → ¬ ss.FallsBack obj start →
    ∀ address, heap.forwardingAddressOf obj = some address → ss.inToSpace address = true ∨
        ss.layout.spaceOf address = ss.promoDestSpace ∧ heap.markBits address = true

/-- An object and its image of which some fields wait to be visited. -/
structure Updated (heap : Heap) (old new : Object) (waits : ℕ → Prop) : Prop where
  refOffsets_eq : new.refOffsets = old.refOffsets
  referentOffset_eq : new.referentOffset = old.referentOffset
  nativeRoots_eq : new.nativeRoots = old.nativeRoots
  length_eq : new.bytes.length = old.bytes.length
  byte_eq : ∀ index, (∀ offset ∈ old.refOffsets, index < offset ∨ offset + 4 ≤ index) →
    new.bytes.getD index 0 = old.bytes.getD index 0
  waiting : ∀ offset ∈ old.refOffsets, waits offset → new.refAt offset = old.refAt offset
  visited : ∀ offset ∈ old.refOffsets, ¬ waits offset →
    ss.image heap (old.refAt offset) = some (new.refAt offset)

/-- The marked objects: those on the mark stacks are as they were before, of the
current one some fields have been visited, the others are finished. -/
structure Tracing (start : Heap) (cells : List ℕ) (heap : Heap) (gray : Multiset ℕ)
    (current : ℕ) (offsets : List ℕ) : Prop where
  content : ∀ obj ∈ start.allocated, ss.isTraced obj = true →
    ∀ address, ss.image heap obj = some address →
      ss.Updated heap (start.object obj) (heap.object address)
        fun offset => address ∈ gray ∨ address = current ∧ offset ∈ offsets
  untouched : ∀ obj ∈ start.allocated, ss.inFromSpace obj = false →
    ss.image heap obj = none → heap.object obj = start.object obj
  reachable : ∀ obj ∈ ss.reached start heap, ss.Reachable start cells obj
  gray_nodup : gray.Nodup
  gray_reached : ∀ address ∈ gray, ∃ obj ∈ start.allocated, ss.isTraced obj = true ∧
    ss.image heap obj = some address

variable {ss}

section Images

variable {start heap heap' : Heap} {cells : List ℕ} {obj ref addr : ℕ}

theorem isTraced_of_inFromSpace (hfrom : ss.inFromSpace ref) : ss.isTraced ref := by
  have hne : ref ≠ 0 := by
    rintro rfl
    rw [not_from_null] at hfrom
    exact false_ne_true hfrom
  rw [isTraced, hfrom, Bool.true_or, Bool.and_true]
  exact decide_eq_true hne

theorem isTraced_eq_of_not_from (hne : ref ≠ 0) (hfrom : ss.inFromSpace ref = false) :
    ss.isTraced ref = ss.isMarkedInBitmap ref := by
  rw [isTraced, hfrom, Bool.false_or, decide_eq_true hne, Bool.true_and]

theorem image_of_from (hfrom : ss.inFromSpace ref) :
    ss.image heap ref = heap.forwardingAddressOf ref := by
  rw [image, if_pos hfrom]

theorem image_of_not_traced (htraced : ss.isTraced ref = false) : ss.image heap ref = some ref := by
  have hfrom : ¬ ss.inFromSpace ref = true := fun hfrom => by
    rw [isTraced_of_inFromSpace hfrom] at htraced
    exact false_ne_true htraced.symm
  rw [image, if_neg hfrom, htraced, Bool.false_and, if_neg Bool.false_ne_true]

theorem image_of_traced (hfrom : ss.inFromSpace ref = false) (htraced : ss.isTraced ref) :
    ss.image heap ref = if heap.markBits ref then some ref else none := by
  rw [image, if_neg (Bool.eq_false_iff.mp hfrom), htraced, Bool.true_and]
  cases heap.markBits ref <;> rfl

theorem image_eq_self (hfrom : ss.inFromSpace ref = false)
    (himage : ss.image heap ref = some addr) : addr = ref := by
  rw [image, if_neg (eq_false_iff.mp hfrom)] at himage
  split at himage
  · exact absurd himage (some_ne_none addr).symm
  · exact (some.inj himage).symm

theorem mem_reached : obj ∈ ss.reached start heap ↔
    obj ∈ start.allocated ∧ ss.isTraced obj ∧ (ss.image heap obj).isSome :=
  mem_filter

theorem Reachable.traced (h : ss.Reachable start cells obj) : ss.isTraced obj := by
  cases h with
  | root _ htraced | field _ _ htraced | native _ _ htraced => exact htraced

theorem Reachable.mem (h : ss.Reachable start cells obj)
    (hstart : ss.WellFormed start cells) : obj ∈ start.allocated := by
  induction h with
  | root hcell htraced => exact hstart.roots _ hcell htraced
  | field hobj hoff htraced ih => exact hstart.fields _ ih hobj.traced _ hoff htraced
  | native hobj hcell htraced ih => exact hstart.natives _ ih hobj.traced _ hcell htraced

end Images

namespace Forwarding

variable {start heap : Heap} {cells : List ℕ} {obj ref addr : ℕ}

theorem initial (hstart : ss.WellFormed start cells) : ss.Forwarding start start where
  start_subset := Finset.Subset.refl _
  fromSpace obj _ _ := .inl rfl
  injective obj hobj hfrom _ _ _ addr haddr := by
    rw [hstart.notForwarded obj hobj hfrom] at haddr
    exact absurd haddr (some_ne_none addr).symm
  copies _ hmem hnew := absurd hmem hnew
  ages_eq _ _ := rfl
  copies_marked _ obj hobj hfrom _ addr haddr := by
    rw [hstart.notForwarded obj hobj hfrom] at haddr
    exact absurd haddr (some_ne_none addr).symm

section

variable (h : ss.Forwarding start heap)

include h

/-- The forwarding address of an object is the address of a new object. -/
theorem copy_of_forwarded (hstart : ss.WellFormed start cells)
    (hobj : obj ∈ start.allocated) (hfrom : ss.inFromSpace obj)
    (hfwd : heap.forwardingAddressOf obj = some addr) :
    IsObjectAddress addr ∧ addr ∈ heap.allocated ∧ addr ∉ start.allocated ∧
      ss.inFromSpace addr = false := by
  obtain hsame | ⟨found, hfound, hmem, hnew, hspace, hobject⟩ := h.fromSpace obj hobj hfrom
  · have hnone := hstart.notForwarded obj hobj hfrom
    rw [Heap.forwardingAddressOf] at hfwd hnone
    rw [hsame, hnone] at hfwd
    exact absurd hfwd (some_ne_none addr).symm
  · rw [Heap.forwardingAddressOf, hobject,
      Object.lockWord_setLockWord _ (fromForwardingAddress_lt hfound),
      forwardingAddress_fromForwardingAddress hfound] at hfwd
    cases hfwd
    exact ⟨hfound, hmem, hnew, hspace⟩

theorem object_eq_of_not_forwarded (hobj : obj ∈ start.allocated)
    (hfrom : ss.inFromSpace obj) (hnone : heap.forwardingAddressOf obj = none) :
    heap.object obj = start.object obj := by
  obtain hsame | ⟨found, hfound, -, -, -, hobject⟩ := h.fromSpace obj hobj hfrom
  · exact hsame
  · rw [Heap.forwardingAddressOf, hobject,
      Object.lockWord_setLockWord _ (fromForwardingAddress_lt hfound),
      forwardingAddress_fromForwardingAddress hfound] at hnone
    exact absurd hnone (some_ne_none found)

/-- The image of an object is a new object, or the object itself. -/
theorem image_cases (hstart : ss.WellFormed start cells)
    (hobj : obj ∈ start.allocated) (himage : ss.image heap obj = some addr) :
    addr ∈ heap.allocated ∧ ss.inFromSpace addr = false ∧
      (ss.inFromSpace obj ∧ addr ∉ start.allocated ∨ ss.inFromSpace obj = false ∧ addr = obj) := by
  cases hfrom : ss.inFromSpace obj with
  | true =>
    rw [image_of_from hfrom] at himage
    obtain ⟨-, hmem, hnew, hspace⟩ := h.copy_of_forwarded hstart hobj hfrom himage
    exact ⟨hmem, hspace, .inl ⟨rfl, hnew⟩⟩
  | false =>
    obtain rfl := image_eq_self hfrom himage
    exact ⟨h.start_subset hobj, hfrom, .inr ⟨rfl, rfl⟩⟩

theorem image_injective (hstart : ss.WellFormed start cells)
    {other : ℕ} (hobj : obj ∈ start.allocated) (hother : other ∈ start.allocated)
    (himage : ss.image heap obj = some addr) (himage' : ss.image heap other = some addr) :
    obj = other := by
  obtain ⟨-, -, ⟨hfrom, hnew⟩ | ⟨hfrom, rfl⟩⟩ := h.image_cases hstart hobj himage
  · obtain ⟨-, -, ⟨hfrom', -⟩ | ⟨-, rfl⟩⟩ := h.image_cases hstart hother himage'
    · rw [image_of_from hfrom] at himage
      rw [image_of_from hfrom'] at himage'
      exact h.injective obj hobj hfrom _ hother hfrom' _ himage himage'
    · exact absurd hother hnew
  · obtain ⟨-, -, ⟨-, hnew⟩ | ⟨-, rfl⟩⟩ := h.image_cases hstart hother himage'
    · exact absurd hobj hnew
    · rfl

theorem fallsBack_iff (hobj : obj ∈ start.allocated) :
    ss.FallsBack obj heap ↔ ss.FallsBack obj start := by
  have hage : ss.ageOf obj heap = ss.ageOf obj start := by
    rw [ageOf, h.ages_eq obj hobj, ageOf]
  rw [FallsBack, FallsBack, isPromoted, hage, isPromoted]

/-- An address that is granted for an object without a copy is not in use. -/
theorem fresh_of_alloc (hstart : ss.WellFormed start cells)
    (hnone : heap.forwardingAddressOf obj = none)
    (halloc : ss.allocator.alloc obj (ss.layout.spaceOf addr) = some addr) :
    addr ∉ heap.allocated := fun hmem => by
  obtain ⟨other, -, -, hfwd, hother⟩ := h.copies addr hmem (hstart.free halloc)
  obtain rfl := ss.allocator.alloc_injective halloc hother
  exact absurd (hnone.symm.trans hfwd) (some_ne_none addr).symm

end

end Forwarding

end SemiSpace

end NougatArt.Gc
