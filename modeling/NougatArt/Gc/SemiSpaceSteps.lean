import NougatArt.Gc.SemiSpace

/-!
# What one copy can do

The three places of a copy, with the bookkeeping that goes with each of them.
-/

namespace NougatArt.Gc

open Function Object

namespace Heap

variable (heap : Heap) {addr other off ref t : ℕ} {object : Object}

@[simp] theorem object_putObject_self : (heap.putObject addr object).object addr = object :=
  update_self ..

theorem object_putObject_of_ne (hne : other ≠ addr) :
    (heap.putObject addr object).object other = heap.object other :=
  update_of_ne hne ..

@[simp] theorem object_assign_self :
    (heap.assign addr off ref).object addr = (heap.object addr).setRef off ref :=
  heap.object_putObject_self

theorem object_assign_of_ne (hne : other ≠ addr) :
    (heap.assign addr off ref).object other = heap.object other :=
  heap.object_putObject_of_ne hne

@[simp] theorem object_forward_self : (heap.forward addr t).object addr =
      (heap.object addr).setLockWord (fromForwardingAddress t) :=
  heap.object_putObject_self

theorem object_forward_of_ne (hne : other ≠ addr) :
    (heap.forward addr t).object other = heap.object other :=
  heap.object_putObject_of_ne hne

end Heap

namespace SemiSpace

variable (ss : SemiSpace)

variable {ss} in
theorem ne_of_from {ref obj : ℕ} (hfrom : ss.inFromSpace ref)
    (hnot : ss.inFromSpace obj = false) : ref ≠ obj := by
  rintro rfl
  exact Bool.false_ne_true (hnot.symm.trans hfrom)

/-- The promotion space and the to-space, as far as they are asked, refuse the object. -/
def FallsBack (obj : ℕ) (heap : Heap) : Prop :=
  ss.allocator.alloc obj ss.toSpace = none ∧
    (ss.isPromoted obj heap = true → ss.allocator.alloc obj ss.promoDestSpace = none)

structure Placed (obj : ℕ) (heap : Heap) (address : ℕ) (heap' : Heap) : Prop where
  granted : ss.allocator.alloc obj (ss.layout.spaceOf address) = some address
  allocated_eq : heap'.allocated = insert address heap.allocated
  object_eq : heap'.object = update heap.object address (heap.object obj)
  rootCells_eq : heap'.rootCells = heap.rootCells
  markBits_eq : ∀ other, other ≠ address → heap'.markBits other = heap.markBits other
  ages_eq : ∀ other, other ≠ address → heap'.ages other = heap.ages other

/-- Where `MarkNonForwardedObject` puts a copy. -/
inductive Outcome (obj : ℕ) (heap : Heap) (address : ℕ) (heap' : Heap) : Prop
  | promoted (hspace : ss.layout.spaceOf address = ss.promoDestSpace)
      (hmarked : ss.collectFromSpaceOnly = false → heap'.markBits address = true)
  | copied (hspace : ss.layout.spaceOf address = ss.toSpace)
  | fellBack (hspace : ss.layout.spaceOf address = ss.fallbackSpace)
      (hfalls : ss.FallsBack obj heap)

variable {ss}

theorem not_from_null : ss.inFromSpace 0 = false := by
  rw [inFromSpace, ss.layout.spaceOf_null, decide_eq_false_iff_not]
  exact ss.from_ne_unmapped.symm

theorem setLiveBit_markBits_of_ne {addr other : ℕ} (heap : Heap) (hne : other ≠ addr) :
    (ss.setLiveBit addr heap).markBits other = heap.markBits other := by
  rw [setLiveBit]
  split
  · exact update_of_ne hne ..
  · rfl

section Frame

variable (addr : ℕ) (heap : Heap)

@[simp] theorem setLiveBit_allocated :
    (ss.setLiveBit addr heap).allocated = heap.allocated := by rw [setLiveBit]; split <;> rfl

@[simp] theorem setLiveBit_object :
    (ss.setLiveBit addr heap).object = heap.object := by rw [setLiveBit]; split <;> rfl

@[simp] theorem setLiveBit_rootCells :
    (ss.setLiveBit addr heap).rootCells = heap.rootCells := by rw [setLiveBit]; split <;> rfl

@[simp] theorem setLiveBit_ages :
    (ss.setLiveBit addr heap).ages = heap.ages := by rw [setLiveBit]; split <;> rfl

end Frame

theorem allocate_cases (ss : SemiSpace) (space : Space) (obj : ℕ) (heap : Heap) :
    (ss.allocator.alloc obj space = none ∧ ss.allocate space obj heap = (none, heap)) ∨
    ∃ addr, ss.layout.spaceOf addr = space ∧ ss.allocator.alloc obj space = some addr ∧
      ss.allocate space obj heap = (some addr, heap.granted addr (heap.object obj)) := by
  rw [allocate]
  cases halloc : ss.allocator.alloc obj space with
  | none => exact .inl ⟨rfl, rfl⟩
  | some addr => exact .inr ⟨addr, (ss.allocator.alloc_spec halloc).1, rfl, rfl⟩

/-- Bookkeeping after a granted request that touches only what is kept for the copy. -/
structure Recorded (address : ℕ) (heap heap' : Heap) : Prop where
  allocated_eq : heap'.allocated = heap.allocated
  object_eq : heap'.object = heap.object
  rootCells_eq : heap'.rootCells = heap.rootCells
  markBits_eq : ∀ other, other ≠ address → heap'.markBits other = heap.markBits other
  ages_eq : ∀ other, other ≠ address → heap'.ages other = heap.ages other

theorem Recorded.refl (addr : ℕ) (heap : Heap) : Recorded addr heap heap :=
  ⟨rfl, rfl, rfl, fun _ _ => rfl, fun _ _ => rfl⟩

theorem Recorded.trans {addr : ℕ} {heap heap₁ heap₂ : Heap} (h : Recorded addr heap heap₁)
    (h' : Recorded addr heap₁ heap₂) : Recorded addr heap heap₂ where
  allocated_eq := h'.allocated_eq.trans h.allocated_eq
  object_eq := h'.object_eq.trans h.object_eq
  rootCells_eq := h'.rootCells_eq.trans h.rootCells_eq
  markBits_eq other hne := (h'.markBits_eq other hne).trans (h.markBits_eq other hne)
  ages_eq other hne := (h'.ages_eq other hne).trans (h.ages_eq other hne)

theorem Recorded.placed {obj addr : ℕ} {space : Space} {heap heap' : Heap}
    (h : Recorded addr (heap.granted addr (heap.object obj)) heap')
    (hspace : ss.layout.spaceOf addr = space) (halloc : ss.allocator.alloc obj space = some addr) :
    ss.Placed obj heap addr (heap'.putObject addr (heap.object obj)) := by
  refine ⟨by rw [hspace, halloc], h.allocated_eq, ?_, h.rootCells_eq, h.markBits_eq, h.ages_eq⟩
  rw [Heap.putObject, h.object_eq]
  exact update_idem ..

theorem recorded_setLiveBit (ss : SemiSpace) (addr : ℕ) (heap : Heap) :
    Recorded addr heap (ss.setLiveBit addr heap) where
  allocated_eq := setLiveBit_allocated ..
  object_eq := setLiveBit_object ..
  rootCells_eq := setLiveBit_rootCells ..
  markBits_eq _ hne := setLiveBit_markBits_of_ne _ hne
  ages_eq _ _ := by rw [setLiveBit_ages]

theorem recorded_setMarkBit (addr : ℕ) (heap : Heap) :
    Recorded addr heap (heap.setMarkBit addr) :=
  ⟨rfl, rfl, rfl, fun _ hne => update_of_ne hne .., fun _ _ => rfl⟩

theorem recorded_increaseObjectAge (addr oldAge : ℕ) (heap : Heap) :
    Recorded addr heap (heap.increaseObjectAge (some addr) oldAge) :=
  ⟨rfl, rfl, rfl, fun _ _ => rfl, fun _ hne => update_of_ne hne ..⟩

/-- A copy that the promotion space or the to-space has taken or refused, before
its bytes are copied. -/
def Tried (ss : SemiSpace) (obj : ℕ) (heap : Heap) : Option ℕ × Heap → Prop
  | (none, heap₁) => heap₁ = heap ∧ ss.FallsBack obj heap
  | (some address, heap₁) =>
    ss.Placed obj heap address (heap₁.putObject address (heap.object obj)) ∧
      ss.Outcome obj heap address (heap₁.putObject address (heap.object obj))

theorem promote_tried (obj : ℕ) (heap : Heap) : Tried ss obj heap (ss.promote obj heap) := by
  unfold promote
  obtain ⟨hrefused, hnone⟩ | ⟨addr, hspace, halloc, hsome⟩ :=
    ss.allocate_cases ss.promoDestSpace obj heap
  · simp only [hnone]
    obtain ⟨hrefused', hnone'⟩ | ⟨addr, hspace, halloc, hsome⟩ :=
      ss.allocate_cases ss.toSpace obj heap
    · simp only [hnone', Heap.increaseObjectAge, ite_self]
      exact ⟨rfl, hrefused', fun _ => hrefused⟩
    · simp only [hsome]
      split
      · exact ⟨(recorded_increaseObjectAge ..).placed hspace halloc, .copied hspace⟩
      · exact ⟨(Recorded.refl ..).placed hspace halloc, .copied hspace⟩
  · simp only [hsome, recordPromoted]
    split
    case isTrue hyoung =>
      refine ⟨Recorded.placed ⟨rfl, rfl, rfl, fun _ _ => rfl, fun _ _ => rfl⟩ hspace halloc,
        .promoted hspace fun hwhole => ?_⟩
      exact absurd hyoung (Bool.eq_false_iff.mp hwhole)
    case isFalse =>
      have hset := (ss.recorded_setLiveBit addr
        ((heap.granted addr (heap.object obj)).writeBarrierEveryFieldOf addr)).trans
          (recorded_setMarkBit ..)
      exact ⟨Recorded.placed ⟨hset.allocated_eq, hset.object_eq, hset.rootCells_eq,
        hset.markBits_eq, hset.ages_eq⟩ hspace halloc, .promoted hspace fun _ => update_self ..⟩

theorem copyYoung_tried {obj : ℕ} {heap : Heap} (hyoung : ss.isPromoted obj heap = false) :
    Tried ss obj heap (ss.copyYoung obj heap) := by
  unfold copyYoung
  obtain ⟨hrefused, hnone⟩ | ⟨addr, hspace, halloc, hsome⟩ :=
    ss.allocate_cases ss.toSpace obj heap
  · simp only [hnone]
    exact ⟨rfl, hrefused, fun hold => absurd hold (Bool.eq_false_iff.mp hyoung)⟩
  simp only [hsome]
  generalize haged : (if ss.usesAgingTable = true then
    (heap.granted addr (heap.object obj)).increaseObjectAge (some addr) (ss.ageOf obj heap)
    else heap.granted addr (heap.object obj)) = aged
  have hrecorded : Recorded addr (heap.granted addr (heap.object obj)) aged := by
    subst haged
    split
    · exact recorded_increaseObjectAge ..
    · exact .refl ..
  split
  · exact ⟨(hrecorded.trans (ss.recorded_setLiveBit addr aged)).placed hspace halloc,
      .copied hspace⟩
  · exact ⟨hrecorded.placed hspace halloc, .copied hspace⟩

/-- `MarkNonForwardedObject` copies the object, or nothing is left for it. -/
theorem markNonForwardedObject_cases (ss : SemiSpace) (obj : ℕ) (heap : Heap) :
    (∃ addr heap', ss.markNonForwardedObject obj heap = .ok (addr, heap') ∧
      ss.Placed obj heap addr heap' ∧ ss.Outcome obj heap addr heap') ∨
    (ss.FallsBack obj heap ∧ ss.allocator.alloc obj ss.fallbackSpace = none) := by
  have htried : Tried ss obj heap
      (if ss.isPromoted obj heap then ss.promote obj heap else ss.copyYoung obj heap) := by
    split
    case isTrue => exact promote_tried obj heap
    case isFalse hyoung => exact copyYoung_tried (Bool.eq_false_iff.mpr hyoung)
  unfold markNonForwardedObject
  generalize (if ss.isPromoted obj heap = true then ss.promote obj heap
    else ss.copyYoung obj heap) = tried at htried
  obtain ⟨_ | addr, heap₁⟩ := tried
  · obtain ⟨rfl, hfalls⟩ := htried
    simp only [fallBack]
    obtain ⟨hrefused, -⟩ | ⟨addr, hspace, halloc, hsome⟩ :=
      ss.allocate_cases ss.fallbackSpace obj heap₁
    · exact .inr ⟨hfalls, hrefused⟩
    · simp only [hsome]
      refine .inl ⟨addr, _, rfl, ?_, .fellBack hspace hfalls⟩
      rw [copied_eq]
      exact (ss.recorded_setLiveBit addr _).placed hspace halloc
  · obtain ⟨hplaced, hout⟩ := htried
    refine .inl ⟨addr, _, rfl, ?_⟩
    rw [copied_eq]
    exact ⟨hplaced, hout⟩

end SemiSpace

end NougatArt.Gc
