import NougatArt.Gc.CopySteps

/-!
# Marking keeps the invariant

`MarkObject` gives a reference its image and pushes what it has reached for the
first time; visiting the fields of an object replaces them by their images.
-/

namespace NougatArt.Gc

open List Nat Heap Function

open Finset Bool

namespace SemiSpace

structure Collecting (ss : SemiSpace) (start : Heap) (cells : List ℕ) (heap : Heap)
    (gray : Multiset ℕ) (current : ℕ) (offsets : List ℕ) : Prop where
  forwarding : ss.Forwarding start heap
  tracing : ss.Tracing start cells heap gray current offsets

structure Extends (ss : SemiSpace) (start heap : Heap) (pushed : List ℕ) (heap' : Heap) :
    Prop where
  image_mono : ∀ {ref found}, ss.Valid start ref → ss.image heap ref = some found →
    ss.image heap' ref = some found
  card_eq : pushed.length + (ss.reached start heap).card = (ss.reached start heap').card
  fresh : ∀ {obj found}, obj ∈ start.allocated → ss.isTraced obj = true →
    ss.image heap obj = some found → found ∉ pushed
  new : ∀ {obj found}, obj ∈ start.allocated → ss.isTraced obj = true →
    ss.image heap' obj = some found → found ∈ pushed ∨ ss.image heap obj = some found

variable {ss : SemiSpace} {start heap heap' : Heap} {cells : List ℕ} {gray : Multiset ℕ}
variable {cur : ℕ} {offsets : List ℕ} {obj ref addr off : ℕ}

theorem Extends.refl : ss.Extends start heap [] heap where
  image_mono _ himage := himage
  card_eq := zero_add _
  fresh _ _ _ := not_mem_nil
  new _ _ himage := .inr himage

theorem Extends.trans {middle : Heap} {first second : List ℕ}
    (h : ss.Extends start heap first middle) (h' : ss.Extends start middle second heap') :
    ss.Extends start heap (first ++ second) heap' where
  image_mono hvalid himage := h'.image_mono hvalid (h.image_mono hvalid himage)
  card_eq := by
    have := h.card_eq
    have := h'.card_eq
    rw [length_append]
    omega
  fresh hobj htraced himage hmem := by
    obtain hmem | hmem := mem_append.mp hmem
    · exact h.fresh hobj htraced himage hmem
    · exact h'.fresh hobj htraced (h.image_mono (fun _ => hobj) himage) hmem
  new hobj htraced himage := by
    obtain hmem | himage := h'.new hobj htraced himage
    · exact .inl (mem_append_right _ hmem)
    · exact (h.new hobj htraced himage).imp_left (mem_append_left _)

theorem Reaches.extends (h : ss.Reaches start heap ref addr heap') :
    ss.Extends start heap [addr] heap' where
  image_mono hvalid himage := h.image_mono hvalid himage
  card_eq := by
    rw [h.reached_eq, card_insert_of_notMem h.not_mem_reached, length_singleton, add_comm]
  fresh hobj htraced himage hmem :=
    (h.images _ hobj htraced _ himage).1 (List.mem_singleton.mp hmem)
  new hobj _ himage := by
    rw [h.image_eq fun _ => hobj] at himage
    split at himage
    case isTrue =>
      cases himage
      exact .inl (List.mem_singleton_self _)
    case isFalse => exact .inr himage

/-- Assigning to an object outside the from-space reaches nothing. -/
theorem Extends.assign (hnotFrom : ss.inFromSpace cur = false) (v : ℕ) :
    ss.Extends start heap [] (heap.assign cur off v) where
  image_mono _ himage := by rw [image_assign hnotFrom, himage]
  card_eq := by rw [reached_assign hnotFrom, length_nil, zero_add]
  fresh _ _ _ := not_mem_nil
  new _ _ himage := .inr (by rwa [image_assign hnotFrom] at himage)

def reachedWith (ss : SemiSpace) (start heap : Heap) (ref : ℕ) : Finset ℕ :=
  if ss.isTraced ref = true then insert ref (ss.reached start heap) else ss.reached start heap

theorem mem_reached_of_image (hmem : ref ∈ start.allocated) (htraced : ss.isTraced ref)
    (himage : ss.image heap ref = some addr) : ref ∈ ss.reached start heap :=
  mem_reached.mpr ⟨hmem, htraced, by rw [himage]; rfl⟩

theorem reachedWith_of_image (hvalid : ss.Valid start ref)
    (himage : ss.image heap ref = some addr) :
    ss.reachedWith start heap ref = ss.reached start heap := by
  rw [reachedWith]
  split
  case isTrue htraced =>
    exact insert_eq_self.mpr (mem_reached_of_image (hvalid htraced) htraced himage)
  case isFalse => rfl

theorem Heap.setMarkBit_eq_self (hmark : heap.markBits addr) : heap.setMarkBit addr = heap := by
  rw [setMarkBit, ← hmark, update_eq_self]

/-- Setting the mark bit of an object that has one. -/
theorem markBitmapSet_eq (hstart : ss.WellFormed start cells) (hmem : ref ∈ start.allocated)
    (hfrom : ss.inFromSpace ref = false) (hmarked : ss.isMarkedInBitmap ref) :
    ss.markBitmapSet ref heap = .ok (heap.markBits ref, heap.setMarkBit ref) := by
  rw [markBitmapSet]
  obtain hbitmap | ⟨hlarge, haligned⟩ := hstart.hasMarkBit ref hmem hmarked hfrom
  · rw [if_pos hbitmap]
  · rw [if_neg (by rw [hlarge]; exact false_ne_true), hstart.notInToSpace ref hmem,
      Bool.false_or, if_neg (by rw [haligned]; decide), if_pos hlarge]

theorem Forwarding.setMarkBit (h : ss.Forwarding start heap) (addr : ℕ) :
    ss.Forwarding start (heap.setMarkBit addr) := by
  refine h.congr rfl (fun _ _ _ => rfl) rfl fun found hfound => ?_
  by_cases heq : found = addr
  · subst heq
    exact update_self ..
  · exact (update_of_ne heq ..).trans hfound

/-- What marking a reference does: it gets an image, and what is reached for the first time is
pushed. -/
structure Marks (ss : SemiSpace) (start : Heap) (cells : List ℕ) (heap : Heap)
    (gray : Multiset ℕ) (current : ℕ) (offsets : List ℕ) (ref v : ℕ) (pushed : List ℕ)
    (heap' : Heap) : Prop where
  image_eq : ss.image heap' ref = some v
  rootCells_eq : heap'.rootCells = heap.rootCells
  grows : ss.Extends start heap pushed heap'
  reached_eq : ss.reached start heap' = ss.reachedWith start heap ref
  collecting : ss.Collecting start cells heap' (pushed + gray) current offsets

namespace Collecting

section

variable (h : ss.Collecting start cells heap gray cur offsets)

include h

theorem pushNone : ss.Collecting start cells heap (([] : List ℕ) + gray) cur offsets := by
  rwa [Multiset.coe_nil, zero_add]

/-- A reference with an image is marked already. -/
theorem marks_of_image (hvalid : ss.Valid start ref) (himage : ss.image heap ref = some addr) :
    ss.Marks start cells heap gray cur offsets ref addr [] heap where
  image_eq := himage
  rootCells_eq := rfl
  grows := .refl
  reached_eq := (reachedWith_of_image hvalid himage).symm
  collecting := h.pushNone

variable (hstart : ss.WellFormed start cells)

include hstart

theorem marks_of_reaches (hreaches : ss.Reaches start heap ref addr heap')
    (hcells : heap'.rootCells = heap.rootCells) (hforwarding : ss.Forwarding start heap')
    (htraced : ss.isTraced ref) (hreach : ss.Reachable start cells ref) :
    ss.Marks start cells heap gray cur offsets ref addr [addr] heap' where
  image_eq := hreaches.image_self
  rootCells_eq := hcells
  grows := hreaches.extends
  reached_eq := by rw [hreaches.reached_eq, reachedWith, if_pos htraced]
  collecting := ⟨hforwarding, hreaches.tracing h.tracing hstart hreach⟩

variable (hroom : ss.HasRoom start cells) (hvalid : ss.Valid start ref)
  (hreach : ss.isTraced ref → ss.Reachable start cells ref)

include hroom hvalid hreach

/-- `MarkObject` on a reference of the heap before the collection. -/
theorem markObject : ∃ v pushed heap', ss.markObject ref heap = .ok (v, pushed, heap') ∧
    ss.Marks start cells heap gray cur offsets ref v pushed heap' := by
  rw [SemiSpace.markObject]
  split
  case isTrue hnull =>
    subst hnull
    exact ⟨0, [], heap, rfl, h.marks_of_image hvalid (image_of_not_traced rfl)⟩
  case isFalse hne =>
    split
    case isTrue hfrom =>
      have htraced := isTraced_of_inFromSpace hfrom
      split
      case h_1 addr hfwd =>
        exact ⟨addr, [], heap, rfl, h.marks_of_image hvalid (by rw [image_of_from hfrom, hfwd])⟩
      case h_2 hnone =>
        obtain ⟨addr, copied, hmark, hplaced, hout⟩ | ⟨hfalls, hrefused⟩ :=
          ss.markNonForwardedObject_cases ref heap
        · have hcopy := h.forwarding.copy hstart (hvalid htraced) hfrom hnone hplaced hout
          exact ⟨addr, [addr], copied.forward ref addr, by rw [hmark]; rfl,
            h.marks_of_reaches hstart (hcopy.reaches h.forwarding hstart hnone)
              hcopy.rootCells_eq (hcopy.forwarding h.forwarding hstart hnone) htraced
              (hreach htraced)⟩
        · have hfalls := (h.forwarding.fallsBack_iff (hvalid htraced)).mp hfalls
          exact absurd hrefused (hroom ref (hreach htraced) hfrom hfalls)
    case isFalse hfrom =>
      have hfrom := eq_false_iff.mpr hfrom
      split
      case isTrue hmarked =>
        have htraced := (isTraced_eq_of_not_from hne hfrom).trans hmarked
        rw [markBitmapSet_eq hstart (hvalid htraced) hfrom hmarked]
        cases hmark : heap.markBits ref with
        | true =>
          refine ⟨ref, [], heap, ?_, h.marks_of_image hvalid ?_⟩
          · rw [Heap.setMarkBit_eq_self hmark]
            rfl
          · rw [image_of_traced hfrom htraced, if_pos hmark]
        | false =>
          have hreaches := h.tracing.reaches_of_mark h.forwarding hstart (hvalid htraced) hfrom
            htraced hmark
          exact ⟨ref, [ref], heap.setMarkBit ref, rfl, h.marks_of_reaches hstart hreaches rfl
            (h.forwarding.setMarkBit ref) htraced (hreach htraced)⟩
      case isFalse hmarked =>
        have htraced := (isTraced_eq_of_not_from hne hfrom).trans (eq_false_iff.mpr hmarked)
        exact ⟨ref, [], heap, rfl, h.marks_of_image hvalid (image_of_not_traced htraced)⟩

/-- Before the collection no object is in the to-space: a reference into it is left alone. -/
theorem markObjectIfNotInToSpace :
    ∃ v pushed heap', ss.markObjectIfNotInToSpace ref heap = .ok (v, pushed, heap') ∧
      ss.Marks start cells heap gray cur offsets ref v pushed heap' := by
  rw [SemiSpace.markObjectIfNotInToSpace]
  split
  case isTrue hto =>
    have htraced : ss.isTraced ref = false := by
      refine eq_false_iff.mpr fun htraced => ?_
      rw [hstart.notInToSpace _ (hvalid htraced)] at hto
      exact false_ne_true hto
    exact ⟨_, [], heap, rfl, h.marks_of_image hvalid (image_of_not_traced htraced)⟩
  case isFalse => exact h.markObject hstart hroom hvalid hreach

end

theorem image_lt (h : ss.Collecting start cells heap gray cur offsets)
    (hstart : ss.WellFormed start cells) (hvalid : ss.Valid start ref)
    (himage : ss.image heap ref = some addr) (hlt : ref < 2 ^ 32) : addr < 2 ^ 32 := by
  cases hfrom : ss.inFromSpace ref with
  | true =>
    rw [image_of_from hfrom] at himage
    exact (h.forwarding.copy_of_forwarded hstart (hvalid (isTraced_of_inFromSpace hfrom)) hfrom
      himage).1.lt
  | false =>
    rw [image_eq_self hfrom himage]
    exact hlt

theorem coe_append_add (pushed rest : List ℕ) (gray : Multiset ℕ) :
    ((pushed ++ rest : List ℕ) : Multiset ℕ) + gray = rest + (pushed + gray) := by
  rw [← Multiset.coe_add, add_comm (pushed : Multiset ℕ), add_assoc]

/-- The loop over the fields of the current object; the induction is on the
fields that are left. -/
theorem visitReferences (hstart : ss.WellFormed start cells)
    (hroom : ss.HasRoom start cells) (hreach : ss.Reachable start cells obj) :
    ∀ (offsets : List ℕ) (heap : Heap) (gray : Multiset ℕ),
      ss.Collecting start cells heap gray cur offsets → ss.image heap obj = some cur → cur ∉ gray →
      offsets ⊆ (start.object obj).refOffsets → offsets.Nodup →
      ∃ pushed heap', ss.visitReferences cur offsets heap = .ok (pushed, heap') ∧
        heap'.rootCells = heap.rootCells ∧ ss.Extends start heap pushed heap' ∧
        ss.Collecting start cells heap' (pushed + gray) cur [] := by
  have hobj := hreach.mem hstart
  have htraced := hreach.traced
  intro offsets
  induction offsets with
  | nil =>
    intro heap gray h _ _ _ _
    exact ⟨[], heap, rfl, rfl, .refl, h.pushNone⟩
  | cons off offsets ih =>
    intro heap gray h himage hnotGray hsubset hnodup
    have hoff : off ∈ (start.object obj).refOffsets := hsubset mem_cons_self
    have hvalid := hstart.valid_field hobj htraced hoff
    have hfield : heap.fieldAt cur off = (start.object obj).refAt off :=
      (h.tracing.content obj hobj htraced cur himage).waiting off hoff (.inr ⟨rfl, mem_cons_self⟩)
    obtain ⟨v, pushed, marked, hmark, hvalue, hcells, hext, -, hcollecting⟩ :=
      h.markObject hstart hroom hvalid fun hnext => .field hreach hoff hnext
    have himage' := hext.image_mono (fun _ => hobj) himage
    have hnotFrom := (hcollecting.forwarding.image_cases hstart hobj himage').2.1
    have hnotGray' : cur ∉ (pushed + gray : Multiset ℕ) := by
      rw [Multiset.mem_add, Multiset.mem_coe]
      exact not_or.mpr ⟨hext.fresh hobj htraced himage, hnotGray⟩
    have hlt := hcollecting.image_lt hstart hvalid hvalue (readWord_lt ..)
    have hnext : ss.Collecting start cells (marked.assign cur off v) (pushed + gray) cur offsets :=
      ⟨hcollecting.forwarding.assign hnotFrom v,
        hcollecting.tracing.visit hcollecting.forwarding hstart hobj himage' htraced hnotGray'
          hoff hnodup hvalue hlt⟩
    obtain ⟨rest, last, hrest, hcells', hext', hlast⟩ := ih _ _ hnext
      ((image_assign hnotFrom v).trans himage') hnotGray'
      (subset_of_cons_subset hsubset) (nodup_cons.mp hnodup).2
    refine ⟨pushed ++ rest, last, ?_, hcells'.trans hcells, ?_, ?_⟩
    · rw [SemiSpace.visitReferences, hfield, hmark]
      simp only [bind, Except.bind, hrest]
      rfl
    · have hassign : ss.Extends start marked [] (marked.assign cur off v) := .assign hnotFrom v
      exact hext.trans (hassign.trans hext')
    · rw [coe_append_add]
      exact hlast

end Collecting

end SemiSpace

end NougatArt.Gc
