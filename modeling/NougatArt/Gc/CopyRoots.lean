import NougatArt.Gc.CopyMarking
import NougatArt.Gc.ThreadRoots

/-!
# Root cells and the mark stack

Cells may be visited several times: a root of a thread is often also a native
root of a class. A cell that has been visited holds an image, which is in the
to-space or marked, unless it is a copy in the fallback space: such a copy has no
mark bit, and a collection of the whole heap takes it for an object that was
never scanned.

Scanning an object replaces its fields and its native roots by their images;
emptying the mark stack comes to an end because every object is pushed once.
-/

namespace NougatArt.Gc

open List Nat Option Function Finset MarkStack

def Heap.nativeRootsOf (heap : Heap) (objs : List ℕ) : List ℕ :=
  objs.flatMap fun obj => (heap.object obj).nativeRoots

namespace SemiSpace

variable {ss : SemiSpace} {start heap heap' : Heap} {cells : List ℕ} {gray : Multiset ℕ}

structure Rooted (ss : SemiSpace) (start heap : Heap) (done : List ℕ) : Prop where
  visited : ∀ cell ∈ done, ss.image heap (start.rootCells cell) = some (heap.rootCells cell)
  waiting : ∀ cell, cell ∉ done → heap.rootCells cell = start.rootCells cell

def markedBy (ss : SemiSpace) (start : Heap) (cells : List ℕ) : Finset ℕ :=
  (cells.map start.rootCells).toFinset.filter fun ref => ss.isTraced ref = true

/-- The cells that a collection comes to. -/
def IsVisited (ss : SemiSpace) (start : Heap) (cells : List ℕ) (cell : ℕ) : Prop :=
  cell ∈ cells ∨ ∃ obj, ss.Reachable start cells obj ∧ cell ∈ (start.object obj).nativeRoots

/-- Nothing is pushed for a cell that is visited again. -/
def RevisitsQuietly (ss : SemiSpace) (start : Heap) (visits : List ℕ) : Prop :=
  ∀ cell, 2 ≤ visits.count cell → ss.collectFromSpaceOnly = true ∨
    (ss.inFromSpace (start.rootCells cell) = true → ¬ ss.FallsBack (start.rootCells cell) start)

theorem RevisitsQuietly.of_append {first second : List ℕ}
    (h : ss.RevisitsQuietly start (first ++ second)) : ss.RevisitsQuietly start first :=
  fun cell hcount => h cell (by rw [count_append]; omega)

section IsVisited

variable {cell : ℕ} (h : ss.IsVisited start cells cell)

include h

theorem IsVisited.valid (hstart : ss.WellFormed start cells) :
    ss.Valid start (start.rootCells cell) := by
  obtain hcell | ⟨obj, hobj, hcell⟩ := h
  · exact hstart.roots cell hcell
  · exact hstart.natives obj (hobj.mem hstart) hobj.traced cell hcell

theorem IsVisited.reachable (htraced : ss.isTraced (start.rootCells cell)) :
    ss.Reachable start cells (start.rootCells cell) := by
  obtain hcell | ⟨obj, hobj, hcell⟩ := h
  · exact .root hcell htraced
  · exact .native hobj hcell htraced

end IsVisited

theorem markedBy_append (first second : List ℕ) :
    ss.markedBy start (first ++ second) = ss.markedBy start first ∪ ss.markedBy start second := by
  rw [markedBy, markedBy, markedBy, ← filter_union, map_append, toFinset_append]

/-- Marking the reference of a cell reaches what the cell refers to. -/
theorem reachedWith_rootCells (cell : ℕ) : ss.reachedWith start heap (start.rootCells cell) =
      ss.reached start heap ∪ ss.markedBy start [cell] := by
  rw [reachedWith, markedBy]
  split
  case isTrue htraced =>
    rw [List.map_singleton, List.toFinset_cons, List.toFinset_nil, insert_empty_eq,
      Finset.filter_singleton, if_pos htraced, Finset.union_comm]
    rfl
  case isFalse htraced =>
    rw [List.map_singleton, List.toFinset_cons, List.toFinset_nil, insert_empty_eq,
      Finset.filter_singleton, if_neg htraced, Finset.union_empty]

/-- Marking that leaves the cells alone keeps the images in those visited. -/
theorem Rooted.of_extends {done pushed : List ℕ} (h : ss.Rooted start heap done)
    (hext : ss.Extends start heap pushed heap') (hcells : heap'.rootCells = heap.rootCells)
    (hvalid : ∀ cell ∈ done, ss.Valid start (start.rootCells cell)) :
    ss.Rooted start heap' done where
  visited cell hcell := by
    rw [hcells]
    exact hext.image_mono (hvalid cell hcell) (h.visited cell hcell)
  waiting cell hcell := by
    rw [hcells]
    exact h.waiting cell hcell

section Rooted

variable {done : List ℕ} {cell : ℕ} (h : ss.Rooted start heap done)

include h

/-- A cell gets the image of its reference. -/
theorem Rooted.visit {v : ℕ} (himage : ss.image heap (start.rootCells cell) = some v) :
    ss.Rooted start { heap with rootCells := update heap.rootCells cell v } (done ++ [cell]) where
  visited other hother := by
    change ss.image heap (start.rootCells other) = some (update heap.rootCells cell v other)
    by_cases heq : other = cell
    · subst heq
      rw [update_self]
      exact himage
    · rw [update_of_ne heq]
      exact h.visited other
        ((mem_append.mp hother).resolve_right fun hmem => heq (List.mem_singleton.mp hmem))
  waiting other hother := by
    obtain ⟨hnotDone, hne⟩ := not_or.mp fun hmem => hother (mem_append.mpr hmem)
    change update heap.rootCells cell v other = start.rootCells other
    rw [update_of_ne fun heq => hne (List.mem_singleton.mpr heq)]
    exact h.waiting _ hnotDone

theorem Rooted.revisit (hmem : cell ∈ done) : ss.Rooted start heap (done ++ [cell]) where
  visited other hother := by
    refine h.visited other ((mem_append.mp hother).elim id fun hother => ?_)
    rwa [List.mem_singleton.mp hother]
  waiting other hother := h.waiting other fun hdone => hother (mem_append_left _ hdone)

end Rooted

/-- What visiting the cells `todo` after the cells `done` does. -/
structure Visits (ss : SemiSpace) (start : Heap) (cells : List ℕ) (heap : Heap)
    (gray : Multiset ℕ) (current : ℕ) (done todo pushed : List ℕ) (heap' : Heap) : Prop where
  collecting : ss.Collecting start cells heap' (pushed + gray) current []
  rooted : ss.Rooted start heap' (done ++ todo)
  grows : ss.Extends start heap pushed heap'
  reached_eq : ss.reached start heap' = ss.reached start heap ∪ ss.markedBy start todo

theorem Visits.append {middle : Heap} {cur : ℕ} {done first second pushed rest : List ℕ}
    (h : ss.Visits start cells heap gray cur done first pushed middle)
    (h' : ss.Visits start cells middle (pushed + gray) cur (done ++ first) second rest heap') :
    ss.Visits start cells heap gray cur done (first ++ second) (pushed ++ rest) heap' where
  collecting := by
    rw [Collecting.coe_append_add]
    exact h'.collecting
  rooted := by
    rw [← append_assoc]
    exact h'.rooted
  grows := h.grows.trans h'.grows
  reached_eq := by rw [h'.reached_eq, h.reached_eq, union_assoc, ← markedBy_append]

namespace Collecting

variable {cur : ℕ} {done : List ℕ} {cell : ℕ}

section

variable (h : ss.Collecting start cells heap gray cur [])

include h

theorem putRoot
    (roots : ℕ → ℕ) : ss.Collecting start cells { heap with rootCells := roots } gray cur [] :=
  ⟨h.forwarding.congr rfl (fun _ _ _ => rfl) rfl fun _ hmark => hmark,
    h.tracing.congr rfl fun _ => rfl⟩

section

variable (hstart : ss.WellFormed start cells)

include hstart

theorem visitRoot_new (hroom : ss.HasRoom start cells) (hroots : ss.Rooted start heap done)
    (hdone : ∀ other ∈ done, ss.IsVisited start cells other)
    (hcell : ss.IsVisited start cells cell) (hnew : cell ∉ done) :
    ∃ pushed heap', ss.visitRoot cell heap = .ok (pushed, heap') ∧
      ss.Visits start cells heap gray cur done [cell] pushed heap' := by
  obtain ⟨v, pushed, marked, hmark, himage, hcells, hext, hreached, hcollecting⟩ :=
    h.markObjectIfNotInToSpace hstart hroom (hcell.valid hstart) hcell.reachable
  have hroots' := hroots.of_extends hext hcells fun other hother =>
    (hdone other hother).valid hstart
  refine ⟨pushed, { marked with rootCells := update marked.rootCells cell v }, ?_,
    hcollecting.putRoot _, hroots'.visit himage,
    ⟨hext.image_mono, hext.card_eq, hext.fresh, hext.new⟩, ?_⟩
  · rw [SemiSpace.visitRoot, hroots.waiting _ hnew, hmark]
    rfl
  · rw [← reachedWith_rootCells]
    exact hreached

/-- An image outside the to-space that marking meets again is marked already. -/
theorem markObject_image {ref v : ℕ} (hvalid : ss.Valid start ref)
    (himage : ss.image heap ref = some v) (hto : ss.inToSpace v = false)
    (hquiet : ss.collectFromSpaceOnly = true ∨
      (ss.inFromSpace ref = true → ¬ ss.FallsBack ref start)) :
    ss.markObject v heap = .ok (v, [], heap) := by
  have hfrom : ss.inFromSpace v = false := by
    cases hfrom : ss.inFromSpace ref with
    | true =>
      rw [image_of_from hfrom] at himage
      exact (h.forwarding.copy_of_forwarded hstart (hvalid (isTraced_of_inFromSpace hfrom))
        hfrom himage).2.2.2
    | false => rwa [image_eq_self hfrom himage]
  rw [SemiSpace.markObject]
  split
  case isTrue => rfl
  case isFalse hne =>
    rw [if_neg (Bool.eq_false_iff.mp hfrom)]
    split
    case isFalse => rfl
    case isTrue hmarked =>
      have hwhole : ss.collectFromSpaceOnly = false := by
        rw [isMarkedInBitmap, Bool.and_eq_true, Bool.not_eq_true'] at hmarked
        exact hmarked.1
      have hstays := hquiet.resolve_left (Bool.eq_false_iff.mp hwhole)
      have hset : ss.markBitmapSet v heap = .ok (true, heap) := by
        cases hfrom' : ss.inFromSpace ref with
        | true =>
          have hmem := hvalid (isTraced_of_inFromSpace hfrom')
          rw [image_of_from hfrom'] at himage
          obtain hto' | ⟨hspace, hmark⟩ :=
            h.forwarding.copies_marked hwhole ref hmem hfrom' (hstays hfrom') _ himage
          · rw [hto] at hto'
            exact absurd hto' Bool.false_ne_true
          · rw [markBitmapSet, hspace, if_pos ss.promo_hasBitmap, hmark,
              Heap.setMarkBit_eq_self hmark]
        | false =>
          obtain rfl := image_eq_self hfrom' himage
          have htraced := (isTraced_eq_of_not_from hne hfrom).trans hmarked
          have hmark : heap.markBits v = true := by
            rw [image_of_traced hfrom htraced] at himage
            by_contra hmark
            rw [if_neg hmark] at himage
            exact absurd himage (some_ne_none _).symm
          rw [markBitmapSet_eq hstart (hvalid htraced) hfrom hmarked, hmark,
            Heap.setMarkBit_eq_self hmark]
      rw [hset]
      rfl

theorem visitRoot_again (hroots : ss.Rooted start heap done)
    (hcell : ss.IsVisited start cells cell) (hmem : cell ∈ done)
    (hquiet : ss.collectFromSpaceOnly = true ∨ (ss.inFromSpace (start.rootCells cell) = true →
      ¬ ss.FallsBack (start.rootCells cell) start)) :
    ss.visitRoot cell heap = .ok ([], heap) := by
  have hmark : ss.markObjectIfNotInToSpace (heap.rootCells cell) heap =
      .ok (heap.rootCells cell, [], heap) := by
    rw [SemiSpace.markObjectIfNotInToSpace]
    split
    case isTrue => rfl
    case isFalse hto =>
      exact h.markObject_image hstart (hcell.valid hstart) (hroots.visited _ hmem)
        (Bool.eq_false_iff.mpr hto) hquiet
  rw [SemiSpace.visitRoot, hmark]
  change Except.ok ([], { heap with rootCells := update heap.rootCells cell _ }) = _
  rw [update_eq_self]

/-- The visit of a cell, whether it is the first one or not. -/
theorem visitRoot (hroom : ss.HasRoom start cells) (hroots : ss.Rooted start heap done)
    (hvisited : ∀ other ∈ done ++ [cell], ss.IsVisited start cells other)
    (hquiet : ss.RevisitsQuietly start (done ++ [cell])) :
    ∃ pushed heap', ss.visitRoot cell heap = .ok (pushed, heap') ∧
      ss.Visits start cells heap gray cur done [cell] pushed heap' := by
  have hcell := hvisited cell (mem_append_right _ (List.mem_singleton_self cell))
  by_cases hmem : cell ∈ done
  · have htwice : 2 ≤ (done ++ [cell]).count cell := by
      have := count_pos_iff.mpr hmem
      rw [count_append, count_singleton_self]
      omega
    refine ⟨[], heap, h.visitRoot_again hstart hroots hcell hmem (hquiet cell htwice),
      h.pushNone, hroots.revisit hmem, .refl, ?_⟩
    rw [← reachedWith_rootCells, reachedWith_of_image (hcell.valid hstart)
      (hroots.visited _ hmem)]
  · exact h.visitRoot_new hstart hroom hroots
      (fun other hother => hvisited other (mem_append_left _ hother)) hcell hmem

end

end

/-- The objects that the cells of a list reach for the first time are pushed. -/
theorem visitRootCells (hstart : ss.WellFormed start cells) (hroom : ss.HasRoom start cells)
    (todo : List ℕ) :
    ∀ (heap : Heap) (gray : Multiset ℕ) (done : List ℕ),
      ss.Collecting start cells heap gray cur [] → ss.Rooted start heap done →
      (∀ cell ∈ done ++ todo, ss.IsVisited start cells cell) →
      ss.RevisitsQuietly start (done ++ todo) →
      ∃ pushed heap', ss.visitRootCells todo heap = .ok (pushed, heap') ∧
        ss.Visits start cells heap gray cur done todo pushed heap' := by
  induction todo with
  | nil =>
    intro heap gray done h hroots _ _
    refine ⟨[], heap, rfl, h.pushNone, by rwa [append_nil], .refl, ?_⟩
    rw [markedBy, map_nil, toFinset_nil, filter_empty, union_empty]
  | cons cell todo ih =>
    intro heap gray done h hroots hvisited hquiet
    rw [append_cons] at hvisited hquiet
    obtain ⟨pushed, heap₁, hvisit, hfirst⟩ := h.visitRoot hstart hroom hroots
      (fun other hother => hvisited other (mem_append_left _ hother)) hquiet.of_append
    obtain ⟨rest, heap₂, hrest, hothers⟩ :=
      ih heap₁ _ _ hfirst.collecting hfirst.rooted hvisited hquiet
    refine ⟨pushed ++ rest, heap₂, ?_, hfirst.append hothers⟩
    rw [SemiSpace.visitRootCells, hvisit]
    simp only [bind, Except.bind, hrest]
    rfl

end Collecting

/-! ## Scanning -/

/-- The objects that have been scanned: those reached that are no longer gray. -/
structure Scanned (ss : SemiSpace) (start : Heap) (cells : List ℕ) (heap : Heap)
    (gray : Multiset ℕ) (scanned : List ℕ) : Prop where
  nodup : scanned.Nodup
  reachable : ∀ obj ∈ scanned, ss.Reachable start cells obj
  black : ∀ obj ∈ scanned, ∃ address, ss.image heap obj = some address ∧ address ∉ gray
  complete : ∀ obj ∈ start.allocated, ss.isTraced obj = true →
    ∀ address, ss.image heap obj = some address → address ∈ gray ∨ obj ∈ scanned

namespace Scanned

variable {scanned pushed : List ℕ} {obj addr : ℕ}

theorem initial (hstart : ss.WellFormed start cells) : ss.Scanned start cells start gray [] where
  nodup := nodup_nil
  reachable _ hmem := absurd hmem not_mem_nil
  black _ hmem := absurd hmem not_mem_nil
  complete obj hobj htraced addr himage := by
    rw [hstart.image_eq_none hobj htraced] at himage
    exact absurd himage (some_ne_none addr).symm

theorem of_extends (h : ss.Scanned start cells heap gray scanned)
    (hstart : ss.WellFormed start cells) (hext : ss.Extends start heap pushed heap') :
    ss.Scanned start cells heap' (pushed + gray) scanned where
  nodup := h.nodup
  reachable := h.reachable
  black obj hobj := by
    obtain ⟨addr, himage, hgray⟩ := h.black obj hobj
    have hmem := (h.reachable obj hobj).mem hstart
    refine ⟨addr, hext.image_mono (fun _ => hmem) himage, fun hnew => ?_⟩
    obtain hnew | hnew := Multiset.mem_add.mp hnew
    · exact hext.fresh hmem (h.reachable obj hobj).traced himage hnew
    · exact hgray hnew
  complete obj hobj htraced addr himage := by
    obtain hpushed | himage := hext.new hobj htraced himage
    · exact .inl (Multiset.mem_add.mpr (.inl hpushed))
    · exact (h.complete obj hobj htraced addr himage).imp_left
        fun hgray => Multiset.mem_add.mpr (.inr hgray)

theorem pop (h : ss.Scanned start cells heap (addr ::ₘ gray) scanned)
    (hobj : ss.Reachable start cells obj) (himage : ss.image heap obj = some addr)
    (hgray : addr ∉ gray) (hinjective : ∀ other ∈ start.allocated,
      ss.image heap other = some addr → other = obj) :
    ss.Scanned start cells heap gray (scanned ++ [obj]) where
  nodup := by
    refine nodup_append.mpr ⟨h.nodup, nodup_singleton obj, ?_⟩
    rintro other hother _ hmem rfl
    obtain rfl := List.mem_singleton.mp hmem
    obtain ⟨found, hfound, hnot⟩ := h.black other hother
    rw [himage] at hfound
    cases hfound
    exact hnot (Multiset.mem_cons_self ..)
  reachable other hother := by
    obtain hother | hother := mem_append.mp hother
    · exact h.reachable other hother
    · rwa [List.mem_singleton.mp hother]
  black other hother := by
    obtain hother | hother := mem_append.mp hother
    · obtain ⟨found, hfound, hnot⟩ := h.black other hother
      exact ⟨found, hfound, fun hmem => hnot (Multiset.mem_cons_of_mem hmem)⟩
    · rw [List.mem_singleton.mp hother]
      exact ⟨addr, himage, hgray⟩
  complete other hother htraced found hfound := by
    obtain hmem | hmem := h.complete other hother htraced found hfound
    · obtain rfl | hmem := Multiset.mem_cons.mp hmem
      · rw [hinjective other hother hfound]
        exact .inr (mem_append_right _ (List.mem_singleton_self obj))
      · exact .inl hmem
    · exact .inr (mem_append_left _ hmem)

end Scanned

/-- The cells that have been visited when some objects have been scanned. -/
def visitedBy (start : Heap) (cells scanned : List ℕ) : List ℕ :=
  cells ++ start.nativeRootsOf scanned

theorem Scanned.isVisited {scanned : List ℕ} {cell : ℕ}
    (hreach : ∀ obj ∈ scanned, ss.Reachable start cells obj)
    (hcell : cell ∈ visitedBy start cells scanned) : ss.IsVisited start cells cell := by
  refine (mem_append.mp hcell).imp_right fun hnative => ?_
  obtain ⟨obj, hobj, hmem⟩ := mem_flatMap.mp hnative
  exact ⟨obj, hreach obj hobj, hmem⟩

theorem visitedBy_nil : visitedBy start cells [] = cells := by
  rw [visitedBy, Heap.nativeRootsOf, flatMap_nil, append_nil]

/-- Whatever is scanned, nothing is pushed for a cell that is visited again. -/
def MarksQuietly (ss : SemiSpace) (start : Heap) (cells : List ℕ) : Prop :=
  ∀ objs : List ℕ, objs.Nodup → (∀ obj ∈ objs, ss.Reachable start cells obj) →
    ss.RevisitsQuietly start (visitedBy start cells objs)

theorem MarksQuietly.revisitsQuietly (h : ss.MarksQuietly start cells) :
    ss.RevisitsQuietly start cells := by
  have hnil := h [] nodup_nil fun _ hmem => absurd hmem not_mem_nil
  rwa [visitedBy_nil] at hnil

namespace Collecting

variable {cur addr : ℕ} {scanned : List ℕ}

theorem scanObject (h : ss.Collecting start cells heap (cur ::ₘ gray) addr [])
    (hscanned : ss.Scanned start cells heap (cur ::ₘ gray) scanned)
    (hroots : ss.Rooted start heap (visitedBy start cells scanned))
    (hstart : ss.WellFormed start cells) (hroom : ss.HasRoom start cells)
    (hquiet : ss.MarksQuietly start cells) :
    ∃ pushed heap' obj, ss.scanObject cur heap = .ok (pushed, heap') ∧
      ss.Extends start heap pushed heap' ∧
      ss.Collecting start cells heap' (pushed + gray) addr [] ∧
      ss.Scanned start cells heap' (pushed + gray) (scanned ++ [obj]) ∧
      ss.Rooted start heap' (visitedBy start cells (scanned ++ [obj])) := by
  obtain ⟨obj, hobj, htraced, himage⟩ := h.tracing.gray_reached cur (Multiset.mem_cons_self ..)
  have hupdated := h.tracing.content obj hobj htraced cur himage
  have hreach := h.tracing.reachable obj (mem_reached_of_image hobj htraced himage)
  have hnotGray := (Multiset.nodup_cons.mp h.tracing.gray_nodup).1
  have hpopped : ss.Collecting start cells heap gray cur (start.object obj).refOffsets :=
    ⟨h.forwarding, h.tracing.pop h.forwarding hstart hobj himage⟩
  have hscanned := hscanned.pop hreach himage hnotGray fun other hother hfound =>
    h.forwarding.image_injective hstart hother hobj hfound himage
  have hcells : visitedBy start cells (scanned ++ [obj]) =
      visitedBy start cells scanned ++ (start.object obj).nativeRoots := by
    rw [visitedBy, Heap.nativeRootsOf, flatMap_append, flatMap_singleton, ← append_assoc]
    rfl
  have hvisited : ∀ cell ∈ visitedBy start cells (scanned ++ [obj]),
      ss.IsVisited start cells cell := fun _ => Scanned.isVisited hscanned.reachable
  have hquiet := hquiet (scanned ++ [obj]) hscanned.nodup hscanned.reachable
  rw [hcells] at hvisited hquiet
  obtain ⟨pushed, heap₁, hvisit, hsame, hext, hcollecting⟩ := visitReferences hstart hroom
    hreach _ _ _ hpopped himage hnotGray (List.Subset.refl _)
    (nodup_append.mp (start.object obj).fields_nodup).1
  have hroots := hroots.of_extends hext hsame fun cell hcell =>
    (hvisited cell (mem_append_left _ hcell)).valid hstart
  obtain ⟨natives, heap₂, hnatives, hcollecting', hroots', hext', -⟩ :=
    visitRootCells hstart hroom _ heap₁ _ _ hcollecting hroots hvisited hquiet
  rw [← coe_append_add] at hcollecting'
  have hext := hext.trans hext'
  refine ⟨pushed ++ natives, heap₂, obj, ?_, hext, ⟨hcollecting'.forwarding,
    hcollecting'.tracing.finish⟩, hscanned.of_extends hstart hext, by rwa [hcells]⟩
  rw [SemiSpace.scanObject, hupdated.refOffsets_eq, hvisit]
  simp only [bind, Except.bind, hupdated.nativeRoots_eq, hnatives, hupdated.referentOffset_eq,
    hstart.noReferent obj hobj]
  rfl

theorem popped {offsets : List ℕ} (h : ss.Collecting start cells heap gray addr offsets)
    (obj : ℕ) : ss.Collecting start cells (ss.popped obj heap) gray addr offsets ∧
      ss.Extends start heap [] (ss.popped obj heap) ∧
      (ss.popped obj heap).rootCells = heap.rootCells := by
  rw [SemiSpace.popped]
  split
  case isFalse => exact ⟨h, .refl, rfl⟩
  case isTrue hpromoted =>
    have hyoung : ss.collectFromSpaceOnly = true := (Bool.and_eq_true_iff.mp hpromoted).1
    have hobject : (ss.setLiveBit obj heap).object = heap.object := setLiveBit_object ..
    have himage : ∀ ref, ss.image (ss.setLiveBit obj heap) ref = ss.image heap ref := by
      intro ref
      cases hfrom : ss.inFromSpace ref with
      | true => rw [image_of_from hfrom, image_of_from hfrom, Heap.forwardingAddressOf, hobject,
          Heap.forwardingAddressOf]
      | false =>
        have htraced : ss.isTraced ref = false := by
          rw [isTraced, hfrom, isMarkedInBitmap, hyoung]
          exact Bool.and_false _
        rw [image_of_not_traced htraced, image_of_not_traced htraced]
    have hreached : ss.reached start (ss.setLiveBit obj heap) = ss.reached start heap :=
      filter_congr fun other _ => by rw [himage]
    refine ⟨⟨h.forwarding.congr (setLiveBit_allocated ..) (fun _ _ _ => by rw [hobject])
        (setLiveBit_ages ..) fun found hfound => ?_, h.tracing.congr hobject himage⟩,
      ⟨fun _ hfound => by rw [himage, hfound], ?_, fun _ _ _ => not_mem_nil,
        fun _ _ hfound => .inr (by rwa [himage] at hfound)⟩, setLiveBit_rootCells ..⟩
    · by_cases heq : found = obj
      · subst heq
        rw [setLiveBit, hyoung]
        exact update_self ..
      · rw [setLiveBit_markBits_of_ne _ heq, hfound]
    · rw [hreached, length_nil, zero_add]

theorem reached_card_le (heap : Heap) : (ss.reached start heap).card ≤ start.allocated.card :=
  card_le_card (filter_subset ..)

/-- The loop over the mark stack. Every round takes an object off the mark stack,
and every object is pushed once, so the loop ends when all objects have been
scanned. -/
theorem processLoop (hstart : ss.WellFormed start cells) (hroom : ss.HasRoom start cells)
    (hquiet : ss.MarksQuietly start cells) :
    ∀ (fuel : ℕ) (markStack : MarkStack ℕ) (fifo : List ℕ) (heap : Heap) (scanned : List ℕ),
      ss.Collecting start cells heap (markStack.objects + fifo) addr [] →
      ss.Scanned start cells heap (markStack.objects + fifo) scanned →
      ss.Rooted start heap (visitedBy start cells scanned) →
      markStack.objects.length + fifo.length +
        (start.allocated.card - (ss.reached start heap).card) < fuel →
      ∃ heap' scanned', ss.processLoop fuel markStack fifo heap = some (.ok heap') ∧
        ss.Collecting start cells heap' 0 addr [] ∧ ss.Scanned start cells heap' 0 scanned' ∧
        ss.Rooted start heap' (visitedBy start cells scanned') := by
  intro fuel
  induction fuel with
  | zero => exact fun _ _ _ _ _ _ _ hfuel => absurd hfuel (not_lt_zero _)
  | succ fuel ih =>
    intro markStack fifo heap scanned h hscanned hroots hfuel
    rw [SemiSpace.processLoop]
    cases hfifo : (refill (kFifoSize - fifo.length) markStack.objects fifo).2 with
    | nil =>
      obtain ⟨hstack, hempty⟩ := refill_eq_nil hfifo
      rw [hstack, hempty] at h hscanned
      exact ⟨heap, scanned, rfl, h, hscanned, hroots⟩
    | cons obj rest =>
      have hgray : (markStack.objects + fifo : Multiset ℕ) =
          obj ::ₘ ((markStack.refilled fifo).objects + rest) := refill_cons hfifo
      have hlen := congrArg Multiset.card hgray
      simp only [Multiset.card_add, Multiset.card_cons, Multiset.coe_card] at hlen
      rw [hgray] at h hscanned
      obtain ⟨hpopped, hext, hcells⟩ := h.popped obj
      have hscanned := hscanned.of_extends hstart hext
      rw [Multiset.coe_nil, zero_add] at hscanned
      have hroots := hroots.of_extends hext hcells fun cell hcell =>
        (Scanned.isVisited hscanned.reachable hcell).valid hstart
      obtain ⟨pushed, found, popped, hscan, hext', hcollecting, hscanned', hroots'⟩ :=
        hpopped.scanObject hscanned hroots hstart hroom hquiet
      have hcount := (hext.trans hext').card_eq
      rw [nil_append] at hcount
      have hle : (ss.reached start found).card ≤ start.allocated.card := reached_card_le found
      rw [← add_assoc, ← coe_objects_foldl_push] at hcollecting hscanned'
      simp only [hscan]
      refine ih (pushed.foldl push (markStack.refilled fifo)) rest found _ hcollecting hscanned'
        hroots' ?_
      rw [objects_foldl_push, length_append, length_reverse]
      omega

end Collecting

end SemiSpace

end NougatArt.Gc
