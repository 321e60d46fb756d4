import NougatArt.Gc.CopyInvariant

/-!
# The steps of marking

Marking reaches a new object, by a copy or by its mark bit, or it assigns the
image of a reference to a field of the object that is being scanned.
-/

namespace NougatArt.Gc

open Option Function Multiset Finset Heap

namespace SemiSpace

variable {ss : SemiSpace} {start heap heap' : Heap} {cells : List ℕ} {gray : Multiset ℕ}
variable {cur v : ℕ} {offsets : List ℕ} {obj ref addr off : ℕ} {waits : ℕ → Prop} {old new : Object}

namespace Forwarding

/-- Steps that change neither the from-space nor what is allocated. -/
theorem congr (h : ss.Forwarding start heap) (halloc : heap'.allocated = heap.allocated)
    (hobject : ∀ obj ∈ start.allocated, ss.inFromSpace obj → heap'.object obj = heap.object obj)
    (hages : heap'.ages = heap.ages)
    (hmark : ∀ addr, heap.markBits addr → heap'.markBits addr) : ss.Forwarding start heap' := by
  have hfwd : ∀ obj ∈ start.allocated, ss.inFromSpace obj = true →
      heap'.forwardingAddressOf obj = heap.forwardingAddressOf obj := by
    intro obj hobj hfrom
    rw [forwardingAddressOf, hobject obj hobj hfrom, forwardingAddressOf]
  constructor
  case start_subset => rw [halloc]; exact h.start_subset
  case fromSpace =>
    intro obj hobj hfrom
    rw [hobject obj hobj hfrom, halloc]
    exact h.fromSpace obj hobj hfrom
  case injective =>
    intro obj hobj hfrom other hother hfrom' addr
    rw [hfwd obj hobj hfrom, hfwd _ hother hfrom']
    exact h.injective obj hobj hfrom _ hother hfrom' addr
  case copies =>
    intro addr hmem hnew
    rw [halloc] at hmem
    obtain ⟨obj, hobj, hfrom, haddr, hgranted⟩ := h.copies _ hmem hnew
    exact ⟨obj, hobj, hfrom, (hfwd obj hobj hfrom).trans haddr, hgranted⟩
  case ages_eq => rw [hages]; exact h.ages_eq
  case copies_marked =>
    intro hwhole obj hobj hfrom hplaced addr haddr
    rw [hfwd obj hobj hfrom] at haddr
    exact (h.copies_marked hwhole obj hobj hfrom hplaced _ haddr).imp_right
      fun hmarked => ⟨hmarked.1, hmark _ hmarked.2⟩

end Forwarding

/-- Every copy leaves the from-space for one of the three other spaces. -/
theorem Outcome.inFromSpace_eq_false (h : ss.Outcome ref heap addr heap') :
    ss.inFromSpace addr = false := by
  rw [inFromSpace, decide_eq_false_iff_not]
  cases h with
  | promoted hspace => rw [hspace]; exact ss.promo_ne_from
  | copied hspace => rw [hspace]; exact ss.to_ne_from
  | fellBack hspace => rw [hspace]; exact ss.fallback_ne_from

/-- The copy of an object that had none, with the forwarding address installed. -/
structure Copy (ss : SemiSpace) (start heap : Heap) (ref address : ℕ) (heap' : Heap) :
    Prop where
  mem : ref ∈ start.allocated
  inFrom : ss.inFromSpace ref = true
  granted : ss.allocator.alloc ref (ss.layout.spaceOf address) = some address
  fresh : address ∉ heap.allocated
  isAddress : IsObjectAddress address
  notFrom : ss.inFromSpace address = false
  allocated_eq : heap'.allocated = insert address heap.allocated
  copied : heap'.object address = start.object ref
  source : heap'.object ref = (start.object ref).setLockWord (fromForwardingAddress address)
  others : ∀ other, other ≠ ref → other ≠ address → heap'.object other = heap.object other
  markBits_eq : ∀ other, other ≠ address → heap'.markBits other = heap.markBits other
  rootCells_eq : heap'.rootCells = heap.rootCells
  ages_eq : ∀ other, other ≠ address → heap'.ages other = heap.ages other
  marked : ss.collectFromSpaceOnly = false → ¬ ss.FallsBack ref start →
    ss.inToSpace address = true ∨
      ss.layout.spaceOf address = ss.promoDestSpace ∧ heap'.markBits address = true

theorem Forwarding.copy (h : ss.Forwarding start heap) (hstart : ss.WellFormed start cells)
    (hmem : ref ∈ start.allocated) (hfrom : ss.inFromSpace ref)
    (hnone : heap.forwardingAddressOf ref = none)
    (hplaced : ss.Placed ref heap addr heap') (hout : ss.Outcome ref heap addr heap') :
    ss.Copy start heap ref addr (heap'.forward ref addr) := by
  have hsame := h.object_eq_of_not_forwarded hmem hfrom hnone
  have hfresh := h.fresh_of_alloc hstart hnone hplaced.granted
  have hne : ref ≠ addr := fun heq => hfresh (heq ▸ h.start_subset hmem)
  refine ⟨hmem, hfrom, hplaced.granted, hfresh, (ss.allocator.alloc_spec hplaced.granted).2,
    hout.inFromSpace_eq_false, hplaced.allocated_eq, ?_, ?_, ?_, hplaced.markBits_eq,
    hplaced.rootCells_eq, hplaced.ages_eq, ?_⟩
  · rw [object_forward_of_ne _ hne.symm, hplaced.object_eq, update_self, hsame]
  · rw [object_forward_self, hplaced.object_eq, update_of_ne hne, hsame]
  · intro other hother hother'
    rw [object_forward_of_ne _ hother, hplaced.object_eq, update_of_ne hother']
  · intro hwhole hstays
    cases hout with
    | promoted hspace hmarked => exact .inr ⟨hspace, hmarked hwhole⟩
    | copied hspace => exact .inl (decide_eq_true hspace)
    | fellBack _ hfalls => exact absurd ((h.fallsBack_iff hmem).mp hfalls) hstays

namespace Copy

section

variable (h : ss.Copy start heap ref addr heap')

include h

theorem ne_address
    (hforwarding : ss.Forwarding start heap) (hobj : obj ∈ start.allocated) : obj ≠ addr :=
  fun heq => h.fresh (heq ▸ hforwarding.start_subset hobj)

theorem forwardingAddressOf_self : heap'.forwardingAddressOf ref = some addr := by
  rw [forwardingAddressOf, h.source,
    Object.lockWord_setLockWord _ (fromForwardingAddress_lt h.isAddress),
    forwardingAddress_fromForwardingAddress h.isAddress]

section

variable (hforwarding : ss.Forwarding start heap)

include hforwarding

theorem forwardingAddressOf_of_ne (hobj : obj ∈ start.allocated) (hne : obj ≠ ref) :
    heap'.forwardingAddressOf obj = heap.forwardingAddressOf obj := by
  rw [forwardingAddressOf, h.others obj hne (h.ne_address hforwarding hobj), forwardingAddressOf]

/-- A copy gives its object an image and changes no other one. -/
theorem image_eq (hvalid : ss.Valid start obj) :
    ss.image heap' obj = if obj = ref then some addr else ss.image heap obj := by
  split
  case isTrue heq =>
    subst heq
    rw [image_of_from h.inFrom, h.forwardingAddressOf_self]
  case isFalse hne =>
    rcases htraced : ss.isTraced obj with _ | _
    · rw [image_of_not_traced htraced, image_of_not_traced htraced]
    have hobj := hvalid htraced
    cases hfrom : ss.inFromSpace obj with
    | true =>
      rw [image_of_from hfrom, image_of_from hfrom,
        h.forwardingAddressOf_of_ne hforwarding hobj hne]
    | false =>
      rw [image_of_traced hfrom htraced, image_of_traced hfrom htraced,
        h.markBits_eq obj (h.ne_address hforwarding hobj)]

theorem forwarding (hstart : ss.WellFormed start cells)
    (hnone : heap.forwardingAddressOf ref = none) : ss.Forwarding start heap' := by
  -- An address that some other object has been forwarded to is not the new one.
  have hold : ∀ obj ∈ start.allocated, ss.inFromSpace obj = true →
      heap.forwardingAddressOf obj ≠ some addr := fun obj hobj hfrom heq =>
    h.fresh (hforwarding.copy_of_forwarded hstart hobj hfrom heq).2.1
  have hfwd : ∀ obj ∈ start.allocated, heap'.forwardingAddressOf obj =
      if obj = ref then some addr else heap.forwardingAddressOf obj := by
    intro obj hobj
    split
    case isTrue heq => rw [heq, h.forwardingAddressOf_self]
    case isFalse hne => exact h.forwardingAddressOf_of_ne hforwarding hobj hne
  constructor
  case start_subset =>
    rw [h.allocated_eq]
    exact hforwarding.start_subset.trans (subset_insert ..)
  case fromSpace =>
    intro obj hobj hfrom
    by_cases heq : obj = ref
    · subst heq
      refine .inr ⟨addr, h.isAddress, ?_, fun hmem => h.fresh (hforwarding.start_subset hmem),
        h.notFrom, h.source⟩
      rw [h.allocated_eq]
      exact mem_insert_self ..
    · rw [h.others obj heq (h.ne_address hforwarding hobj), h.allocated_eq]
      refine (hforwarding.fromSpace obj hobj hfrom).imp_right ?_
      rintro ⟨found, haddr, hmem, hrest⟩
      exact ⟨found, haddr, mem_insert_of_mem hmem, hrest⟩
  case injective =>
    intro obj hobj hfrom other hother hfrom' found
    rw [hfwd obj hobj, hfwd _ hother]
    split <;> split
    case isTrue.isTrue heq heq' => exact fun _ _ => heq.trans heq'.symm
    case isTrue.isFalse =>
      exact fun hfound hfound' => absurd (hfound'.trans hfound.symm) (hold _ hother hfrom')
    case isFalse.isTrue =>
      exact fun hfound hfound' => absurd (hfound.trans hfound'.symm) (hold obj hobj hfrom)
    case isFalse.isFalse => exact hforwarding.injective obj hobj hfrom other hother hfrom' found
  case copies =>
    intro found hmem hnew
    rw [h.allocated_eq, mem_insert] at hmem
    obtain rfl | hmem := hmem
    · exact ⟨ref, h.mem, h.inFrom, h.forwardingAddressOf_self, h.granted⟩
    · obtain ⟨obj, hobj, hfrom, hfound, hgranted⟩ := hforwarding.copies _ hmem hnew
      have hne : obj ≠ ref := by
        rintro rfl
        exact absurd (hnone.symm.trans hfound) (some_ne_none found).symm
      exact ⟨obj, hobj, hfrom, (h.forwardingAddressOf_of_ne hforwarding hobj hne).trans hfound,
        hgranted⟩
  case ages_eq =>
    intro obj hobj
    rw [h.ages_eq obj (h.ne_address hforwarding hobj), hforwarding.ages_eq obj hobj]
  case copies_marked =>
    intro hwhole obj hobj hfrom hstays found hfound
    rw [hfwd obj hobj] at hfound
    split at hfound
    case isTrue heq =>
      cases hfound
      exact h.marked hwhole (heq ▸ hstays)
    case isFalse =>
      have hne : found ≠ addr := fun heq => hold obj hobj hfrom (heq ▸ hfound)
      rw [h.markBits_eq _ hne]
      exact hforwarding.copies_marked hwhole obj hobj hfrom hstays _ hfound

end

end

end Copy

/-! ## Reaching an object -/

theorem Updated.congr {waits' : ℕ → Prop}
    (h : ss.Updated heap old new waits) (hwaits : ∀ off, waits' off ↔ waits off)
    (himage : ∀ off ∈ old.refOffsets, ∀ found, ss.image heap (old.refAt off) = some found →
      ss.image heap' (old.refAt off) = some found) : ss.Updated heap' old new waits' where
  refOffsets_eq := h.refOffsets_eq
  referentOffset_eq := h.referentOffset_eq
  nativeRoots_eq := h.nativeRoots_eq
  length_eq := h.length_eq
  byte_eq := h.byte_eq
  waiting off hoff hwait := h.waiting off hoff ((hwaits off).mp hwait)
  visited off hoff hdone :=
    himage off hoff _ (h.visited off hoff fun hwait => hdone ((hwaits off).mpr hwait))

theorem Updated.refl (object : Object) (hwaits : ∀ off, waits off) :
    ss.Updated heap object object waits where
  refOffsets_eq := rfl
  referentOffset_eq := rfl
  nativeRoots_eq := rfl
  length_eq := rfl
  byte_eq _ _ := rfl
  waiting _ _ _ := rfl
  visited off _ hdone := absurd (hwaits off) hdone

section

variable (hstart : ss.WellFormed start cells) (hobj : obj ∈ start.allocated)
  (htraced : ss.isTraced obj = true)

include hstart hobj htraced

theorem WellFormed.valid_field (hoff : off ∈ (start.object obj).refOffsets) :
    ss.Valid start ((start.object obj).refAt off) :=
  hstart.fields obj hobj htraced off hoff

theorem WellFormed.image_eq_none : ss.image start obj = none := by
  cases hfrom : ss.inFromSpace obj with
  | true => rw [image_of_from hfrom, hstart.notForwarded obj hobj hfrom]
  | false =>
    have hmarked : ss.isMarkedInBitmap obj = true := by
      rw [isTraced, hfrom, Bool.false_or, Bool.and_eq_true] at htraced
      exact htraced.2
    rw [image_of_traced hfrom htraced, hstart.unmarked obj hobj hmarked, if_neg Bool.false_ne_true]

end

/-- The step that gives an object its image: the image is as the object was
before the collection, all other images are as they were. -/
structure Reaches (ss : SemiSpace) (start heap : Heap) (ref address : ℕ) (heap' : Heap) :
    Prop where
  mem : ref ∈ start.allocated
  traced : ss.isTraced ref = true
  unmarked : ss.image heap ref = none
  image_eq : ∀ {other}, ss.Valid start other →
    ss.image heap' other = if other = ref then some address else ss.image heap other
  object_eq : heap'.object address = start.object ref
  images : ∀ obj ∈ start.allocated, ss.isTraced obj = true →
    ∀ found, ss.image heap obj = some found →
      found ≠ address ∧ heap'.object found = heap.object found
  others : ∀ obj ∈ start.allocated, ss.inFromSpace obj = false → obj ≠ ref →
    heap'.object obj = heap.object obj

namespace Reaches

section

variable (h : ss.Reaches start heap ref addr heap')

include h

theorem image_mono {other found : ℕ}
    (hvalid : ss.Valid start other) (himage : ss.image heap other = some found) :
    ss.image heap' other = some found := by
  have hne : other ≠ ref := by
    rintro rfl
    rw [h.unmarked] at himage
    exact absurd himage (some_ne_none found).symm
  rw [h.image_eq hvalid, if_neg hne, himage]

theorem image_self : ss.image heap' ref = some addr := by
  rw [h.image_eq fun _ => h.mem, if_pos rfl]

theorem reached_eq : ss.reached start heap' = insert ref (ss.reached start heap) := by
  ext obj
  rw [mem_insert, mem_reached, mem_reached]
  constructor
  · rintro ⟨hobj, htraced, hsome⟩
    rw [h.image_eq fun _ => hobj] at hsome
    split at hsome
    case isTrue heq => exact .inl heq
    case isFalse => exact .inr ⟨hobj, htraced, hsome⟩
  · rintro (rfl | ⟨hobj, htraced, hsome⟩)
    · exact ⟨h.mem, h.traced, by rw [h.image_self]; rfl⟩
    · obtain ⟨found, hfound⟩ := isSome_iff_exists.mp hsome
      exact ⟨hobj, htraced, by rw [h.image_mono (fun _ => hobj) hfound]; rfl⟩

theorem not_mem_reached : ref ∉ ss.reached start heap := fun hmem => by
  have hsome := (mem_reached.mp hmem).2.2
  rw [h.unmarked] at hsome
  exact Bool.false_ne_true hsome

theorem tracing (htracing : ss.Tracing start cells heap gray cur offsets)
    (hstart : ss.WellFormed start cells) (hreach : ss.Reachable start cells ref) :
    ss.Tracing start cells heap' (addr ::ₘ gray) cur offsets := by
  have hnotGray : addr ∉ gray := fun hmem => by
    obtain ⟨obj, hobj, htraced, himage⟩ := htracing.gray_reached _ hmem
    exact (h.images obj hobj htraced _ himage).1 rfl
  constructor
  case content =>
    intro obj hobj htraced found himage
    rw [h.image_eq fun _ => hobj] at himage
    split at himage
    case isTrue heq =>
      cases himage
      subst heq
      rw [h.object_eq]
      exact Updated.refl _ fun _ => .inl (mem_cons_self ..)
    case isFalse =>
      obtain ⟨hne, hsame⟩ := h.images obj hobj htraced _ himage
      rw [hsame]
      refine (htracing.content obj hobj htraced _ himage).congr (fun off => ?_)
        fun off hoff field hfield => h.image_mono (hstart.valid_field hobj htraced hoff) hfield
      rw [Multiset.mem_cons, or_iff_right hne]
  case untouched =>
    intro obj hobj hfrom himage
    rw [h.image_eq fun _ => hobj] at himage
    split at himage
    case isTrue => exact absurd himage (some_ne_none addr)
    case isFalse hne =>
      rw [h.others obj hobj hfrom hne]
      exact htracing.untouched obj hobj hfrom himage
  case reachable =>
    intro obj hobj
    rw [h.reached_eq, mem_insert] at hobj
    obtain rfl | hobj := hobj
    · exact hreach
    · exact htracing.reachable obj hobj
  case gray_nodup => exact nodup_cons.mpr ⟨hnotGray, htracing.gray_nodup⟩
  case gray_reached =>
    intro found hfound
    obtain rfl | hfound := mem_cons.mp hfound
    · exact ⟨ref, h.mem, h.traced, h.image_self⟩
    · obtain ⟨obj, hobj, htraced, himage⟩ := htracing.gray_reached _ hfound
      exact ⟨obj, hobj, htraced, h.image_mono (fun _ => hobj) himage⟩

end

end Reaches

section

variable (hforwarding : ss.Forwarding start heap) (hstart : ss.WellFormed start cells)

include hforwarding hstart

theorem Copy.reaches (h : ss.Copy start heap ref addr heap')
    (hnone : heap.forwardingAddressOf ref = none) : ss.Reaches start heap ref addr heap' where
  mem := h.mem
  traced := isTraced_of_inFromSpace h.inFrom
  unmarked := by rw [image_of_from h.inFrom, hnone]
  image_eq hvalid := h.image_eq hforwarding hvalid
  object_eq := h.copied
  images obj hobj _ found himage := by
    obtain ⟨hmem, hnotFrom, -⟩ := hforwarding.image_cases hstart hobj himage
    have hne : found ≠ addr := fun heq => h.fresh (heq ▸ hmem)
    exact ⟨hne, h.others _ (ne_of_from h.inFrom hnotFrom).symm hne⟩
  others obj hobj _ hne := h.others obj hne (h.ne_address hforwarding hobj)

/-- Setting the mark bit of an object outside the from-space reaches it. -/
theorem Tracing.reaches_of_mark (h : ss.Tracing start cells heap gray cur offsets)
    (hmem : ref ∈ start.allocated) (hfrom : ss.inFromSpace ref = false)
    (htraced : ss.isTraced ref) (hmark : heap.markBits ref = false) :
    ss.Reaches start heap ref ref (heap.setMarkBit ref) where
  mem := hmem
  traced := htraced
  unmarked := by rw [image_of_traced hfrom htraced, hmark, if_neg Bool.false_ne_true]
  image_eq {other} hvalid := by
    split
    case isTrue heq =>
      subst heq
      rw [image_of_traced hfrom htraced]
      exact if_pos (update_self ..)
    case isFalse hne =>
      simp only [image, setMarkBit, forwardingAddressOf, update_of_ne hne]
  object_eq := h.untouched ref hmem hfrom
    (by rw [image_of_traced hfrom htraced, hmark, if_neg Bool.false_ne_true])
  images obj hobj _ _ himage := by
    refine ⟨?_, rfl⟩
    rintro rfl
    obtain ⟨-, -, ⟨-, hnew⟩ | ⟨-, rfl⟩⟩ := hforwarding.image_cases hstart hobj himage
    · exact hnew hmem
    · rw [image_of_traced hfrom htraced, hmark, if_neg Bool.false_ne_true] at himage
      exact absurd himage (some_ne_none _).symm
  others _ _ _ _ := rfl

end

/-! ## Visiting a field -/

section

variable (hnotFrom : ss.inFromSpace cur = false)

include hnotFrom

/-- Assigning to an object outside the from-space changes no image. -/
theorem image_assign (v : ℕ) : ss.image (heap.assign cur off v) ref = ss.image heap ref := by
  cases hfrom : ss.inFromSpace ref with
  | true =>
    have hne := ne_of_from hfrom hnotFrom
    rw [image_of_from hfrom, image_of_from hfrom, forwardingAddressOf,
      object_assign_of_ne _ hne, forwardingAddressOf]
  | false => simp only [image, hfrom]; rfl

theorem Forwarding.assign (h : ss.Forwarding start heap)
    (v : ℕ) : ss.Forwarding start (heap.assign cur off v) := by
  exact h.congr rfl (fun _ _ hfrom => object_assign_of_ne _ (ne_of_from hfrom hnotFrom)) rfl
    fun _ hmark => hmark

theorem reached_assign (v : ℕ) :
    ss.reached start (heap.assign cur off v) = ss.reached start heap := by
  refine filter_congr fun obj _ => ?_
  rw [image_assign hnotFrom]

theorem Updated.assign (h : ss.Updated heap old new waits)
    (hoff : off ∈ old.refOffsets) (hvalue : ss.image heap (old.refAt off) = some v)
    (hlt : v < 2 ^ 32) : ss.Updated (heap.assign cur off v) old (new.setRef off v)
      fun other => waits other ∧ other ≠ off := by
  have hfield : ∀ other ∈ old.refOffsets, other ∈ new.fields := fun other hother =>
    new.mem_fields_of_ref (h.refOffsets_eq ▸ hother)
  constructor
  case refOffsets_eq => exact h.refOffsets_eq
  case referentOffset_eq => exact h.referentOffset_eq
  case nativeRoots_eq => exact h.nativeRoots_eq
  case length_eq => exact (length_writeWord ..).trans h.length_eq
  case byte_eq =>
    intro i houtside
    exact (getD_writeWord_of_outside _ _ (houtside off hoff)).trans (h.byte_eq _ houtside)
  case waiting =>
    rintro other hother ⟨hwait, hne⟩
    rw [new.refAt_setRef_of_ne (hfield off hoff) (hfield _ hother) hne]
    exact h.waiting _ hother hwait
  case visited =>
    intro other hother hdone
    rw [image_assign hnotFrom]
    by_cases heq : other = off
    · subst heq
      rw [new.refAt_setRef (hfield _ hoff) hlt, hvalue]
    · rw [new.refAt_setRef_of_ne (hfield off hoff) (hfield _ hother) heq]
      exact h.visited _ hother fun hwait => hdone ⟨hwait, heq⟩

end

namespace Tracing

section

variable (hforwarding : ss.Forwarding start heap) (hstart : ss.WellFormed start cells)
  (hobj : obj ∈ start.allocated) (himage : ss.image heap obj = some cur)

include hforwarding hstart hobj himage

theorem visit (h : ss.Tracing start cells heap gray cur (off :: offsets))
    (htraced : ss.isTraced obj) (hnotGray : cur ∉ gray)
    (hoff : off ∈ (start.object obj).refOffsets) (hnodup : (off :: offsets).Nodup)
    (hvalue : ss.image heap ((start.object obj).refAt off) = some v) (hlt : v < 2 ^ 32) :
    ss.Tracing start cells (heap.assign cur off v) gray cur offsets := by
  have hnotFrom := (hforwarding.image_cases hstart hobj himage).2.1
  constructor
  case content =>
    intro other hother htraced' found hfound
    rw [image_assign hnotFrom] at hfound
    have hupdated := h.content _ hother htraced' _ hfound
    by_cases heq : found = cur
    · subst heq
      obtain rfl := hforwarding.image_injective hstart hobj hother himage hfound
      rw [object_assign_self]
      refine (hupdated.assign hnotFrom hoff hvalue hlt).congr (fun field => ?_)
        fun _ _ _ hsame => hsame
      simp only [hnotGray, false_or, true_and, List.mem_cons]
      constructor
      · exact fun hmem => ⟨.inr hmem, fun heq => (List.nodup_cons.mp hnodup).1 (heq ▸ hmem)⟩
      · exact fun hmem => hmem.1.resolve_left hmem.2
    · rw [object_assign_of_ne _ heq]
      refine hupdated.congr (fun field => ?_) fun field _ found' hsame => ?_
      · simp only [heq, false_and]
      · rw [image_assign hnotFrom, hsame]
  case untouched =>
    intro other hother hfrom hnone
    rw [image_assign hnotFrom] at hnone
    have hne : other ≠ cur := by
      rintro rfl
      obtain ⟨-, -, ⟨-, hnew⟩ | ⟨-, rfl⟩⟩ := hforwarding.image_cases hstart hobj himage
      · exact hnew hother
      · exact absurd (hnone.symm.trans himage) (some_ne_none _).symm
    rw [object_assign_of_ne _ hne]
    exact h.untouched _ hother hfrom hnone
  case reachable =>
    intro other hother
    rw [reached_assign hnotFrom] at hother
    exact h.reachable _ hother
  case gray_nodup => exact h.gray_nodup
  case gray_reached =>
    intro found hfound
    obtain ⟨other, hother, htraced', himage'⟩ := h.gray_reached _ hfound
    exact ⟨other, hother, htraced', (image_assign hnotFrom v).trans himage'⟩

/-- The object that is popped becomes the current one, with all its fields to visit. -/
theorem pop (h : ss.Tracing start cells heap (cur ::ₘ gray) addr []) :
    ss.Tracing start cells heap gray cur (start.object obj).refOffsets where
  content other hother htraced found hfound := by
    by_cases heq : found = cur
    · subst heq
      obtain rfl := hforwarding.image_injective hstart hobj hother himage hfound
      have hupdated := h.content obj hobj htraced _ hfound
      have hall : ∀ off, found ∈ found ::ₘ gray ∨ found = addr ∧ off ∈ ([] : List ℕ) :=
        fun _ => .inl (mem_cons_self ..)
      refine ⟨hupdated.refOffsets_eq, hupdated.referentOffset_eq, hupdated.nativeRoots_eq,
        hupdated.length_eq, hupdated.byte_eq,
        fun off hoff _ => hupdated.waiting off hoff (hall off),
        fun off hoff hdone => absurd (.inr ⟨rfl, hoff⟩) hdone⟩
    · refine (h.content _ hother htraced _ hfound).congr (fun off => ?_) fun _ _ _ hsame => hsame
      simp only [heq, false_and, Multiset.mem_cons, false_or, List.not_mem_nil, and_false]
  untouched := h.untouched
  reachable := h.reachable
  gray_nodup := (nodup_cons.mp h.gray_nodup).2
  gray_reached found hfound := h.gray_reached found (mem_cons_of_mem hfound)

end

/-- No object is current once all its fields have been visited. -/
theorem finish (h : ss.Tracing start cells heap gray cur []) :
    ss.Tracing start cells heap gray addr [] where
  content obj hobj htraced found hfound := (h.content obj hobj htraced found hfound).congr
      (fun off => by simp only [List.not_mem_nil, and_false]) fun _ _ _ hsame => hsame
  untouched := h.untouched
  reachable := h.reachable
  gray_nodup := h.gray_nodup
  gray_reached := h.gray_reached

/-- Bits that no image depends on may change. -/
theorem congr (h : ss.Tracing start cells heap gray cur offsets)
    (hobject : heap'.object = heap.object)
    (himage : ∀ ref, ss.image heap' ref = ss.image heap ref) :
    ss.Tracing start cells heap' gray cur offsets where
  content obj hobj htraced found hfound := by
    rw [himage] at hfound
    rw [hobject]
    exact (h.content obj hobj htraced _ hfound).congr (fun _ => Iff.rfl)
      fun _ _ _ hsame => by rw [himage, hsame]
  untouched obj hobj hfrom hnone := by
    rw [himage] at hnone
    rw [hobject]
    exact h.untouched obj hobj hfrom hnone
  reachable obj hobj := by
    refine h.reachable obj ?_
    rw [mem_reached, himage] at hobj
    exact mem_reached.mpr hobj
  gray_nodup := h.gray_nodup
  gray_reached _ hfound := by
    obtain ⟨obj, hobj, htraced, hfound⟩ := h.gray_reached _ hfound
    exact ⟨obj, hobj, htraced, by rw [himage, hfound]⟩

theorem initial (hstart : ss.WellFormed start cells) : ss.Tracing start cells start 0 cur [] := by
  have hnone : ∀ {obj}, obj ∈ start.allocated → ss.isTraced obj = true →
      ss.image start obj = none := hstart.image_eq_none
  constructor
  case content =>
    intro obj hobj htraced found hfound
    rw [hnone hobj htraced] at hfound
    exact absurd hfound (some_ne_none found).symm
  case untouched => exact fun _ _ _ _ => rfl
  case reachable =>
    intro obj hobj
    obtain ⟨hmem, htraced, hsome⟩ := mem_reached.mp hobj
    rw [hnone hmem htraced] at hsome
    exact absurd hsome Bool.false_ne_true
  case gray_nodup => exact nodup_zero
  case gray_reached => exact fun found hfound => absurd hfound (notMem_zero found)

end Tracing

end SemiSpace

end NougatArt.Gc
