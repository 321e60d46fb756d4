import NougatArt.Moves.ScratchResolverSafe

/-!
# The operations of the resolver lose no value

Marking a move, performing it, moving its value to a scratch location and performing a
pending move are transfers of one value.
-/

namespace NougatArt.Moves

open List Function Bool MoveOperands

namespace ScratchResolver

variable {count : ℕ} {setting : Setting count} {resolver after : ScratchResolver count}

/-- The choice of scratch locations: one that `GetScratchLocation` returns, or a location outside
of the moves that is not in use. It can hold what a location of the given kind holds. -/
structure Lawful (layout : Layout) (pool : Location → Prop) (backend : Backend count) :
    Prop where
  allocate : ∀ resolver kind,
    let allocated := backend.allocateScratchLocationFor resolver kind
    ((∃ scratchKind, allocated.1 = resolver.getScratchLocation scratchKind ∧
        allocated.1 ≠ .noLocation) ∨
      pool allocated.1 ∧ resolver.isBlockedByMoves allocated.1 = false) ∧
    (∀ location, layout.Operand location → location.kind = kind →
      (location.words layout.widths).length ≤ (allocated.1.words layout.widths).length) ∧
    ∀ scratch ∈ allocated.2, scratch ∈ resolver.scratches ∨ pool scratch
  free : ∀ scratches location, backend.freeScratchLocation scratches location ⊆ scratches

/-- `GetScratchLocation` returns a scratch location or a destination, and none that is blocked. -/
theorem getScratchLocation_spec {kind : Kind}
    (hfound : resolver.getScratchLocation kind ≠ .noLocation) :
    (resolver.getScratchLocation kind).kind = kind ∧
      resolver.isBlockedByMoves (resolver.getScratchLocation kind) = false ∧
      (resolver.getScratchLocation kind ∈ resolver.scratches ∨
        ∃ index, resolver.getScratchLocation kind = (resolver.moves index).destination) := by
  simp only [getScratchLocation] at hfound ⊢
  cases hscr : resolver.scratches.find? fun loc =>
      loc.kind = kind && !resolver.isBlockedByMoves loc with
  | some loc =>
    have hfree := find?_some hscr
    simp only [and_eq_true, decide_eq_true_eq, not_eq_true'] at hfree
    exact ⟨hfree.1, hfree.2, .inl (mem_of_find?_eq_some hscr)⟩
  | none =>
    rw [hscr] at hfound
    cases hmove : ((finRange count).map fun index =>
        (resolver.moves index).destination).find? fun loc =>
          loc.kind = kind && !resolver.isBlockedByMoves loc with
    | some loc =>
      have hfree := find?_some hmove
      simp only [and_eq_true, decide_eq_true_eq, not_eq_true'] at hfree
      obtain ⟨index, -, hindex⟩ := mem_map.mp (mem_of_find?_eq_some hmove)
      exact ⟨hfree.1, hfree.2, .inr ⟨index, hindex.symm⟩⟩
    | none =>
      rw [hmove] at hfound
      exact absurd rfl hfound

variable {backend : Backend count} {index : Fin count}

variable (setting resolver) in
/-- A scratch location is one of the pool or the destination of a move that is not in progress. -/
def IsScratch (scratch : Location) : Prop := setting.pool scratch ∨ ∃ other, resolver.Live other ∧
    (resolver.moves other).destination = (setting.moves other).destination ∧
    scratch = (setting.moves other).destination

theorem Lawful.allocate_spec (hlawful : Lawful setting.layout setting.pool backend)
    (hsafe : Safe setting resolver)
    (kind : Kind) :
    resolver.isBlockedByMoves (backend.allocateScratchLocationFor resolver kind).1 = false ∧
      IsScratch setting resolver (backend.allocateScratchLocationFor resolver kind).1 := by
  rcases (hlawful.allocate resolver kind).1 with ⟨scratchKind, heq, hne⟩ | ⟨hpool, hunblocked⟩
  · rw [heq] at hne ⊢
    obtain ⟨-, hunblocked, hscr | ⟨other, hother⟩⟩ := getScratchLocation_spec hne
    · exact ⟨hunblocked, .inl (hsafe.scratches _ hscr)⟩
    · have hlive : resolver.Live other := by
        by_contra hnot
        exact hne (hother.trans (hsafe.eliminated _ hnot))
      have hdest := (hsafe.destination _ hlive).resolve_right fun hnone => hne (hother.trans hnone)
      exact ⟨hunblocked, .inr ⟨other, hlive, hdest, hother.trans hdest⟩⟩
  · exact ⟨hunblocked, .inl hpool⟩

variable {scratch : Location} {other : Fin count}

section

variable (hscr : IsScratch setting resolver scratch)

include hscr

theorem IsScratch.operand : setting.layout.Operand scratch := by
  rcases hscr with hpool | ⟨other, -, -, rfl⟩
  · exact setting.pool_operand _ hpool
  · exact setting.destination other

/-- Scratch locations are apart from the destinations of the other moves. -/
theorem IsScratch.apart (hother : ¬ resolver.Live other ∨
      (resolver.moves other).destination ≠ (setting.moves other).destination) :
    (setting.moves other).destination.overlapsWith scratch = false := by
  rcases hscr with hpool | ⟨borrowed, hlive, hdest, rfl⟩
  · rw [Location.overlapsWith_comm]
    exact setting.pool_apart _ hpool other
  · apply setting.apart
    rintro rfl
    rcases hother with hnot | hne
    · exact hnot hlive
    · exact hne hdest

theorem writable_scratch (hunblocked : resolver.isBlockedByMoves scratch = false)
    (hwidth : (setting.moves index).width ≤ (scratch.words setting.layout.widths).length) :
    Writable setting resolver index scratch := by
  refine ⟨hscr.operand, hunblocked, hwidth,
    fun other _ hother _ => hscr.apart (.inl hother), fun word hword => ?_⟩
  rcases hscr with hpool | ⟨borrowed, -, -, rfl⟩
  · exact .inr ⟨scratch, hpool, hword⟩
  · exact .inl ⟨borrowed, hword⟩

end

theorem writable_destination
    (hunblocked : resolver.isBlockedByMoves (setting.moves index).destination = false) :
    Writable setting resolver index (setting.moves index).destination :=
  ⟨setting.destination index, hunblocked, setting.width index,
    fun other hne _ _ => setting.apart other _ hne, fun _ hword => .inl ⟨index, hword⟩⟩

/-! ### The moves after each operation -/

theorem moves_setDestination (destination : Location) (other : Fin count) :
    (resolver.setDestination index destination).moves other =
      if other = index then { resolver.moves index with destination } else resolver.moves other :=
  update_apply _ _ _ _

theorem moves_eliminate (other : Fin count) : (resolver.eliminate index).moves other =
      if other = index then (resolver.moves index).eliminate else resolver.moves other :=
  update_apply _ _ _ _

theorem moves_performTo (hlive : resolver.Live index) (destination : Location) (other : Fin count) :
    (resolver.performTo index destination).moves other =
      if other = index then (resolver.moves index).eliminate
      else if (resolver.moves other).source = (resolver.moves index).source then
        { resolver.moves other with source := destination }
      else resolver.moves other := by
  change (if (((resolver.emit (resolver.moves index).source destination).eliminate index).moves
      other).source = (resolver.moves index).source then _ else _) = _
  rw [moves_eliminate]
  by_cases heq : other = index
  · rw [if_pos heq, if_pos heq]
    exact if_neg fun hsame => hlive hsame.symm
  · rw [if_neg heq, if_neg heq]
    rfl

/-! ### The values after each operation -/

theorem live_setDestination (destination : Location) (other : Fin count) :
    (resolver.setDestination index destination).Live other ↔ resolver.Live other := by
  rw [Live, Live, moves_setDestination]
  by_cases heq : other = index
  · rw [if_pos heq, heq]
  · rw [if_neg heq]

variable {move : MoveOperands}

/-- A move that may stand in the place of another: the source stays, or the value is in the
destination. -/
structure Kept (setting : Setting count) (resolver : ScratchResolver count) (index : Fin count)
    (move : MoveOperands) : Prop where
  is64BitMove : move.is64BitMove = (resolver.moves index).is64BitMove
  left : move.source ≠ .noLocation → move.source = (resolver.moves index).source ∧
    (move.destination = (setting.moves index).destination ∨ move.destination = .noLocation)
  done : move.source = .noLocation → move.destination = .noLocation ∧
    (resolver.Live index → setting.Holds resolver.emitted (setting.moves index).destination index)

section

variable (hsafe : Safe setting resolver)

include hsafe

theorem Safe.kept (index : Fin count) : Kept setting resolver index (resolver.moves index) :=
  ⟨rfl, fun hlive => ⟨rfl, hsafe.destination _ hlive⟩,
    fun hnone => ⟨hsafe.eliminated index (not_not.mpr hnone), fun hlive => absurd hnone hlive⟩⟩

theorem Safe.update (hkept : Kept setting resolver index move) :
    Safe setting { resolver with moves := update resolver.moves index move } := by
  have hmoves : ∀ other, Kept setting resolver other
      (Function.update resolver.moves index move other) :=
    (forall_update_iff _ _).mpr ⟨hkept, fun other _ => hsafe.kept other⟩
  have hbefore : ∀ other, (Function.update resolver.moves index move other).source ≠ .noLocation →
      resolver.Live other := fun other hother hnone =>
    hother (((hmoves other).left hother).1.trans hnone)
  refine ⟨fun other hother => ((hmoves other).done (not_not.mp hother)).1,
    fun other hother => ((hmoves other).left hother).2,
    fun other => (hmoves other).is64BitMove.trans (hsafe.is64BitMove other),
    fun other hother => ?_, hsafe.pendingSource, fun pending hpending => ?_, hsafe.pendingNodup,
    fun other another hother hsame => ?_, fun pending hpending other hsame => ?_,
    fun other hother => ?_, hsafe.pending, fun other hother hfree => ?_, hsafe.scratches,
    hsafe.changed⟩
  · rw [((hmoves other).left hother).1]
    exact hsafe.source other (hbefore _ hother)
  · obtain ⟨other, hother, hpending'⟩ := hsafe.pendingDestination _ hpending
    exact ⟨other, fun hlive => hother (hbefore _ hlive), hpending'⟩
  · have hanother := ((hmoves another).left (hsame ▸ hother)).1
    rw [((hmoves other).left hother).1, hanother] at hsame
    exact hsafe.fits _ _ (hbefore _ hother) hsame
  · have hother := ((hmoves other).left
      (hsame ▸ (hsafe.pendingSource _ hpending).ne_noLocation)).1
    exact hsafe.pendingFits _ hpending other (hother.symm.trans hsame)
  · rw [((hmoves other).left hother).1]
    exact hsafe.live other (hbefore _ hother)
  · by_cases hlive : resolver.Live other
    · exact ((hmoves other).done (not_not.mp hother)).2 hlive
    · exact hsafe.done _ hlive hfree

theorem Safe.setDestination (hlive : resolver.Live index) {destination : Location}
    (hdest : destination = (setting.moves index).destination ∨ destination = .noLocation) :
    Safe setting (resolver.setDestination index destination) :=
  hsafe.update ⟨rfl, fun _ => ⟨rfl, hdest⟩, fun hnone => absurd hnone hlive⟩

end

theorem not_live_eliminate : ¬ (resolver.eliminate index).Live index := by
  intro hlive
  rw [Live, moves_eliminate, if_pos rfl] at hlive
  exact hlive rfl

theorem live_of_live_eliminate (hlive : (resolver.eliminate index).Live other) :
    other ≠ index ∧ resolver.Live other := by
  have hne : other ≠ index := by
    rintro rfl
    exact not_live_eliminate hlive
  rw [Live, moves_eliminate, if_neg hne] at hlive
  exact ⟨hne, hlive⟩

section

variable (hsafe : Safe setting resolver) (hlive : resolver.Live index)

include hsafe hlive

/-- A move whose source is its destination needs no step. -/
theorem Safe.eliminate (hred : (resolver.moves index).source = (setting.moves index).destination) :
    Safe setting (resolver.eliminate index) :=
  hsafe.update ⟨rfl, fun hsome => absurd rfl hsome,
    fun _ => ⟨rfl, fun _ => hred ▸ hsafe.live _ hlive⟩⟩

theorem Safe.fits_of_eq (hsame : (resolver.moves other).source = (resolver.moves index).source) :
    (setting.moves other).width ≤
      ((setting.moves index).destination.words setting.layout.widths).length :=
  hsafe.fits _ _ (by rwa [Live, hsame]) hsame

/-- No pending move has the destination of a move that was not performed. -/
theorem Safe.pending_ne (hmove : move ∈ resolver.pendingMoves) :
    move.destination ≠ (setting.moves index).destination := by
  obtain ⟨other, hother, heq, -⟩ := hsafe.pendingDestination _ hmove
  intro hsame
  obtain rfl := destination_injective (heq.symm.trans hsame)
  exact hother hlive

theorem Safe.transfer_performTo
    (loc : Location) {pendingMoves : List MoveOperands} {scratches : List Location}
    (hscratches : ∀ scratch ∈ scratches, setting.pool scratch)
    (hpend : pendingMoves = resolver.pendingMoves ∧ loc = (setting.moves index).destination ∨
      pendingMoves = resolver.pendingMoves ++ [⟨loc, (setting.moves index).destination,
        (setting.moves index).is64BitMove⟩]) :
    Transfer setting resolver { resolver.performTo index loc with pendingMoves, scratches }
      index (resolver.moves index).source loc := by
  refine ⟨rfl, hlive, ?_, fun other hne => ?_, ⟨resolver.pendingMoves,
    pendingMoves.drop resolver.pendingMoves.length, ?_, List.Sublist.refl _, fun move => ?_, ?_⟩,
    hscratches⟩
  · change ((resolver.performTo index loc).moves index).source = _ ∧
      ((resolver.performTo index loc).moves index).destination = _ ∧
      ((resolver.performTo index loc).moves index).is64BitMove = _
    rw [moves_performTo hlive, if_pos rfl]
    exact ⟨rfl, rfl, rfl⟩
  · change (resolver.performTo index loc).moves other = _ ∨
      _ ∧ (resolver.performTo index loc).moves other = _
    rw [moves_performTo hlive, if_neg hne]
    by_cases hsame : (resolver.moves other).source = (resolver.moves index).source
    · rw [if_pos hsame]
      exact .inr ⟨hsame, rfl⟩
    · rw [if_neg hsame]
      exact .inl rfl
  · rcases hpend with ⟨rfl, -⟩ | rfl
    · rw [drop_length, append_nil]
    · rw [drop_left]
  · exact ⟨fun hmove => ⟨hmove, hsafe.pending_ne hlive hmove⟩, fun hmove => hmove.1⟩
  · rcases hpend with ⟨rfl, heq⟩ | rfl
    · exact .inl ⟨drop_length, heq⟩
    · exact .inr drop_left

theorem Safe.performTo
    (hunblocked : resolver.isBlockedByMoves (setting.moves index).destination = false) :
    Safe setting (resolver.performTo index (setting.moves index).destination) :=
  hsafe.transfer (hsafe.transfer_performTo hlive _ hsafe.scratches (.inl ⟨rfl, rfl⟩))
    (writable_destination hunblocked) (hsafe.live _ hlive)
    fun _ hsame => and_self_iff.mpr (hsafe.fits_of_eq hlive hsame)

end

/-- The scratch locations that are left after some were freed. -/
theorem Lawful.freeScratches_subset (hlawful : Lawful setting.layout setting.pool backend)
    (resolver : ScratchResolver count) (src : Location) :
    (resolver.freeScratches backend src).scratches ⊆ resolver.scratches := by
  refine foldlRecOn (motive := fun scratches => scratches ⊆ resolver.scratches) _ _
    (List.Subset.refl _) fun scratches hsubset i _ => ?_
  split
  · split_ifs
    · exact List.Subset.trans (hlawful.free scratches src) hsubset
    · exact hsubset
  · exact hsubset

theorem Safe.mem_erase (hsafe : Safe setting resolver) (hmove : move ∈ resolver.pendingMoves)
    (other : MoveOperands) : other ∈ resolver.pendingMoves.erase move ↔
      other ∈ resolver.pendingMoves ∧ other.destination ≠ move.destination := by
  have hnodup : resolver.pendingMoves.Nodup :=
    hsafe.pendingNodup.imp fun hne heq => hne (congrArg MoveOperands.destination heq)
  rw [hnodup.mem_erase_iff]
  constructor
  · rintro ⟨hne, hother⟩
    have hsymmetric : Std.Symm fun move other : MoveOperands =>
        move.destination ≠ other.destination := ⟨fun _ _ => Ne.symm⟩
    exact ⟨hother, hsafe.pendingNodup.forall hother hmove hne⟩
  · exact fun ⟨hother, hne⟩ => ⟨fun heq => hne (heq ▸ rfl), hother⟩

variable (hlawful : Lawful setting.layout setting.pool backend) (hsafe : Safe setting resolver)

include hlawful hsafe

/-- A scratch location can hold what the moves from a source read. -/
theorem Lawful.fits {src : Location} (hsrc : setting.layout.Operand src)
    (hsame : (resolver.moves other).source = src) : (setting.moves other).width ≤
      ((backend.allocateScratchLocationFor resolver src.kind).1.words
        setting.layout.widths).length := by
  have hlive : resolver.Live other := by
    rw [Live, hsame]
    exact hsrc.ne_noLocation
  have hlen := (hsafe.live _ hlive).length fun _ => 0
  rw [hsame, Target.read_of_not_constant hsrc.wellFormed.isConstant, length_map] at hlen
  exact hlen.trans ((hlawful.allocate resolver _).2.1 _ hsrc rfl)

theorem Lawful.writable (hsrc : setting.layout.Operand (resolver.moves index).source) :
    Writable setting resolver index
      (backend.allocateScratchLocationFor resolver (resolver.moves index).source.kind).1 := by
  obtain ⟨hunblocked, hscr⟩ := hlawful.allocate_spec hsafe (resolver.moves index).source.kind
  exact writable_scratch hscr hunblocked (hlawful.fits hsafe hsrc rfl)

section

variable (hlive : resolver.Live index)
  (hdest : (resolver.moves index).destination = (setting.moves index).destination)

include hlive hdest

theorem Safe.transfer_performToScratch :
    Transfer setting resolver (resolver.performToScratch backend index) index
      (resolver.moves index).source
      (backend.allocateScratchLocationFor resolver (resolver.moves index).source.kind).1 := by
  have hpend : resolver.pendingMoves ++
      [{ resolver.moves index with source := (backend.allocateScratchLocationFor resolver
        (resolver.moves index).source.kind).1 }] = resolver.pendingMoves ++
      [⟨(backend.allocateScratchLocationFor resolver (resolver.moves index).source.kind).1,
        (setting.moves index).destination, (setting.moves index).is64BitMove⟩] := by
    rw [← hdest, ← hsafe.is64BitMove index]
  exact hsafe.transfer_performTo hlive _ (fun scratch hscr =>
    ((hlawful.allocate resolver (resolver.moves index).source.kind).2.2 scratch hscr).elim
      (hsafe.scratches scratch) id) (.inr hpend)

theorem Safe.performToScratch (hsrc : setting.layout.Operand (resolver.moves index).source) :
    Safe setting (resolver.performToScratch backend index) :=
  hsafe.transfer (hsafe.transfer_performToScratch hlawful hlive hdest)
    (hlawful.writable hsafe hsrc) (hsafe.live _ hlive)
    fun _ hsame => ⟨hlawful.fits hsafe hsrc hsame, hsafe.fits_of_eq hlive hsame⟩

end

theorem Safe.transfer_performPendingMove (hmove : move ∈ resolver.pendingMoves)
    (hindex : ¬ resolver.Live index)
    (hdest : move.destination = (setting.moves index).destination) :
    Transfer setting resolver (resolver.performPendingMove backend move) index move.source
      move.destination := by
  have hsrc : move.source ≠ .noLocation := (hsafe.pendingSource _ hmove).ne_noLocation
  have hmoves : ∀ other, (resolver.performPendingMove backend move).moves other =
      if (resolver.moves other).source = move.source then
        { resolver.moves other with source := move.destination }
      else resolver.moves other := fun _ => rfl
  have hindexSource : (resolver.moves index).source = .noLocation := not_not.mp hindex
  refine ⟨rfl, hsrc, ?_, fun other _ => ?_, ⟨resolver.pendingMoves.erase move, [],
    (append_nil _).symm, erase_sublist, fun other => ?_, .inl ⟨rfl, hdest⟩⟩,
    fun scratch hscr => hsafe.scratches scratch ?_⟩
  · rw [hmoves, if_neg fun hsame => hsrc (hsame.symm.trans hindexSource)]
    exact ⟨hindexSource, hsafe.eliminated _ hindex, rfl⟩
  · rw [hmoves]
    by_cases hsame : (resolver.moves other).source = move.source
    · rw [if_pos hsame]
      exact .inr ⟨hsame, rfl⟩
    · rw [if_neg hsame]
      exact .inl rfl
  · rw [hsafe.mem_erase hmove, hdest]
  · exact hlawful.freeScratches_subset (({ resolver with
      pendingMoves := resolver.pendingMoves.erase move }.emit move.source
        move.destination).updateMoveSource move.source move.destination) move.source hscr

theorem Safe.performPendingMove (hmove : move ∈ resolver.pendingMoves)
    (hunblocked : resolver.isBlockedByMoves move.destination = false) :
    Safe setting (resolver.performPendingMove backend move) := by
  obtain ⟨index, hindex, hdest, -⟩ := hsafe.pendingDestination _ hmove
  refine hsafe.transfer (hsafe.transfer_performPendingMove hlawful hmove hindex hdest) ?_
    (hsafe.pending _ hmove _ hdest) fun other hsame => ?_
  · rw [hdest] at hunblocked ⊢
    exact writable_destination hunblocked
  · rw [← hdest]
    exact and_self_iff.mpr (hsafe.pendingFits _ hmove _ hsame)

end ScratchResolver

end NougatArt.Moves
