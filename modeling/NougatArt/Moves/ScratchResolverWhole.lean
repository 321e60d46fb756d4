import NougatArt.Moves.ScratchResolverProgress

/-!
# Moves on cycles whose sources are destinations as a whole

If a source that overlaps with the destination of a move on a cycle is equal to it,
performing one move that blocks this destination redirects all moves that block it. So a
move on a cycle performs at most one of the moves it waits for, a move goes to a scratch
location only when no other one is pending, and it waits for a move in progress. A move
that is not on a cycle leaves no pending move behind.
-/

namespace NougatArt.Moves

open List Option Finset MoveOperands

namespace ScratchResolver

variable {count : ℕ} {setting : Setting count} {backend : Backend count}
  {resolver after : ScratchResolver count} {loc dest : Location} {i other : Fin count}

variable (setting resolver) in
def Outstanding (index : Fin count) : Prop := resolver.Live index ∨ ∃ move ∈ resolver.pendingMoves,
    move.destination = (setting.moves index).destination

/-- The sources in destinations of moves on cycles are these destinations, a move is blocked by the
moves that it waited for or by copies in scratch locations, and the pending moves wait for moves
in progress that `top` waits for, or for the move `current`. -/
structure Whole (setting : Setting count) (top : Fin count) (current : Option (Fin count))
    (resolver : ScratchResolver count) : Prop where
  whole : ∀ index other, OnCycle setting.moves other → resolver.Live index →
    Outstanding setting resolver other →
    (resolver.moves index).source.overlapsWith (setting.moves other).destination = true →
      (resolver.moves index).source = (setting.moves other).destination
  blocked : ∀ index other, resolver.Live other →
    resolver.BlocksAt index (setting.moves other).destination →
      WaitsFor setting.moves other index ∨
        ∃ move ∈ resolver.pendingMoves, move.source = (resolver.moves index).source
  waitsFor : ∀ move ∈ resolver.pendingMoves, ∀ index,
    resolver.BlocksAt index move.destination →
      (resolver.InProgress index ∨ current = some index) ∧ WaitsFor setting.moves top index
  apart : ∀ move ∈ resolver.pendingMoves, ∀ index, resolver.InProgress index →
    move.source.overlapsWith (setting.moves index).destination = false

variable (setting resolver after) in
/-- The moves that block a move in progress stay so, or none is left if it is on a cycle. -/
def KeepsBlockers : Prop := ∀ index, resolver.InProgress index →
    (∀ other, after.BlocksAt other (setting.moves index).destination →
      resolver.BlocksAt other (setting.moves index).destination) ∧
    (OnCycle setting.moves index →
      (∀ other, ¬ after.BlocksAt other (setting.moves index).destination) ∨
      ∀ other, resolver.BlocksAt other (setting.moves index).destination →
        after.BlocksAt other (setting.moves index).destination)

theorem KeepsBlockers.refl (resolver : ScratchResolver count) :
    KeepsBlockers setting resolver resolver :=
  fun _ _ => ⟨fun _ hblocks => hblocks, fun _ => .inr fun _ hblocks => hblocks⟩

theorem KeepsBlockers.trans {last : ScratchResolver count}
    (hfirst : KeepsBlockers setting resolver after) (hadv : Advances resolver after)
    (hsnd : KeepsBlockers setting after last) : KeepsBlockers setting resolver last := by
  intro i hprog
  obtain ⟨hback, hkept⟩ := hfirst _ hprog
  obtain ⟨hback', hkept'⟩ := hsnd i (hadv.inProgress_iff hprog)
  refine ⟨fun other hblocks => hback other (hback' _ hblocks), fun hcycle => ?_⟩
  rcases hkept hcycle with hnone | hall
  · exact .inl fun other hblocks => hnone other (hback' _ hblocks)
  · exact (hkept' hcycle).imp_right fun hall' other hblocks => hall' other (hall _ hblocks)

/-- A location that is a destination or outside of the moves. -/
def IsPlace (setting : Setting count) (location : Location) : Prop :=
  setting.pool location ∨ ∃ index, location = (setting.moves index).destination

theorem IsPlace.eq_of_overlapsWith (hplace : IsPlace setting loc)
    (hover : loc.overlapsWith (setting.moves i).destination) :
    loc = (setting.moves i).destination := by
  rcases hplace with hpool | ⟨other, rfl⟩
  · rw [setting.pool_apart loc hpool i] at hover
    cases hover
  · by_cases heq : other = i
    · rw [heq]
    · rw [setting.apart _ _ heq] at hover
      cases hover

section Transfer

variable {source : Location}
  (htrans : Transfer setting resolver after i source loc)

include htrans

theorem Transfer.blocksAt_of_apart {place : Location}
    (hapart : loc.overlapsWith place = false) (hblocks : after.BlocksAt other place) :
    other ≠ i ∧ resolver.BlocksAt other place ∧
      (after.moves other).source = (resolver.moves other).source := by
  obtain ⟨hne, hlive⟩ := htrans.live_of_live hblocks.1
  have hover := hblocks.2
  rcases (htrans.fields hne).2.2 with hsrc | ⟨-, hsrc⟩
  · rw [hsrc] at hover
    exact ⟨hne, ⟨hlive, hover⟩, hsrc⟩
  · rw [hsrc, hapart] at hover
    cases hover

theorem Transfer.keepsBlockers (hloc : ∀ other, resolver.InProgress other →
      loc.overlapsWith (setting.moves other).destination = false)
    (hwhole : ∀ other, OnCycle setting.moves other → resolver.InProgress other →
      source.overlapsWith (setting.moves other).destination →
        ∀ blocking, resolver.BlocksAt blocking (setting.moves other).destination →
          (resolver.moves blocking).source = source)
    (hredirects : ∀ other, after.Live other → (resolver.moves other).source = source →
      (after.moves other).source = loc)
    (hindex : resolver.Live i → (resolver.moves i).source = source) :
    KeepsBlockers setting resolver after := by
  intro other hprog
  have hapart := hloc _ hprog
  refine ⟨fun blocking hblocks => (htrans.blocksAt_of_apart hapart hblocks).2.1, fun hcycle => ?_⟩
  by_cases hover : source.overlapsWith (setting.moves other).destination = true
  · left
    intro blocking hblocks
    obtain ⟨-, hbefore, -⟩ := htrans.blocksAt_of_apart hapart hblocks
    have hsrc := hredirects _ hblocks.1 (hwhole _ hcycle hprog hover _ hbefore)
    have hafter := hblocks.2
    rw [hsrc, hapart] at hafter
    cases hafter
  · right
    intro blocking hblocks
    have hsrc : (resolver.moves blocking).source ≠ source := by
      intro heq
      exact hover (heq ▸ hblocks.2)
    have hne : blocking ≠ i := by
      rintro rfl
      exact hsrc (hindex hblocks.1)
    rcases (htrans.fields hne).2.2 with hsame | ⟨heq, -⟩
    · refine ⟨?_, ?_⟩
      · rw [Live, hsame]
        exact hblocks.1
      · rw [hsame]
        exact hblocks.2
    · exact absurd heq hsrc

/-- A location that is copied to is the destination, or the source of a pending move. -/
theorem Transfer.location_cases : loc = (setting.moves i).destination ∨
    ∃ move ∈ after.pendingMoves, move.source = loc := by
  obtain ⟨rest, new, hpend, -, -, hnew⟩ := htrans.pending
  rcases hnew with ⟨-, heq⟩ | rfl
  · exact .inl heq
  · exact .inr ⟨_, hpend ▸ mem_append_right _ (List.mem_singleton_self _), rfl⟩

theorem Transfer.inProgress_iff (hlive : after.Live other) :
    resolver.InProgress other ↔ after.InProgress other := by
  obtain ⟨hne, hbefore⟩ := htrans.live_of_live hlive
  rw [InProgress, InProgress, (htrans.fields hne).1]
  exact ⟨fun h => ⟨hlive, h.2⟩, fun h => ⟨hbefore, h.2⟩⟩

theorem Transfer.outstanding (hindex : Outstanding setting resolver i)
    (hother : Outstanding setting after other) : Outstanding setting resolver other := by
  rcases hother with hlive | ⟨move, hmove, hdest⟩
  · exact .inl (htrans.live_of_live hlive).2
  · rcases htrans.mem_pendingMoves hmove with ⟨hbefore, -⟩ | rfl
    · exact .inr ⟨move, hbefore, hdest⟩
    · obtain rfl := destination_injective hdest
      exact hindex

/-- The sources in destinations of moves on cycles are these destinations after a transfer. -/
theorem Whole.transfer {top : Fin count} {cur : Option (Fin count)}
    (hwhole : Whole setting top cur resolver)
    (hcur : ∀ other, cur = some other → other = i) (hplace : IsPlace setting loc)
    (hindex : Outstanding setting resolver i)
    (hredirects : ∀ other, after.Live other → (resolver.moves other).source = source →
      (after.moves other).source = loc)
    (hremoved : ∀ move ∈ resolver.pendingMoves,
      move.destination = (setting.moves i).destination → move.source = source)
    (hold : ∀ move ∈ resolver.pendingMoves,
      move.destination ≠ (setting.moves i).destination → loc.overlapsWith move.destination = false)
    (hnew : ∀ move ∈ after.pendingMoves, move.destination = (setting.moves i).destination →
      (∀ other, after.BlocksAt other move.destination →
        after.InProgress other ∧ WaitsFor setting.moves top other) ∧
      ∀ other, after.InProgress other →
        move.source.overlapsWith (setting.moves other).destination = false) :
    Whole setting top none after := by
  refine ⟨fun first second hcycle hlive hsnd hover => ?_, fun first second hsnd hblocks => ?_,
    fun move hmove other hblocks => ?_, fun move hmove other hother => ?_⟩
  · obtain ⟨hne, hbefore⟩ := htrans.live_of_live hlive
    rcases (htrans.fields hne).2.2 with hsrc | ⟨-, hsrc⟩
    · rw [hsrc] at hover ⊢
      exact hwhole.whole _ _ hcycle hbefore (htrans.outstanding hindex hsnd) hover
    · rw [hsrc] at hover ⊢
      exact hplace.eq_of_overlapsWith hover
  · obtain ⟨hne, hbefore⟩ := htrans.live_of_live hblocks.1
    obtain ⟨hneSecond, hbeforeSecond⟩ := htrans.live_of_live hsnd
    by_cases hsame : (resolver.moves first).source = source
    · -- The move takes its value from the new location.
      have hsrc := hredirects _ hblocks.1 hsame
      rcases htrans.location_cases with rfl | hpend
      · have hover := hblocks.2
        rw [hsrc, setting.apart _ _ hneSecond.symm] at hover
        cases hover
      · rw [hsrc]
        exact .inr hpend
    · have hsrc := (htrans.fields hne).2.2.resolve_right fun hmoved => hsame hmoved.1
      have hover := hblocks.2
      rw [hsrc] at hover ⊢
      refine (hwhole.blocked _ _ hbeforeSecond ⟨hbefore, hover⟩).imp_right ?_
      rintro ⟨move, hmove, heq⟩
      refine ⟨move, htrans.mem_of_ne hmove fun hdest => hsame ?_, heq⟩
      rw [← heq, hremoved _ hmove hdest]
  · by_cases heq : move.destination = (setting.moves i).destination
    · exact ((hnew _ hmove heq).1 other hblocks).imp_left .inl
    · rcases htrans.mem_pendingMoves hmove with ⟨hbefore, -⟩ | rfl
      · obtain ⟨hne, hblocks', -⟩ := htrans.blocksAt_of_apart (hold _ hbefore heq) hblocks
        obtain ⟨hwaits, htop⟩ := hwhole.waitsFor _ hbefore _ hblocks'
        refine ⟨.inl ?_, htop⟩
        rcases hwaits with hother | hother
        · exact (htrans.inProgress_iff hblocks.1).mp hother
        · exact absurd (hcur _ hother) hne
      · exact absurd rfl heq
  · by_cases heq : move.destination = (setting.moves i).destination
    · exact (hnew _ hmove heq).2 other hother
    · rcases htrans.mem_pendingMoves hmove with ⟨hbefore, -⟩ | rfl
      · exact hwhole.apart _ hbefore other ((htrans.inProgress_iff hother.1).mpr hother)
      · exact absurd rfl heq

end Transfer

variable (setting resolver after) in
structure WholeCall (top : Fin count) : Prop where
  safe : Safe setting after
  separate : after.Separate
  waits : after.Waits
  whole : Whole setting top none after
  advances : Advances resolver after
  keeps : KeepsBlockers setting resolver after

variable (setting resolver after) in
structure WholeStep (top : Fin count) : Prop where
  whole : Whole setting top none after
  advances : Advances resolver after
  keeps : KeepsBlockers setting resolver after

theorem WholeStep.performPendingMove {start : ScratchResolver count} {top : Fin count}
    (hlawful : Lawful setting.layout setting.pool backend) (hsafe : Safe setting resolver)
    (hstep : WholeStep setting start resolver top) {move : MoveOperands}
    (hmove : move ∈ resolver.pendingMoves) :
    WholeStep setting start (resolver.performPendingMove backend move) top := by
  obtain ⟨i, hindex, hdest, -⟩ := hsafe.pendingDestination _ hmove
  have htrans := hsafe.transfer_performPendingMove hlawful hmove hindex hdest
  have hidle : ¬ resolver.InProgress i := fun hprog => hindex hprog.1
  have hadv := htrans.advances (hsafe.pendingSource _ hmove) (hdest ▸ setting.destination i) hidle
  have hredirects : ∀ other, (resolver.performPendingMove backend move).Live other →
      (resolver.moves other).source = move.source →
      ((resolver.performPendingMove backend move).moves other).source = move.destination :=
    fun other _ hsrc => congrArg source (if_pos hsrc)
  refine ⟨?_, hstep.advances.trans hadv,
    hstep.keeps.trans hstep.advances (htrans.keepsBlockers ?_ ?_ hredirects ?_)⟩
  · refine Whole.transfer htrans hstep.whole (fun _ hnone => nomatch hnone)
      (.inr ⟨i, hdest⟩) (.inr ⟨move, hmove, hdest⟩) hredirects (fun other hother heq => ?_)
      (fun other hother hne => ?_) (fun other hother heq => ?_)
    · have hsymmetric : Std.Symm fun move other : MoveOperands =>
          move.destination ≠ other.destination := ⟨fun _ _ => Ne.symm⟩
      by_contra hne
      exact hsafe.pendingNodup.forall hother hmove (fun hsame => hne (hsame ▸ rfl))
        (heq.trans hdest.symm)
    · obtain ⟨another, -, hanother, -⟩ := hsafe.pendingDestination _ hother
      rw [hanother] at hne ⊢
      rw [hdest]
      exact setting.apart i another fun heq => hne (heq ▸ rfl)
    · have hgone := (mem_performPendingMove hsafe hmove hother).2
      exact absurd (heq.trans hdest.symm) hgone
  · intro other hprog
    rw [hdest]
    exact setting.apart i other fun heq => hindex (heq ▸ hprog.1)
  · intro other _ hprog hover
    rw [hstep.whole.apart _ hmove _ hprog] at hover
    cases hover
  · exact fun hlive => absurd hlive hindex

section Perform

variable (hlawful : Lawful setting.layout setting.pool backend) (hsafe : Safe setting resolver)
  (hwhole : Whole setting i (some i) resolver) (hlive : resolver.Live i)
  (hdest : (resolver.moves i).destination = (setting.moves i).destination)

include hwhole hlive in
/-- The moves that block a move in progress on a cycle have the same source. -/
theorem Whole.source_eq {blocking : Fin count} (hcycle : OnCycle setting.moves other)
    (hprog : resolver.InProgress other)
    (hover : (resolver.moves i).source.overlapsWith (setting.moves other).destination)
    (hblocks : resolver.BlocksAt blocking (setting.moves other).destination) :
    (resolver.moves blocking).source = (resolver.moves i).source := by
  rw [hwhole.whole _ _ hcycle hblocks.1 (.inl hprog.1) hblocks.2,
    hwhole.whole _ _ hcycle hlive (.inl hprog.1) hover]

theorem source_performTo (hlive : resolver.Live i) (hother : (resolver.performTo i loc).Live other)
    (hsrc : (resolver.moves other).source = (resolver.moves i).source) :
    ((resolver.performTo i loc).moves other).source = loc := by
  rw [Live, moves_performTo hlive] at hother
  rw [moves_performTo hlive]
  by_cases heq : other = i
  · rw [if_pos heq] at hother
    exact absurd rfl hother
  · rw [if_neg heq, if_pos hsrc]

include hdest in
theorem not_inProgress : ¬ resolver.InProgress i := fun hprog =>
  (setting.destination i).ne_noLocation (hdest.symm.trans hprog.2)

include hsafe hwhole hlive hdest

theorem WholeStep.performTo (hsrc : setting.layout.Operand (resolver.moves i).source) :
    WholeStep setting resolver (resolver.performTo i (setting.moves i).destination) i := by
  have hidle := not_inProgress hdest
  have htrans := hsafe.transfer_performTo hlive (setting.moves i).destination
    hsafe.scratches (.inl ⟨rfl, rfl⟩)
  have hredirects := fun other hother =>
    @source_performTo _ resolver (setting.moves i).destination i other hlive hother
  refine ⟨Whole.transfer htrans hwhole (fun _ hsome => (some.inj hsome).symm)
    (.inr ⟨i, rfl⟩) (.inl hlive) hredirects
    (fun other hother heq => absurd heq (hsafe.pending_ne hlive hother))
    (fun other hother hne => ?_) (fun other hother heq => ?_),
    htrans.advances hsrc (setting.destination i) hidle,
    htrans.keepsBlockers (fun other hprog => ?_)
      (fun other hcycle hprog hover blocking => hwhole.source_eq hlive hcycle hprog hover)
      hredirects (fun _ => rfl)⟩
  · obtain ⟨another, -, hanother, -⟩ := hsafe.pendingDestination _ hother
    rw [hanother] at hne ⊢
    exact setting.apart i another fun heq => hne (heq ▸ rfl)
  · exact absurd heq (hsafe.pending_ne hlive hother)
  · exact setting.apart i other fun heq => hidle (heq ▸ hprog)

include hlawful

theorem WholeStep.performToScratch (hsrc : setting.layout.Operand (resolver.moves i).source)
    (hblocked : resolver.isBlockedByMoves (setting.moves i).destination)
    (hwaits : ∀ other, other ≠ i →
      resolver.BlocksAt other (setting.moves i).destination →
        resolver.InProgress other ∧ WaitsFor setting.moves i other) :
    WholeStep setting resolver (resolver.performToScratch backend i) i := by
  have hidle := not_inProgress hdest
  have htrans := hsafe.transfer_performToScratch hlawful hlive hdest
  have hapart := hlawful.scratch_apart hsafe hblocked (resolver.moves i).source.kind
  have hscr := (hlawful.allocate_spec hsafe (resolver.moves i).source.kind).2
  have hadv := htrans.advances hsrc hscr.operand hidle
  have hplace : IsPlace setting (backend.allocateScratchLocationFor resolver
      (resolver.moves i).source.kind).1 :=
    hscr.imp_right fun ⟨other, _, _, heq⟩ => ⟨other, heq⟩
  have hredirects := fun other hother =>
    @source_performTo _ resolver (backend.allocateScratchLocationFor resolver
      (resolver.moves i).source.kind).1 i other hlive hother
  refine ⟨Whole.transfer htrans hwhole (fun _ hsome => (some.inj hsome).symm) hplace
    (.inl hlive) hredirects (fun other hother heq => absurd heq (hsafe.pending_ne hlive hother))
    (fun other hother _ => ?_) (fun other hother heq => ⟨fun blocking hblocks => ?_,
      fun another hprog => ?_⟩), hadv,
    htrans.keepsBlockers (fun other hprog => hapart other (.inr (.inl hprog)))
      (fun other hcycle hprog hover blocking => hwhole.source_eq hlive hcycle hprog hover)
      hredirects (fun _ => rfl)⟩
  · obtain ⟨another, hanother, hsame, -⟩ := hsafe.pendingDestination _ hother
    rw [hsame]
    exact hapart another (.inl hanother)
  · rw [heq] at hblocks
    obtain ⟨hne, hblocks', -⟩ := htrans.blocksAt_of_apart (hapart i (.inr (.inr rfl))) hblocks
    exact (hwaits _ hne hblocks').imp_left hadv.inProgress_iff
  · rcases htrans.mem_pendingMoves hother with ⟨hold, hne⟩ | rfl
    · exact absurd heq hne
    · obtain ⟨hbefore, hsame⟩ := hadv.live _ hprog.1
      exact hapart another (.inr (.inl ⟨hbefore, hsame.symm.trans hprog.2⟩))

end Perform

section Call

variable {inner : ScratchResolver count}

theorem blocksAt_setDestination (dest : Location) (other : Fin count) (place : Location) :
    (resolver.setDestination i dest).BlocksAt other place ↔ resolver.BlocksAt other place := by
  rw [BlocksAt, BlocksAt, live_setDestination, source_setDestination]

theorem inProgress_setDestination (hne : other ≠ i) :
    (resolver.setDestination i dest).InProgress other ↔ resolver.InProgress other := by
  rw [InProgress, InProgress, live_setDestination, destination_setDestination_of_ne hne]

theorem outstanding_setDestination : Outstanding setting (resolver.setDestination i dest) other ↔
      Outstanding setting resolver other := by
  rw [Outstanding, Outstanding, live_setDestination]
  rfl

theorem notMem_of_empty (hempty : resolver.pendingMoves = []) (move : MoveOperands) :
    move ∉ resolver.pendingMoves := by
  rw [hempty]
  exact not_mem_nil

section Whole

variable {top : Fin count} (hwhole : Whole setting top none resolver)

include hwhole

/-- What the pending moves wait for, a move waits for as well if it waits for the first one. -/
theorem Whole.of_waitsFor {top' : Fin count} (hwaits : WaitsFor setting.moves top' top) :
    Whole setting top' none resolver :=
  ⟨hwhole.whole, hwhole.blocked, fun move hmove index hblocks =>
    (hwhole.waitsFor move hmove index hblocks).imp_right hwaits.trans, hwhole.apart⟩

theorem Whole.restore : Whole setting top (some i)
      (resolver.setDestination i (setting.moves i).destination) := by
  refine ⟨fun first second hcycle hlive hsnd hover => ?_, fun first second hsnd hblocks => ?_,
    fun move hmove other hblocks => ?_, fun move hmove other hprog => ?_⟩
  · rw [source_setDestination] at hover ⊢
    exact hwhole.whole _ _ hcycle ((live_setDestination _ _).mp hlive)
      (outstanding_setDestination.mp hsnd) hover
  · rw [source_setDestination]
    exact hwhole.blocked _ _ ((live_setDestination _ _).mp hsnd)
      ((blocksAt_setDestination _ _ _).mp hblocks)
  · obtain ⟨hwaits, htop⟩ :=
      hwhole.waitsFor _ hmove other ((blocksAt_setDestination _ _ _).mp hblocks)
    refine ⟨?_, htop⟩
    by_cases heq : other = i
    · exact .inr (heq ▸ rfl)
    · left
      rw [inProgress_setDestination heq]
      exact hwaits.resolve_right fun hnone => nomatch hnone
  · have hne : other ≠ i := by
      rintro rfl
      have hnone := hprog.2
      rw [moves_setDestination, if_pos rfl] at hnone
      exact (setting.destination other).ne_noLocation hnone
    exact hwhole.apart _ hmove other ((inProgress_setDestination hne).mp hprog)

variable (hempty : resolver.pendingMoves = [])

include hempty

theorem Whole.of_empty (top' : Fin count) : Whole setting top' none resolver :=
  ⟨hwhole.whole, hwhole.blocked, fun move hmove => absurd hmove (notMem_of_empty hempty move),
    hwhole.apart⟩

theorem Whole.mark : Whole setting top none (resolver.mark i) := by
  have hnone := notMem_of_empty hempty
  refine ⟨fun first second hcycle hlive hsnd hover => ?_, fun first second hsnd hblocks => ?_,
    fun move hmove => absurd hmove (hnone move), fun move hmove => absurd hmove (hnone move)⟩
  · rw [ScratchResolver.mark, source_setDestination] at hover ⊢
    exact hwhole.whole _ _ hcycle ((live_setDestination _ _).mp hlive)
      (outstanding_setDestination.mp hsnd) hover
  · rw [ScratchResolver.mark, source_setDestination]
    exact hwhole.blocked _ _ ((live_setDestination _ _).mp hsnd)
      ((blocksAt_setDestination _ _ _).mp hblocks)

end Whole

theorem KeepsBlockers.call (hidle : (resolver.moves i).destination ≠ .noLocation)
    (hadv : Advances (resolver.mark i) inner)
    (hinner : KeepsBlockers setting (resolver.mark i) inner)
    (hfinish : KeepsBlockers setting (inner.setDestination i dest) after) :
    KeepsBlockers setting resolver after := by
  intro other hprog
  have hne : other ≠ i := by
    rintro rfl
    exact hidle hprog.2
  have hmark : (resolver.mark i).InProgress other := (inProgress_setDestination hne).mpr hprog
  obtain ⟨hback, hkept⟩ := hinner _ hmark
  obtain ⟨hback', hkept'⟩ := hfinish other
    ((inProgress_setDestination hne).mpr (hadv.inProgress_iff hmark))
  simp only [mark, blocksAt_setDestination] at hback hkept hback' hkept'
  refine ⟨fun blocking hblocks => hback blocking (hback' _ hblocks), fun hcycle => ?_⟩
  rcases hkept hcycle with hnone | hall
  · exact .inl fun blocking hblocks => hnone blocking (hback' _ hblocks)
  · exact (hkept' hcycle).imp_right fun hall' blocking hblocks => hall' blocking (hall _ hblocks)

theorem WholeCall.eliminate (hsafe : Safe setting resolver)
    (hwhole : Whole setting i none resolver)
    (hempty : resolver.pendingMoves = []) (hlive : resolver.Live i)
    (hidle : (resolver.moves i).destination ≠ .noLocation)
    (hred : (resolver.moves i).source = (setting.moves i).destination) :
    WholeCall setting resolver (resolver.eliminate i) i := by
  have hnone := notMem_of_empty hempty
  refine ⟨hsafe.eliminate hlive hred, fun move hmove => absurd hmove (hnone move),
    fun move hmove => absurd hmove (hnone move), ⟨fun first second hcycle hfirst hsnd hover => ?_,
      fun first second hsnd hblocks => ?_,
      fun move hmove => absurd hmove (hnone move), fun move hmove => absurd hmove (hnone move)⟩,
    advances_eliminate hidle, fun other hprog => ⟨fun blocking hblocks => ?_, fun _ => .inr fun
      blocking hblocks => ?_⟩⟩
  · obtain ⟨hne, hbefore⟩ := live_of_live_eliminate hfirst
    rw [moves_eliminate, if_neg hne] at hover ⊢
    refine hwhole.whole _ _ hcycle hbefore ?_ hover
    exact hsnd.imp (fun hlive' => (live_of_live_eliminate hlive').2) id
  · obtain ⟨hne, hbefore⟩ := live_of_live_eliminate hblocks.1
    have hover := hblocks.2
    rw [moves_eliminate, if_neg hne] at hover ⊢
    exact hwhole.blocked _ _ (live_of_live_eliminate hsnd).2 ⟨hbefore, hover⟩
  · obtain ⟨hne, hbefore⟩ := live_of_live_eliminate hblocks.1
    have hover := hblocks.2
    rw [moves_eliminate, if_neg hne] at hover
    exact ⟨hbefore, hover⟩
  · refine blocksAt_eliminate hred ?_ hblocks
    rintro rfl
    exact hidle hprog.2

/-- The end of a call, when the move is blocked by moves in progress only. -/
theorem finishMove_whole (hlawful : Lawful setting.layout setting.pool backend)
    (hsafe : Safe setting inner) (hsep : inner.Separate) (hwaits : inner.Waits)
    (hwhole : Whole setting i none inner) (hadv : Advances (resolver.mark i) inner)
    (hlive : resolver.Live i) (hconst : (resolver.moves i).source.isConstant = false)
    (hready : ∀ other, inner.BlocksAt other (setting.moves i).destination →
      inner.InProgress other) :
    let restored := inner.setDestination i (setting.moves i).destination
    WholeCall setting restored (restored.finishMove backend i) i ∧
      ¬ (restored.finishMove backend i).Live i := by
  obtain ⟨hsafe', hlive', hdest, hsrc⟩ := restored_spec hsafe hadv hlive hconst
  have hwhole' : Whole setting i (some i) _ := hwhole.restore
  have hprog := hadv.inProgress_iff (inProgress_mark hlive)
  have hclear : ∀ move ∈ inner.pendingMoves,
      move.source.overlapsWith (setting.moves i).destination = false := fun move hmove =>
    hwhole.apart _ hmove _ hprog
  have hscr : (inner.setDestination i (setting.moves i).destination).isBlockedByMoves
      (setting.moves i).destination = true → WholeStep setting
        (inner.setDestination i (setting.moves i).destination)
        ((inner.setDestination i (setting.moves i).destination).performToScratch backend i) i := by
    intro hblocked
    refine WholeStep.performToScratch hlawful hsafe' hwhole' hlive' hdest hsrc hblocked ?_
    intro other hne hblocks
    rw [blocksAt_setDestination] at hblocks
    rw [inProgress_setDestination hne]
    refine ⟨hready _ hblocks, (hwhole.blocked _ _ hprog.1 hblocks).resolve_right ?_⟩
    -- A copy in a scratch location does not block a move in progress.
    rintro ⟨move, hmove, heq⟩
    have hover := hblocks.2
    rw [← heq, hclear _ hmove] at hover
    cases hover
  obtain ⟨hsafe'', hsep'', hwaits'', hadv'', hnot, hstep⟩ := finishMove_spec hlawful hsafe'
    hlive' hdest (WholeStep setting _ · i)
    (fun s move hstate hinv hmove _ => hinv.performPendingMove hlawful hstate hmove)
    hsrc hsep (waits_setDestination hwaits _) (fun _ => hclear) hscr
    (fun _ => WholeStep.performTo hsafe' hwhole' hlive' hdest hsrc)
  exact ⟨⟨hsafe'', hsep'', hwaits'', hstep.whole, hadv'', hstep.keeps⟩, hnot⟩

end Call

/-- The condition of the loop over the moves that block a destination. -/
theorem not_callable
    (hblocks : ((resolver.moves i).blocks dest && !(resolver.moves i).isPending) ≠ true)
    (hblocksAt : resolver.BlocksAt i dest) : resolver.InProgress i := by
  refine ⟨hblocksAt.1, ?_⟩
  by_contra hidle
  refine hblocks ?_
  rw [blocks_of_live hblocksAt.1, hblocksAt.2, isPending, decide_eq_false hidle]
  rfl

theorem Advances.inProgress_of (hadv : Advances resolver after) (hprog : after.InProgress i) :
    resolver.InProgress i := by
  obtain ⟨hlive, hdest⟩ := hadv.live _ hprog.1
  exact ⟨hlive, hdest.symm.trans hprog.2⟩

/-! ## The calls -/

/-- What a call with some fuel does when no move is pending and the moves in progress wait for the
move: it is performed, and the moves that stay pending wait for moves in progress. -/
def CallsWhole (setting : Setting count) (backend : Backend count) (fuel : ℕ) : Prop :=
  ∀ (i : Fin count) (resolver : ScratchResolver count), Safe setting resolver →
    Whole setting i none resolver → resolver.pendingMoves = [] → resolver.Live i →
    (resolver.moves i).destination ≠ .noLocation →
    (resolver.moves i).source.isConstant = false →
    (∀ other, resolver.InProgress other → WaitsFor setting.moves other i) →
    resolver.idle.card ≤ fuel →
    ∃ after, performMove backend fuel i resolver = some after ∧
      WholeCall setting resolver after i ∧ ¬ after.Live i

/-- The state of the loop over the moves that block a move: no move is pending, or no move blocks
it any more. -/
structure Waiting (setting : Setting count) (start : ScratchResolver count) (i : Fin count)
    (resolver : ScratchResolver count) : Prop where
  call : WholeCall setting start resolver i
  ready : resolver.pendingMoves = [] ∨
    ∀ other, ¬ resolver.BlocksAt other (setting.moves i).destination

section Loop

variable {start : ScratchResolver count} {fuel : ℕ} (hcalls : CallsWhole setting backend fuel)
  (hprog : start.InProgress i)
  (hstack : ∀ other, start.InProgress other → other = i ∨ WaitsFor setting.moves other i)
  (hfuel : start.idle.card ≤ fuel)

include hcalls hprog hstack hfuel

/-- One round of the loop. A move on a cycle is not blocked any more after a call; the call for
another one leaves no move pending, since it would wait for a move in progress. -/
theorem Waiting.round (hwaiting : Waiting setting start i resolver) (other : Fin count) :
    ∃ after, performBlocker backend fuel (setting.moves i).destination resolver other = some after ∧
      Waiting setting start i after ∧ Advances resolver after ∧
      (∀ blocking, after.BlocksAt blocking (setting.moves i).destination →
        resolver.BlocksAt blocking (setting.moves i).destination) ∧
      (after.BlocksAt other (setting.moves i).destination → after.InProgress other) := by
  rw [ScratchResolver.performBlocker]
  have hcall := hwaiting.call
  by_cases hblocks : ((resolver.moves other).blocks (setting.moves i).destination &&
      !(resolver.moves other).isPending) = true
  · obtain ⟨hblocksAt, hidle, hconst⟩ := callable_of_blocks (setting.destination i) hblocks
    have hempty := hwaiting.ready.resolve_right fun hnone => hnone other hblocksAt
    have hprog' := hcall.advances.inProgress_iff hprog
    have hwaits : WaitsFor setting.moves i other :=
      (hcall.whole.blocked _ _ hprog'.1 hblocksAt).resolve_right fun ⟨move, hmove, _⟩ =>
        notMem_of_empty hempty move hmove
    have hless := (card_le_card (hcall.advances.idle_subset hcall.safe)).trans hfuel
    obtain ⟨after, hafter, hcall', hnot⟩ := hcalls other resolver hcall.safe
      (hcall.whole.of_empty hempty other) hempty hblocksAt.1 hidle hconst (fun k hk => by
        rcases hstack k (hcall.advances.inProgress_of hk) with rfl | hback
        · exact hwaits
        · exact hback.trans hwaits) hless
    refine ⟨after, (if_pos hblocks).trans hafter, ⟨⟨hcall'.safe, hcall'.separate, hcall'.waits,
      hcall'.whole.of_waitsFor hwaits, hcall.advances.trans hcall'.advances,
      hcall.keeps.trans hcall.advances hcall'.keeps⟩, ?_⟩, hcall'.advances,
      (hcall'.keeps _ hprog').1, fun hagain => absurd hagain.1 hnot⟩
    by_cases hcycle : OnCycle setting.moves i
    · exact .inr (((hcall'.keeps _ hprog').2 hcycle).resolve_right fun hall =>
        hnot (hall other hblocksAt).1)
    · refine .inl (eq_nil_iff_forall_not_mem.mpr fun move hmove => hcycle ?_)
      obtain ⟨k, hk⟩ := hcall'.waits _ hmove
      obtain ⟨hwaitsFor, htop⟩ := hcall'.whole.waitsFor _ hmove _ hk
      have hkprog := hwaitsFor.resolve_right fun hnone => nomatch hnone
      rcases hstack k (hcall.advances.inProgress_of (hcall'.advances.inProgress_of hkprog))
        with rfl | hback
      · exact hwaits.trans htop
      · exact (hwaits.trans htop).trans hback
  · exact ⟨resolver, if_neg hblocks, hwaiting, Advances.refl _, fun _ hagain => hagain,
      not_callable hblocks⟩

theorem Waiting.loop (list : List (Fin count)) :
    ∀ resolver, Waiting setting start i resolver →
      ∃ inner, list.foldlM (performBlocker backend fuel (setting.moves i).destination) resolver =
          some inner ∧ Waiting setting start i inner ∧ Advances resolver inner ∧
        (∀ blocking, inner.BlocksAt blocking (setting.moves i).destination →
          resolver.BlocksAt blocking (setting.moves i).destination) ∧
        ∀ other ∈ list, inner.BlocksAt other (setting.moves i).destination →
          inner.InProgress other := by
  induction list with
  | nil => exact fun resolver hwaiting => ⟨resolver, rfl, hwaiting, Advances.refl _,
      fun _ hblocks => hblocks, fun _ hmem => absurd hmem not_mem_nil⟩
  | cons head tail ih =>
    intro resolver hwaiting
    obtain ⟨middle, hmiddle, hwaiting', hadv, hback, hhead⟩ :=
      hwaiting.round hcalls hprog hstack hfuel head
    obtain ⟨inner, hinner, hwaiting'', hadv', hback', htail⟩ := ih _ hwaiting'
    refine ⟨inner, ?_, hwaiting'', hadv.trans hadv',
      fun blocking hblocks => hback blocking (hback' _ hblocks), fun other hother hblocks => ?_⟩
    · rw [foldlM_cons, hmiddle]
      exact hinner
    · rcases mem_cons.mp hother with rfl | hmem
      · exact hadv'.inProgress_iff (hhead (hback' _ hblocks))
      · exact htail _ hmem hblocks

end Loop

theorem performMove_whole (hlawful : Lawful setting.layout setting.pool backend) (fuel : ℕ) :
    CallsWhole setting backend fuel := by
  induction fuel with
  | zero =>
    intro i resolver _ _ _ _ hidle _ _ hfuel
    have hmem : i ∈ resolver.idle := mem_filter.mpr ⟨mem_univ _, hidle⟩
    exact absurd (card_pos.mpr ⟨i, hmem⟩) (Nat.not_lt.mpr hfuel)
  | succ fuel ih =>
    intro i resolver hsafe hwhole hempty hlive hidle hconst hstack hfuel
    have hdest := (hsafe.destination _ hlive).resolve_right hidle
    by_cases hred : (resolver.moves i).isRedundant = true
    · rw [performMove, if_pos hred]
      exact ⟨_, rfl, WholeCall.eliminate hsafe hwhole hempty hlive hidle
        ((redundant_iff hsafe hlive hidle).mp hred), not_live_eliminate⟩
    have hmark : Waiting setting (resolver.mark i) i (resolver.mark i) :=
      ⟨⟨hsafe.setDestination hlive (.inr rfl),
        fun move hmove => absurd hmove (notMem_of_empty hempty move),
        fun move hmove => absurd hmove (notMem_of_empty hempty move), hwhole.mark hempty,
        Advances.refl _, KeepsBlockers.refl _⟩, .inl hempty⟩
    have hless := card_idle_mark hidle
    obtain ⟨inner, hinner, ⟨hcall, -⟩, -, -, hready⟩ :=
      Waiting.loop ih (inProgress_mark hlive) (fun other hother => by
        by_cases heq : other = i
        · exact .inl heq
        · exact .inr (hstack other ((inProgress_setDestination heq).mp hother))) (by omega)
        (finRange count) _ hmark
    obtain ⟨hfinish, hnot⟩ := finishMove_whole hlawful hcall.safe hcall.separate hcall.waits
      hcall.whole hcall.advances hlive hconst
      fun other => hready other (mem_finRange other)
    refine ⟨_, ?_, ⟨hfinish.safe, hfinish.separate, hfinish.waits, hfinish.whole,
      hcall.advances.call hidle hfinish.advances hnot,
      hcall.keeps.call hidle hcall.advances hfinish.keeps⟩, hnot⟩
    rw [performMove_succ hred, hdest, hinner, map_some]

end ScratchResolver

end NougatArt.Moves
