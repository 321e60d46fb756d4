import NougatArt.Moves.ScratchResolverSteps
import NougatArt.Core.OptionFold

/-!
# Every pending move is performed

A pending move waits for a move that was not performed. When the last move that it
waits for is performed, it is performed as well, provided that no pending move waits for
another one.
-/

namespace NougatArt.Moves

open List Finset Bool MoveOperands Location

namespace ScratchResolver

variable {count : ℕ} {st : Setting count} {backend : Backend count}
  {res after : ScratchResolver count}

def InProgress (resolver : ScratchResolver count) (index : Fin count) : Prop :=
  resolver.Live index ∧ (resolver.moves index).destination = .noLocation

/-- A move that was not performed has its source in a location. -/
def BlocksAt (resolver : ScratchResolver count) (index : Fin count) (location : Location) : Prop :=
  resolver.Live index ∧ (resolver.moves index).source.overlapsWith location = true

def Separate (resolver : ScratchResolver count) : Prop :=
  ∀ move ∈ resolver.pendingMoves, ∀ other ∈ resolver.pendingMoves,
    move.source.overlapsWith other.destination = false

/-- Every pending move waits for a move that was not performed. -/
def Waits (resolver : ScratchResolver count) : Prop :=
  ∀ move ∈ resolver.pendingMoves, ∃ index, resolver.BlocksAt index move.destination

/-- The pending moves whose destinations overlap a location need not wait. -/
def WaitsExcept (freed : Location) (resolver : ScratchResolver count) : Prop :=
  ∀ move ∈ resolver.pendingMoves, (∃ index, resolver.BlocksAt index move.destination) ∨
    move.destination.overlapsWith freed = true

/-- What is performed is not undone, and moves in progress stay so. -/
structure Advances (resolver after : ScratchResolver count) : Prop where
  live : ∀ index, after.Live index → resolver.Live index ∧
    (after.moves index).destination = (resolver.moves index).destination
  inProgress : ∀ index, resolver.InProgress index → after.Live index
  source : ∀ index, after.Live index →
    (after.moves index).source.isConstant = (resolver.moves index).source.isConstant

theorem Advances.refl (res : ScratchResolver count) : Advances res res :=
  ⟨fun _ hlive => ⟨hlive, rfl⟩, fun _ hprog => hprog.1, fun _ _ => rfl⟩

variable {i : Fin count}

theorem Advances.inProgress_iff (hadv : Advances res after)
    (hprog : res.InProgress i) : after.InProgress i := by
  have hlive := hadv.inProgress _ hprog
  exact ⟨hlive, (hadv.live _ hlive).2.trans hprog.2⟩

theorem Advances.trans {last : ScratchResolver count} (hfirst : Advances res after)
    (hsnd : Advances after last) : Advances res last := by
  refine ⟨fun i hlive => ?_, fun i hprog => ?_, fun i hlive => ?_⟩
  · obtain ⟨hlive', hdest⟩ := hsnd.live _ hlive
    obtain ⟨hlive'', hdest'⟩ := hfirst.live _ hlive'
    exact ⟨hlive'', hdest.trans hdest'⟩
  · exact hsnd.inProgress i (hfirst.inProgress_iff hprog)
  · rw [hsnd.source _ hlive, hfirst.source i (hsnd.live _ hlive).1]

variable {src loc : Location} {blocking : Fin count}

section

variable (htrans : Transfer st res after i src loc)

include htrans

theorem Transfer.advances (hsrc : st.layout.Operand src) (hloc : st.layout.Operand loc)
    (hindex : ¬ res.InProgress i) : Advances res after := by
  refine ⟨fun other hlive => ?_, fun other hprog => ?_, fun other hlive => ?_⟩
  · obtain ⟨hne, hbefore⟩ := htrans.live_of_live hlive
    exact ⟨hbefore, (htrans.fields hne).1⟩
  · have hne : other ≠ i := by
      rintro rfl
      exact hindex hprog
    rcases (htrans.fields hne).2.2 with hsrc | ⟨-, hsrc⟩
    · rw [Live, hsrc]
      exact hprog.1
    · rw [Live, hsrc]
      exact hloc.ne_noLocation
  · rcases (htrans.fields (htrans.live_of_live hlive).1).2.2 with hkept | ⟨hfrom, hmoved⟩
    · rw [hkept]
    · rw [hfrom, hmoved, hsrc.wellFormed.isConstant, hloc.wellFormed.isConstant]

/-- What a location waits for, after a move was performed. -/
theorem Transfer.blocksAt {place : Location}
    (hsrc : (res.moves i).source = src) (hblocks : res.BlocksAt blocking place) :
    after.BlocksAt blocking place ∨ place.overlapsWith src := by
  by_cases hsame : (res.moves blocking).source = src
  · right
    rw [overlapsWith_comm, ← hsame]
    exact hblocks.2
  · have hne : blocking ≠ i := fun heq => hsame (heq ▸ hsrc)
    rcases (htrans.fields hne).2.2 with hkept | ⟨hmoved, -⟩
    · left
      refine ⟨?_, ?_⟩
      · rw [Live, hkept]
        exact hblocks.1
      · rw [hkept]
        exact hblocks.2
    · exact absurd hmoved hsame

end

/-! ## The loop over the pending moves -/

variable {move : MoveOperands} {freed : Location}

/-- A pending move that another one leaves where it is. -/
theorem mem_performPendingMove (hsafe : Safe st res) {other : MoveOperands}
    (hmove : move ∈ res.pendingMoves)
    (hother : other ∈ (res.performPendingMove backend move).pendingMoves) :
    other ∈ res.pendingMoves ∧ other.destination ≠ move.destination :=
  (hsafe.mem_erase hmove other).mp hother

/-- The pending moves that wait still do after another one was performed. -/
theorem WaitsExcept.performPendingMove (hsafe : Safe st res)
    (hlawful : Lawful st.layout st.pool backend) (hsep : res.Separate)
    (hwaits : res.WaitsExcept freed) (hmove : move ∈ res.pendingMoves) :
    (res.performPendingMove backend move).WaitsExcept freed := by
  intro other hother
  obtain ⟨hbefore, -⟩ := mem_performPendingMove hsafe hmove hother
  refine (hwaits _ hbefore).imp_left fun ⟨blocking, hlive, hover⟩ => ?_
  obtain ⟨i, hindex, hdest, -⟩ := hsafe.pendingDestination _ hmove
  have htrans := hsafe.transfer_performPendingMove hlawful hmove hindex hdest
  have hne : blocking ≠ i := by
    rintro rfl
    exact hindex hlive
  -- The source of the performed move is not where another one waits.
  have hsrc : (res.moves blocking).source ≠ move.source := by
    intro hsame
    rw [hsame, hsep _ hmove _ hbefore] at hover
    cases hover
  rcases (htrans.fields hne).2.2 with hsame | ⟨hsame, -⟩
  · refine ⟨blocking, ?_, ?_⟩
    · rwa [Live, hsame]
    · rwa [hsame]
  · exact absurd hsame hsrc

theorem getUnblockedPendingMove_eq_none (hnone : res.getUnblockedPendingMove loc = none)
    (hmove : move ∈ res.pendingMoves) (hover : move.destination.overlapsWith loc) :
    res.isBlockedByMoves move.destination := by
  have hfree := find?_eq_none.mp hnone _ hmove
  simpa [hover] using hfree

/-- The loop ends when the pending moves wait for moves that were not performed. -/
theorem performPendingMoves_spec (hlawful : Lawful st.layout st.pool backend)
    (Inv : ScratchResolver count → Prop) (hstep : ∀ res move, Safe st res → Inv res →
      move ∈ res.pendingMoves → res.isBlockedByMoves move.destination = false →
        Inv (res.performPendingMove backend move)) (fuel : ℕ) :
    ∀ res, res.pendingMoves.length ≤ fuel → Safe st res →
      res.Separate → res.WaitsExcept freed → Inv res →
      let after := res.performPendingMoves backend freed fuel
      Safe st after ∧ after.Separate ∧ after.Waits ∧ Inv after := by
  have hend : ∀ res, Safe st res → res.Separate →
      res.WaitsExcept freed → res.getUnblockedPendingMove freed = none → res.Waits := by
    intro res hsafe hsep hwaits hnone move hmove
    rcases hwaits _ hmove with hblocks | hover
    · exact hblocks
    · have hblocked := getUnblockedPendingMove_eq_none hnone hmove hover
      by_contra hnot
      refine absurd hblocked (eq_false_iff.mp (isBlockedByMoves_eq_false.mpr
        ⟨fun other hother => ?_, fun i => ?_⟩))
      · rw [MoveOperands.blocks, hsep _ hother _ hmove, Bool.and_false]
      · by_cases hlive : res.Live i
        · rw [blocks_of_live hlive]
          exact eq_false_iff.mpr fun hover' => hnot ⟨i, hlive, hover'⟩
        · have helim : (res.moves i).isEliminated = true := decide_eq_true (not_not.mp hlive)
          rw [blocks, helim]
          rfl
  induction fuel with
  | zero =>
    intro res hlen hsafe hsep hwaits hinv
    have hnil : res.pendingMoves = [] := length_eq_zero_iff.mp (Nat.le_zero.mp hlen)
    refine ⟨hsafe, hsep, fun move hmove => ?_, hinv⟩
    rw [performPendingMoves, hnil] at hmove
    cases hmove
  | succ fuel ih =>
    intro res hlen hsafe hsep hwaits hinv
    rw [performPendingMoves]
    rcases hfound : res.getUnblockedPendingMove freed with _ | move
    · exact ⟨hsafe, hsep, hend _ hsafe hsep hwaits hfound, hinv⟩
    have hmove := mem_of_find?_eq_some hfound
    have hfree := find?_some hfound
    simp only [and_eq_true, not_eq_true'] at hfree
    have hless : (res.performPendingMove backend move).pendingMoves.length ≤ fuel := by
      change (res.pendingMoves.erase move).length ≤ fuel
      rw [length_erase_of_mem hmove]
      omega
    exact ih _ hless (hsafe.performPendingMove hlawful hmove hfree.2)
      (fun first hfirst second hsnd => hsep first
        (mem_performPendingMove hsafe hmove hfirst).1 second
          (mem_performPendingMove hsafe hmove hsnd).1)
      (hwaits.performPendingMove hsafe hlawful hsep hmove)
      (hstep _ _ hsafe hinv hmove hfree.2)

/-! ## The end of a move -/

theorem Transfer.not_live_index (htrans : Transfer st res after i src loc) : ¬ after.Live i :=
  fun hlive => (htrans.live_of_live hlive).1 rfl

section Finish

variable (hlawful : Lawful st.layout st.pool backend) (hsafe : Safe st res)
  (hlive : res.Live i)
  (hdest : (res.moves i).destination = (st.moves i).destination)

include hlawful hsafe

/-- The scratch location for a blocked move is not its destination. -/
theorem Lawful.scratch_apart
    (hblocked : res.isBlockedByMoves (st.moves i).destination) (kind : Kind)
    (other : Fin count) (hother : ¬ res.Live other ∨ res.InProgress other ∨ other = i) :
    (backend.allocateScratchLocationFor res kind).1.overlapsWith
      (st.moves other).destination = false := by
  obtain ⟨hunblocked, hscr⟩ := hlawful.allocate_spec hsafe kind
  rw [overlapsWith_comm]
  rcases hother with hnot | hprog | rfl
  · exact hscr.apart (.inl hnot)
  · refine hscr.apart (.inr fun heq => ?_)
    rw [hprog.2] at heq
    exact (st.destination other).ne_noLocation heq.symm
  · rcases hscr with hpool | ⟨borrowed, -, -, heq⟩
    · rw [overlapsWith_comm]
      exact st.pool_apart _ hpool other
    · rw [heq]
      apply st.apart
      rintro rfl
      rw [heq, hblocked] at hunblocked
      cases hunblocked

/-- The pending moves stay apart when a move is added to them. -/
theorem Separate.performToScratch (hsep : res.Separate)
    (hdest : (res.moves i).destination = (st.moves i).destination)
    (hblocked : res.isBlockedByMoves (st.moves i).destination) (hclear : ∀ move ∈ res.pendingMoves,
      move.source.overlapsWith (st.moves i).destination = false) :
    (res.performToScratch backend i).Separate := by
  have hscr := hlawful.scratch_apart hsafe hblocked (res.moves i).source.kind
  intro first hfirst second hsnd
  rcases mem_append.mp hfirst with hfirst | hfirst
  · rcases mem_append.mp hsnd with hsnd | hsnd
    · exact hsep _ hfirst _ hsnd
    · rw [List.mem_singleton.mp hsnd]
      exact (congrArg _ hdest).trans (hclear _ hfirst)
  · rw [List.mem_singleton.mp hfirst]
    rcases mem_append.mp hsnd with hsnd | hsnd
    · obtain ⟨other, hother, heq, -⟩ := hsafe.pendingDestination _ hsnd
      rw [heq]
      exact hscr other (.inl hother)
    · rw [List.mem_singleton.mp hsnd]
      exact (congrArg _ hdest).trans (hscr i (.inr (.inr rfl)))

include hlive hdest

/-- The first step of the end of a move: it is performed or goes to a scratch location. -/
theorem waitsExcept_performed (hwaits : res.Waits) (hclear : ∀ move ∈ res.pendingMoves,
      move.source.overlapsWith (st.moves i).destination = false)
    (hblocked : res.isBlockedByMoves (st.moves i).destination) :
    (res.performToScratch backend i).WaitsExcept (res.moves i).source := by
  have htrans := hsafe.transfer_performToScratch hlawful hlive hdest
  intro move hmove
  rcases htrans.mem_pendingMoves hmove with ⟨hold, -⟩ | rfl
  · obtain ⟨blocking, hblocks⟩ := hwaits _ hold
    exact (htrans.blocksAt rfl hblocks).imp_left fun hafter => ⟨blocking, hafter⟩
  -- The move is blocked by a move that was not performed.
  obtain ⟨blocking, hblocks⟩ : ∃ blocking, res.BlocksAt blocking (st.moves i).destination := by
    by_contra hnone
    refine absurd hblocked (eq_false_iff.mp (isBlockedByMoves_eq_false.mpr
      ⟨fun move hmove => ?_, fun other => ?_⟩))
    · rw [MoveOperands.blocks, hclear _ hmove, Bool.and_false]
    · cases hother : (res.moves other).blocks (st.moves i).destination with
      | false => rfl
      | true =>
        rw [blocks, and_eq_true, not_eq_true'] at hother
        exact absurd ⟨other, of_decide_eq_false hother.1, hother.2⟩ hnone
  exact (htrans.blocksAt rfl hblocks).imp_left fun hafter => ⟨blocking, hafter⟩

theorem finishMove_spec (Inv : ScratchResolver count → Prop)
    (hstep : ∀ res move, Safe st res → Inv res →
      move ∈ res.pendingMoves → res.isBlockedByMoves move.destination = false →
        Inv (res.performPendingMove backend move))
    (hsrc : st.layout.Operand (res.moves i).source) (hsep : res.Separate) (hwaits : res.Waits)
    (hclear : res.isBlockedByMoves (st.moves i).destination → ∀ move ∈ res.pendingMoves,
        move.source.overlapsWith (st.moves i).destination = false)
    (hscr : res.isBlockedByMoves (st.moves i).destination → Inv (res.performToScratch backend i))
    (hdirect : res.isBlockedByMoves (st.moves i).destination = false →
      Inv (res.performTo i (st.moves i).destination)) :
    let after := res.finishMove backend i
    Safe st after ∧ after.Separate ∧ after.Waits ∧ Advances res after ∧
      ¬ after.Live i ∧ Inv after := by
  have hidle : ¬ res.InProgress i := fun hprog =>
    (st.destination i).ne_noLocation (hdest.symm.trans hprog.2)
  -- What holds after the first step holds after the loop over the pending moves.
  have hloop : ∀ performed : ScratchResolver count, Safe st performed →
      performed.Separate → performed.WaitsExcept (res.moves i).source →
      Advances res performed → ¬ performed.Live i → Inv performed →
      let after := performed.performPendingMoves backend (res.moves i).source
        performed.pendingMoves.length
      Safe st after ∧ after.Separate ∧ after.Waits ∧ Advances res after ∧
        ¬ after.Live i ∧ Inv after := by
    intro performed hsafe' hsep' hwaits' hadv hnot hinv
    apply performPendingMoves_spec hlawful (fun s => Advances res s ∧
      ¬ s.Live i ∧ Inv s) _ _ _ le_rfl hsafe' hsep' hwaits'
      ⟨hadv, hnot, hinv⟩
    rintro s move hstate ⟨hadv', hnot', hinv'⟩ hmove hunblocked
    obtain ⟨other, hother, heq, -⟩ := hstate.pendingDestination _ hmove
    have htrans := hstate.transfer_performPendingMove hlawful hmove hother heq
    refine ⟨hadv'.trans (htrans.advances (hstate.pendingSource _ hmove)
      (heq ▸ st.destination other) fun hprog => hother hprog.1),
      fun hafter => hnot' (htrans.live_of_live hafter).2,
      hstep _ _ hstate hinv' hmove hunblocked⟩
  rw [finishMove, hdest]
  cases hblocked : res.isBlockedByMoves (st.moves i).destination with
  | true =>
    have htrans := hsafe.transfer_performToScratch hlawful hlive hdest
    exact hloop _ (hsafe.performToScratch hlawful hlive hdest hsrc)
      (hsep.performToScratch hlawful hsafe hdest hblocked (hclear hblocked))
      (waitsExcept_performed hlawful hsafe hlive hdest hwaits (hclear hblocked) hblocked)
      (htrans.advances hsrc (hlawful.allocate_spec hsafe _).2.operand hidle)
      htrans.not_live_index (hscr hblocked)
  | false =>
    have htrans := hsafe.transfer_performTo hlive (st.moves i).destination
      hsafe.scratches (.inl ⟨rfl, rfl⟩)
    refine hloop _ (hsafe.performTo hlive hblocked) hsep (fun move hmove => ?_)
      (htrans.advances hsrc (st.destination i) hidle) htrans.not_live_index
      (hdirect hblocked)
    obtain ⟨blocking, hblocks⟩ := hwaits _ hmove
    exact (htrans.blocksAt rfl hblocks).imp_left fun hafter => ⟨blocking, hafter⟩

end Finish

def idle (resolver : ScratchResolver count) : Finset (Fin count) :=
  univ.filter fun index => (resolver.moves index).destination ≠ .noLocation

theorem Advances.idle_subset (hadv : Advances res after) (hsafe : Safe st after) :
    after.idle ⊆ res.idle := by
  intro i hindex
  have hne := (Finset.mem_filter.mp hindex).2
  have hlive : after.Live i := by
    by_contra hnot
    exact hne (hsafe.eliminated _ hnot)
  refine mem_filter.mpr ⟨mem_univ _, ?_⟩
  rwa [← (hadv.live _ hlive).2]

section Call

def mark (resolver : ScratchResolver count) (index : Fin count) : ScratchResolver count :=
  resolver.setDestination index .noLocation

theorem inProgress_mark (hlive : res.Live i) : (res.mark i).InProgress i := by
  refine ⟨(live_setDestination _ _).mpr hlive, ?_⟩
  rw [mark, moves_setDestination, if_pos rfl]

variable {other : Fin count} {dest : Location} {inner : ScratchResolver count}

theorem destination_setDestination_of_ne (hne : other ≠ i) (dest : Location) :
    ((res.setDestination i dest).moves other).destination = (res.moves other).destination := by
  rw [moves_setDestination, if_neg hne]

theorem source_setDestination (dest : Location) (other : Fin count) :
    ((res.setDestination i dest).moves other).source = (res.moves other).source := by
  rw [moves_setDestination]
  by_cases heq : other = i
  · rw [if_pos heq, heq]
  · rw [if_neg heq]

/-- One round of the loop over the moves that block a destination. -/
def performBlocker (backend : Backend count) (fuel : ℕ) (destination : Location)
    (state : ScratchResolver count) (other : Fin count) : Option (ScratchResolver count) :=
  if (state.moves other).blocks destination && !(state.moves other).isPending then
    performMove backend fuel other state
  else
    some state

theorem performMove_succ {fuel : ℕ} (hred : ¬ (res.moves i).isRedundant) :
    performMove backend (fuel + 1) i res = ((finRange count).foldlM
      (performBlocker backend fuel (res.moves i).destination) (res.mark i)).map
        fun inner => (inner.setDestination i (res.moves i).destination).finishMove backend i := by
  rw [performMove, if_neg hred]
  rfl

theorem card_idle_mark (hidle : (res.moves i).destination ≠ .noLocation) :
    (res.mark i).idle.card < res.idle.card := by
  apply card_lt_card
  rw [ssubset_iff_of_subset]
  · refine ⟨i, mem_filter.mpr ⟨mem_univ _, hidle⟩, fun hmem => ?_⟩
    refine (Finset.mem_filter.mp hmem).2 ?_
    rw [mark, moves_setDestination, if_pos rfl]
  · intro other hother
    have hne := (Finset.mem_filter.mp hother).2
    rw [mark, moves_setDestination] at hne
    by_cases heq : other = i
    · rw [if_pos heq] at hne
      exact absurd rfl hne
    · rw [if_neg heq] at hne
      exact mem_filter.mpr ⟨mem_univ _, hne⟩

theorem Advances.call (hidle : (res.moves i).destination ≠ .noLocation)
    (hinner : Advances (res.mark i) inner) (hfinish : Advances (inner.setDestination i dest) after)
    (hnot : ¬ after.Live i) : Advances res after := by
  refine ⟨fun other hlive => ?_, fun other hprog => ?_, fun other hlive => ?_⟩
  · have hne : other ≠ i := fun heq => hnot (heq ▸ hlive)
    obtain ⟨hlive₁, hdest₁⟩ := hfinish.live _ hlive
    rw [destination_setDestination_of_ne hne] at hdest₁
    obtain ⟨hlive₂, hdest₂⟩ := hinner.live other ((live_setDestination _ _).mp hlive₁)
    rw [mark, destination_setDestination_of_ne hne] at hdest₂
    exact ⟨(live_setDestination _ _).mp hlive₂, hdest₁.trans hdest₂⟩
  · have hne : other ≠ i := by
      rintro rfl
      exact hidle hprog.2
    have hmark : (res.mark i).InProgress other := by
      refine ⟨(live_setDestination _ _).mpr hprog.1, ?_⟩
      rw [mark, destination_setDestination_of_ne hne, hprog.2]
    obtain ⟨hlive, hdest⟩ := hinner.inProgress_iff hmark
    refine hfinish.inProgress other ⟨(live_setDestination _ _).mpr hlive, ?_⟩
    rw [destination_setDestination_of_ne hne, hdest]
  · have hlive₁ := (live_setDestination _ _).mp (hfinish.live _ hlive).1
    rw [hfinish.source _ hlive, source_setDestination, hinner.source _ hlive₁, mark,
      source_setDestination]

theorem waits_setDestination (hwaits : res.Waits) (dest : Location) :
    (res.setDestination i dest).Waits := by
  intro move hmove
  obtain ⟨blocking, hlive, hover⟩ := hwaits _ hmove
  refine ⟨blocking, (live_setDestination _ _).mpr hlive, ?_⟩
  rwa [source_setDestination]

theorem redundant_iff (hsafe : Safe st res) (hlive : res.Live i)
    (hidle : (res.moves i).destination ≠ .noLocation) :
    (res.moves i).isRedundant ↔ (res.moves i).source = (st.moves i).destination := by
  have hdest := (hsafe.destination _ hlive).resolve_right hidle
  have helim : (res.moves i).isEliminated = false := decide_eq_false hlive
  rw [isRedundant, helim, decide_eq_false hidle, hdest]
  simp

section

variable (hred : (res.moves i).source = (st.moves i).destination)

include hred

/-- No pending move waits for a redundant one. -/
theorem blocksAt_eliminate (hne : other ≠ i)
    (hblocks : res.BlocksAt blocking (st.moves other).destination) :
    (res.eliminate i).BlocksAt blocking (st.moves other).destination := by
  have hblocking : blocking ≠ i := by
    rintro rfl
    have hover := hblocks.2
    rw [hred, st.apart _ _ hne.symm] at hover
    cases hover
  rw [BlocksAt, Live, moves_eliminate, if_neg hblocking]
  exact hblocks

theorem waits_eliminate (hsafe : Safe st res) (hlive : res.Live i)
    (hwaits : res.Waits) : (res.eliminate i).Waits := by
  intro move hmove
  obtain ⟨blocking, hblocks⟩ := hwaits _ hmove
  obtain ⟨other, hother, hdest, -⟩ := hsafe.pendingDestination _ hmove
  have hne : other ≠ i := fun heq => hother (heq ▸ hlive)
  rw [hdest] at hblocks ⊢
  exact ⟨blocking, blocksAt_eliminate hred hne hblocks⟩

end

theorem advances_eliminate (hidle : (res.moves i).destination ≠ .noLocation) :
    Advances res (res.eliminate i) := by
  refine ⟨fun other hlive => ?_, fun other hprog => ?_, fun other hlive => ?_⟩
  · obtain ⟨hne, hbefore⟩ := live_of_live_eliminate hlive
    rw [moves_eliminate, if_neg hne]
    exact ⟨hbefore, rfl⟩
  · have hne : other ≠ i := by
      rintro rfl
      exact hidle hprog.2
    rw [Live, moves_eliminate, if_neg hne]
    exact hprog.1
  · rw [moves_eliminate, if_neg (live_of_live_eliminate hlive).1]

/-- A move that blocks another one and is not in progress can be performed. -/
theorem callable_of_blocks (hdest : st.layout.Operand dest)
    (hblocks : ((res.moves other).blocks dest && !(res.moves other).isPending)) :
    res.BlocksAt other dest ∧ (res.moves other).destination ≠ .noLocation ∧
      (res.moves other).source.isConstant = false := by
  rw [and_eq_true, blocks, and_eq_true, not_eq_true', not_eq_true'] at hblocks
  obtain ⟨⟨helim, hover⟩, hpend⟩ := hblocks
  have hlive : res.Live other := of_decide_eq_false helim
  refine ⟨⟨hlive, hover⟩, fun hnone => ?_, ?_⟩
  · have hsrc : (res.moves other).source ≠ .noLocation := hlive
    rw [isPending, decide_eq_true hnone, decide_eq_true hsrc] at hpend
    cases hpend
  · by_contra hconst
    rw [not_eq_false] at hconst
    rw [Layout.overlapsWith_of_not_operand (.inr hconst) hdest] at hover
    cases hover

theorem restored_spec (hsafe : Safe st inner)
    (hadv : Advances (res.mark i) inner) (hlive : res.Live i)
    (hconst : (res.moves i).source.isConstant = false) :
    let restored := inner.setDestination i (st.moves i).destination
    Safe st restored ∧ restored.Live i ∧ (restored.moves i).destination = (st.moves i).destination ∧
      st.layout.Operand (restored.moves i).source := by
  have hinner := hadv.inProgress _ (inProgress_mark hlive)
  have hrestored : Safe st (inner.setDestination i (st.moves i).destination) :=
    hsafe.setDestination hinner (.inl rfl)
  have hlive' : (inner.setDestination i (st.moves i).destination).Live i :=
    (live_setDestination _ _).mpr hinner
  have hsrc : ((inner.setDestination i (st.moves i).destination).moves
      i).source.isConstant = false := by
    rw [source_setDestination, hadv.source _ hinner, mark, source_setDestination, hconst]
  refine ⟨hrestored, hlive', by rw [moves_setDestination, if_pos rfl],
    (hrestored.source _ hlive').resolve_left ?_⟩
  rw [hsrc]
  exact false_ne_true

end Call

end ScratchResolver

end NougatArt.Moves
