import NougatArt.Moves.ScratchResolver

/-!
# No value is lost

Whatever scratch locations are chosen, the value of a move is in its source until it is
performed, then in a scratch location if the move is pending, and then in its
destination. Only destinations and scratch locations are changed.
-/

namespace NougatArt.Moves

open List Location Target

variable {src dest : Location}

/-- Moves to operands of the layout that do not overlap, and the locations outside of them that
can be scratch locations. -/
structure Setting (count : ℕ) where
  layout : Layout
  constants : ℕ → List (BitVec 32)
  moves : Fin count → MoveOperands
  pool : Location → Prop
  destination : ∀ index, layout.Operand (moves index).destination
  width : ∀ index, (moves index).width ≤ ((moves index).destination.words layout.widths).length
  apart : ∀ index other, index ≠ other →
    (moves index).destination.overlapsWith (moves other).destination = false
  pool_operand : ∀ location, pool location → layout.Operand location
  pool_apart : ∀ location, pool location → ∀ index,
    location.overlapsWith (moves index).destination = false

namespace Setting

variable {count : ℕ} (setting : Setting count)

def target : Target := ⟨setting.layout.widths, setting.constants⟩

def initial (index : Fin count) (memory : Memory) : List (BitVec 32) :=
  (setting.target.read memory (setting.moves index).source).take (setting.moves index).width

structure Holds (steps : List Step) (location : Location) (index : Fin count) : Prop where
  length : ∀ memory, (setting.moves index).width ≤ (setting.target.read memory location).length
  value : ∀ memory, (setting.target.read (setting.target.run steps memory) location).take
    (setting.moves index).width = setting.initial index memory

variable {setting} {steps : List Step} {i : Fin count}

theorem Holds.of_keeps {written loc : Location} (hholds : setting.Holds steps loc i)
    (hkeeps : setting.layout.Keeps written loc) (hwritten : setting.layout.Operand written) :
    setting.Holds (steps ++ [.move src written]) loc i := by
  refine ⟨hholds.length, fun memory => ?_⟩
  rw [run_append, ← hholds.value memory]
  exact congrArg _ (hkeeps.read_move hwritten src _)

theorem Holds.move (hholds : setting.Holds steps src i) (hdest : setting.layout.Operand dest)
    (hwidth : (setting.moves i).width ≤ (dest.words setting.layout.widths).length) :
    setting.Holds (steps ++ [.move src dest]) dest i := by
  refine ⟨fun memory => ?_, fun memory => ?_⟩
  · rw [read_of_not_constant hdest.wellFormed.isConstant, length_map]
    exact hwidth
  · rw [run_append, ← hholds.value memory]
    exact take_read_move hdest.wellFormed hwidth (hholds.length _)

end Setting

namespace ScratchResolver

variable {count : ℕ} (setting : Setting count)

def Live (resolver : ScratchResolver count) (index : Fin count) : Prop :=
  (resolver.moves index).source ≠ .noLocation

/-- What is left of the moves, where their values are, and what was changed. -/
structure Safe (resolver : ScratchResolver count) : Prop where
  eliminated : ∀ index, ¬ resolver.Live index → (resolver.moves index).destination = .noLocation
  destination : ∀ index, resolver.Live index →
    (resolver.moves index).destination = (setting.moves index).destination ∨
    (resolver.moves index).destination = .noLocation
  is64BitMove : ∀ index, (resolver.moves index).is64BitMove = (setting.moves index).is64BitMove
  source : ∀ index, resolver.Live index → (resolver.moves index).source.isConstant = true ∨
    setting.layout.Operand (resolver.moves index).source
  pendingSource : ∀ move ∈ resolver.pendingMoves, setting.layout.Operand move.source
  pendingDestination : ∀ move ∈ resolver.pendingMoves, ∃ index, ¬ resolver.Live index ∧
    move.destination = (setting.moves index).destination ∧
    move.is64BitMove = (setting.moves index).is64BitMove
  pendingNodup : resolver.pendingMoves.Pairwise fun move other =>
    move.destination ≠ other.destination
  -- The destination of a move can hold what the moves with the same source read.
  fits : ∀ index other, resolver.Live index →
    (resolver.moves index).source = (resolver.moves other).source →
      (setting.moves index).width ≤
        ((setting.moves other).destination.words setting.layout.widths).length
  pendingFits : ∀ move ∈ resolver.pendingMoves, ∀ index,
    (resolver.moves index).source = move.source →
      (setting.moves index).width ≤ (move.destination.words setting.layout.widths).length
  live : ∀ index, resolver.Live index →
    setting.Holds resolver.emitted (resolver.moves index).source index
  pending : ∀ move ∈ resolver.pendingMoves, ∀ index,
    move.destination = (setting.moves index).destination →
      setting.Holds resolver.emitted move.source index
  done : ∀ index, ¬ resolver.Live index →
    (∀ move ∈ resolver.pendingMoves, move.destination ≠ (setting.moves index).destination) →
      setting.Holds resolver.emitted (setting.moves index).destination index
  scratches : ∀ location ∈ resolver.scratches, setting.pool location
  changed : ∀ memory word, setting.target.run resolver.emitted memory word ≠ memory word →
    (∃ index, word ∈ (setting.moves index).destination.words setting.layout.widths) ∨
      ∃ location, setting.pool location ∧ word ∈ location.words setting.layout.widths

variable {setting} {res after : ScratchResolver count}

variable {loc : Location} {other : Fin count} {move : MoveOperands}

theorem isBlockedByMoves_eq_false : res.isBlockedByMoves loc = false ↔
      (∀ move ∈ res.pendingMoves, move.blocks loc = false) ∧
        ∀ i, (res.moves i).blocks loc = false := by
  simp [isBlockedByMoves]

theorem blocks_of_live {i : Fin count} (hlive : res.Live i) (loc : Location) :
    (res.moves i).blocks loc = (res.moves i).source.overlapsWith loc := by
  have hnot : (res.moves i).isEliminated = false := decide_eq_false hlive
  rw [MoveOperands.blocks, hnot, Bool.not_false, Bool.true_and]

theorem overlapsWith_false (hsafe : Safe setting res) (hfree : res.isBlockedByMoves loc = false) :
    (∀ move ∈ res.pendingMoves, move.source.overlapsWith loc = false) ∧
      ∀ i, res.Live i → (res.moves i).source.overlapsWith loc = false := by
  obtain ⟨hpend, hmoves⟩ := isBlockedByMoves_eq_false.mp hfree
  refine ⟨fun move hmove => ?_, fun i hlive => ?_⟩
  · have hnot : move.isEliminated = false :=
      decide_eq_false ((hsafe.pendingSource _ hmove).ne_noLocation)
    have hblocks := hpend _ hmove
    rwa [MoveOperands.blocks, hnot, Bool.not_false, Bool.true_and] at hblocks
  · rw [← blocks_of_live hlive]
    exact hmoves i

/-- A location that can be written when a move is performed. -/
structure Writable (setting : Setting count) (resolver : ScratchResolver count) (index : Fin count)
    (location : Location) : Prop where
  operand : setting.layout.Operand location
  unblocked : resolver.isBlockedByMoves location = false
  width : (setting.moves index).width ≤ (location.words setting.layout.widths).length
  apart : ∀ other, other ≠ index → ¬ resolver.Live other →
    (∀ move ∈ resolver.pendingMoves, move.destination ≠ (setting.moves other).destination) →
      (setting.moves other).destination.overlapsWith location = false
  words : ∀ word ∈ location.words setting.layout.widths,
    (∃ other, word ∈ (setting.moves other).destination.words setting.layout.widths) ∨
      ∃ scratch, setting.pool scratch ∧ word ∈ scratch.words setting.layout.widths

/-- The value of a move goes to another location, and other moves with the same source may take it
from there. -/
structure Transfer (setting : Setting count) (resolver after : ScratchResolver count)
    (index : Fin count) (source location : Location) : Prop where
  emitted : after.emitted = resolver.emitted ++ [.move source location]
  source_ne : source ≠ .noLocation
  performed : (after.moves index).source = .noLocation ∧
    (after.moves index).destination = .noLocation ∧
    (after.moves index).is64BitMove = (resolver.moves index).is64BitMove
  others : ∀ other, other ≠ index → after.moves other = resolver.moves other ∨
    (resolver.moves other).source = source ∧
      after.moves other = { resolver.moves other with source := location }
  pending : ∃ rest new, after.pendingMoves = rest ++ new ∧ rest.Sublist resolver.pendingMoves ∧
    (∀ move, move ∈ rest ↔ move ∈ resolver.pendingMoves ∧
      move.destination ≠ (setting.moves index).destination) ∧
    (new = [] ∧ location = (setting.moves index).destination ∨
      new = [⟨location, (setting.moves index).destination, (setting.moves index).is64BitMove⟩])
  scratches : ∀ scratch ∈ after.scratches, setting.pool scratch

theorem destination_injective {i : Fin count}
    (hsame : (setting.moves i).destination = (setting.moves other).destination) : i = other := by
  by_contra hne
  have hapart := setting.apart _ _ hne
  rw [hsame, overlapsWith_self] at hapart
  cases hapart

namespace Transfer

variable {i : Fin count}
  (htrans : Transfer setting res after i src loc)

include htrans

theorem live_of_live (hafter : after.Live other) : other ≠ i ∧ res.Live other := by
  have hne : other ≠ i := by
    rintro rfl
    exact hafter htrans.performed.1
  refine ⟨hne, ?_⟩
  rcases htrans.others _ hne with hsame | ⟨hsrc, -⟩
  · rwa [Live, hsame] at hafter
  · rw [Live, hsrc]
    exact htrans.source_ne

theorem not_live (hlive : ¬ res.Live other) : ¬ after.Live other :=
  fun hafter => hlive (htrans.live_of_live hafter).2

/-- The other moves keep their fields, or their source is the new location. -/
theorem fields (hne : other ≠ i) : (after.moves other).destination = (res.moves other).destination ∧
    (after.moves other).is64BitMove = (res.moves other).is64BitMove ∧
    ((after.moves other).source = (res.moves other).source ∨
      (res.moves other).source = src ∧ (after.moves other).source = loc) := by
  rcases htrans.others _ hne with hsame | ⟨hsrc, hsame⟩
  · rw [hsame]
    exact ⟨rfl, rfl, .inl rfl⟩
  · rw [hsame]
    exact ⟨rfl, rfl, .inr ⟨hsrc, rfl⟩⟩

theorem mem_pendingMoves (hmove : move ∈ after.pendingMoves) :
    (move ∈ res.pendingMoves ∧ move.destination ≠ (setting.moves i).destination) ∨
      move = ⟨loc, (setting.moves i).destination, (setting.moves i).is64BitMove⟩ := by
  obtain ⟨rest, new, hpend, -, hrest, hnew⟩ := htrans.pending
  rw [hpend] at hmove
  rcases mem_append.mp hmove with hold | hlast
  · exact .inl ((hrest move).mp hold)
  · rcases hnew with ⟨rfl, -⟩ | rfl
    · cases hlast
    · exact .inr (mem_singleton.mp hlast)

theorem mem_of_ne (hmove : move ∈ res.pendingMoves)
    (hne : move.destination ≠ (setting.moves i).destination) : move ∈ after.pendingMoves := by
  obtain ⟨rest, new, hpend, -, hrest, -⟩ := htrans.pending
  rw [hpend]
  exact mem_append_left _ ((hrest move).mpr ⟨hmove, hne⟩)

/-- A move that is not pending after it was performed went to its destination. -/
theorem location_eq
    (hdone : ∀ move ∈ after.pendingMoves, move.destination ≠ (setting.moves i).destination) :
    loc = (setting.moves i).destination := by
  obtain ⟨rest, new, hpend, -, -, hnew⟩ := htrans.pending
  rcases hnew with ⟨-, heq⟩ | rfl
  · exact heq
  · refine absurd rfl (hdone ⟨loc, _, (setting.moves i).is64BitMove⟩ ?_)
    rw [hpend]
    exact mem_append_right _ (mem_singleton_self _)

theorem pendingNodup (hnodup : res.pendingMoves.Pairwise fun move other =>
      move.destination ≠ other.destination) :
    after.pendingMoves.Pairwise fun move other => move.destination ≠ other.destination := by
  obtain ⟨rest, new, hpend, hsublist, hrest, hnew⟩ := htrans.pending
  rw [hpend, pairwise_append]
  refine ⟨hnodup.sublist hsublist, ?_, fun move hmove other hother => ?_⟩
  · rcases hnew with ⟨rfl, -⟩ | rfl
    · exact .nil
    · exact pairwise_singleton _ _
  · rcases hnew with ⟨rfl, -⟩ | rfl
    · cases hother
    · rw [mem_singleton.mp hother]
      exact ((hrest move).mp hmove).2

end Transfer

section Transfer

variable {i : Fin count} (hsafe : Safe setting res)
  (htrans : Transfer setting res after i src loc)
  (hwritable : Writable setting res i loc)
  (hholds : setting.Holds res.emitted src i)
  (hfits : ∀ other, (res.moves other).source = src →
    (setting.moves other).width ≤ (loc.words setting.layout.widths).length ∧
      (setting.moves other).width ≤
        ((setting.moves i).destination.words setting.layout.widths).length)

include hsafe htrans hwritable

omit hsafe in
/-- What keeps its value holds it after the write. -/
theorem Transfer.holds_of_apart {place : Location} (hplace : setting.Holds res.emitted place other)
    (hkeeps : setting.layout.Keeps loc place) : setting.Holds after.emitted place other := by
  rw [htrans.emitted]
  exact hplace.of_keeps hkeeps hwritable.operand

omit hsafe in
theorem Transfer.live_of_ne (hne : other ≠ i) (hlive : res.Live other) : after.Live other := by
  rcases (htrans.fields hne).2.2 with hsrc | ⟨-, hsrc⟩
  · rwa [Live, hsrc]
  · rw [Live, hsrc]
    exact hwritable.operand.ne_noLocation

omit htrans in
/-- The sources of the other moves are not the new location. -/
theorem Safe.source_ne_location (hlive : res.Live other) : (res.moves other).source ≠ loc := by
  intro heq
  have hapart := (overlapsWith_false hsafe hwritable.unblocked).2 other hlive
  rw [heq, overlapsWith_self] at hapart
  cases hapart

omit htrans in
theorem Safe.pendingSource_ne_location (hmove : move ∈ res.pendingMoves) : move.source ≠ loc := by
  intro heq
  have hapart := (overlapsWith_false hsafe hwritable.unblocked).1 move hmove
  rw [heq, overlapsWith_self] at hapart
  cases hapart

theorem Safe.fits_transfer (first second : Fin count) (hlive : after.Live first)
    (hsame : (after.moves first).source = (after.moves second).source) :
    (setting.moves first).width ≤
      ((setting.moves second).destination.words setting.layout.widths).length := by
  have hlive' : after.Live second := by rwa [Live, ← hsame]
  obtain ⟨hne, hbefore⟩ := htrans.live_of_live hlive
  obtain ⟨hne', hbefore'⟩ := htrans.live_of_live hlive'
  obtain ⟨-, -, hsrc⟩ := htrans.fields hne
  obtain ⟨-, -, hsrc'⟩ := htrans.fields hne'
  rcases hsrc with hsrc | ⟨hfrom, hsrc⟩
  · rcases hsrc' with hsrc' | ⟨-, hsrc'⟩
    · rw [hsrc, hsrc'] at hsame
      exact hsafe.fits _ _ hbefore hsame
    · rw [hsrc, hsrc'] at hsame
      exact absurd hsame (hsafe.source_ne_location hwritable hbefore)
  · rcases hsrc' with hsrc' | ⟨hfrom', -⟩
    · rw [hsrc, hsrc'] at hsame
      exact absurd hsame.symm (hsafe.source_ne_location hwritable hbefore')
    · exact hsafe.fits _ _ hbefore (hfrom.trans hfrom'.symm)

include hfits in
theorem Safe.pendingFits_transfer (move : MoveOperands) (hmove : move ∈ after.pendingMoves)
    (other : Fin count) (hsame : (after.moves other).source = move.source) :
    (setting.moves other).width ≤ (move.destination.words setting.layout.widths).length := by
  have hop : move.source ≠ .noLocation := by
    rcases htrans.mem_pendingMoves hmove with ⟨hold, -⟩ | rfl
    · exact (hsafe.pendingSource _ hold).ne_noLocation
    · exact hwritable.operand.ne_noLocation
  have hlive : after.Live other := by rwa [Live, hsame]
  obtain ⟨hne, hbefore⟩ := htrans.live_of_live hlive
  obtain ⟨-, -, hsrc⟩ := htrans.fields hne
  rcases htrans.mem_pendingMoves hmove with ⟨hold, -⟩ | rfl
  · rcases hsrc with hsrc | ⟨-, hsrc⟩
    · rw [hsrc] at hsame
      exact hsafe.pendingFits _ hold _ hsame
    · rw [hsrc] at hsame
      exact absurd hsame.symm (hsafe.pendingSource_ne_location hwritable hold)
  · rcases hsrc with hsrc | ⟨hfrom, -⟩
    · rw [hsrc] at hsame
      exact absurd hsame (hsafe.source_ne_location hwritable hbefore)
    · exact (hfits _ hfrom).2

include hholds in
omit hsafe in
theorem Transfer.holds_location : setting.Holds after.emitted loc i := by
  rw [htrans.emitted]
  exact hholds.move hwritable.operand hwritable.width

include hfits

theorem Safe.live_transfer (other : Fin count) (hlive : after.Live other) :
    setting.Holds after.emitted (after.moves other).source other := by
  obtain ⟨hne, hbefore⟩ := htrans.live_of_live hlive
  obtain ⟨-, -, hsrc⟩ := htrans.fields hne
  rcases hsrc with hsrc | ⟨hfrom, hsrc⟩
  · rw [hsrc]
    apply htrans.holds_of_apart hwritable (hsafe.live _ hbefore)
    exact (hsafe.source _ hbefore).imp_right fun hop =>
      ⟨hop, (overlapsWith_false hsafe hwritable.unblocked).2 other hbefore⟩
  · rw [hsrc, htrans.emitted]
    have hother := hsafe.live _ hbefore
    rw [hfrom] at hother
    exact hother.move hwritable.operand (hfits _ hfrom).1

include hholds

theorem Safe.transfer : Safe setting after := by
  obtain ⟨hpendingApart, -⟩ := overlapsWith_false hsafe hwritable.unblocked
  have hloc := htrans.holds_location hwritable hholds
  refine ⟨fun other hother => ?_, fun other hother => ?_, fun other => ?_, fun other hother => ?_,
    fun move hmove => ?_, fun move hmove => ?_, htrans.pendingNodup hsafe.pendingNodup,
    hsafe.fits_transfer htrans hwritable, hsafe.pendingFits_transfer htrans hwritable hfits,
    hsafe.live_transfer htrans hwritable hfits, fun move hmove other hother => ?_,
    fun other hother hdone => ?_, htrans.scratches, fun memory word hword => ?_⟩
  · by_cases heq : other = i
    · rw [heq]
      exact htrans.performed.2.1
    · rw [(htrans.fields heq).1]
      exact hsafe.eliminated _ fun hlive => hother (htrans.live_of_ne hwritable heq hlive)
  · obtain ⟨hne, hbefore⟩ := htrans.live_of_live hother
    rw [(htrans.fields hne).1]
    exact hsafe.destination _ hbefore
  · by_cases heq : other = i
    · rw [heq, htrans.performed.2.2]
      exact hsafe.is64BitMove i
    · rw [(htrans.fields heq).2.1]
      exact hsafe.is64BitMove other
  · obtain ⟨hne, hbefore⟩ := htrans.live_of_live hother
    rcases (htrans.fields hne).2.2 with hsrc | ⟨-, hsrc⟩
    · rw [hsrc]
      exact hsafe.source _ hbefore
    · rw [hsrc]
      exact .inr hwritable.operand
  · rcases htrans.mem_pendingMoves hmove with ⟨hold, -⟩ | rfl
    · exact hsafe.pendingSource _ hold
    · exact hwritable.operand
  · rcases htrans.mem_pendingMoves hmove with ⟨hold, -⟩ | rfl
    · obtain ⟨other, hother, hfields⟩ := hsafe.pendingDestination _ hold
      exact ⟨other, htrans.not_live hother, hfields⟩
    · exact ⟨i, fun hafter => (htrans.live_of_live hafter).1 rfl, rfl, rfl⟩
  · rcases htrans.mem_pendingMoves hmove with ⟨hold, -⟩ | rfl
    · exact htrans.holds_of_apart hwritable (hsafe.pending _ hold _ hother)
        (.inr ⟨hsafe.pendingSource _ hold, hpendingApart _ hold⟩)
    · obtain rfl := destination_injective hother
      exact hloc
  · by_cases heq : other = i
    · subst heq
      rwa [htrans.location_eq hdone] at hloc
    have hbefore : ¬ res.Live other := fun hlive =>
      hother (htrans.live_of_ne hwritable heq hlive)
    have hnone : ∀ move ∈ res.pendingMoves,
        move.destination ≠ (setting.moves other).destination := by
      intro move hmove hsame
      refine hdone _ (htrans.mem_of_ne hmove fun hindex => heq ?_) hsame
      exact destination_injective (hsame.symm.trans hindex)
    exact htrans.holds_of_apart hwritable (hsafe.done _ hbefore hnone)
      (.inr ⟨setting.destination other, hwritable.apart _ heq hbefore hnone⟩)
  · by_cases hmem : word ∈ loc.words setting.layout.widths
    · exact hwritable.words _ hmem
    · rw [htrans.emitted, run_append] at hword
      refine hsafe.changed memory word fun hsame => hword ?_
      rw [← hsame]
      exact move_of_notMem hmem

end Transfer

end ScratchResolver

end NougatArt.Moves
