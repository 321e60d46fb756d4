import NougatArt.Moves.ScratchResolverFresh
import NougatArt.Moves.ScratchResolverWhole
import NougatArt.Moves.SwapResolverResolves

/-!
# The resolver with scratch locations performs parallel moves

All pending moves are performed if no destination is borrowed as a scratch location, or
if every source that overlaps with the destination of a move on a cycle is equal to it.
With a source on a cycle that is a pair and a destination that is one of its registers, a
move can wait for a pending move that is performed when nothing asks for the first one
any more.
-/

namespace NougatArt.Moves

open List ScratchResolver MoveOperands Layout Target Advances Location

namespace ScratchResolver

variable {count : ℕ} {setting : Setting count} {backend : Backend count}
  {resolver : ScratchResolver count} {index : Fin count}

/-! ## The loops of `EmitNativeCode` -/

def initial (moves : Fin count → MoveOperands) : ScratchResolver count := ⟨moves, [], [], []⟩

variable (setting resolver) in
structure Between : Prop where
  safe : Safe setting resolver
  advances : Advances (initial setting.moves) resolver

theorem Between.idle (hbetween : Between setting resolver)
    (hlive : resolver.Live index) : (resolver.moves index).destination ≠ .noLocation := by
  rw [(hbetween.advances.live _ hlive).2]
  exact (setting.destination index).ne_noLocation

/-- The calls of the first loop perform their moves and keep an invariant. -/
def CallsKeep (setting : Setting count) (backend : Backend count)
    (Inv : ScratchResolver count → Prop) : Prop :=
  ∀ resolver index, Between setting resolver → Inv resolver → resolver.Live index →
    (resolver.moves index).source.isConstant = false →
      ∃ after, performMove backend (count + 1) index resolver = some after ∧
        Safe setting after ∧ Inv after ∧ Advances resolver after ∧ ¬ after.Live index

/-- The first loop, for an invariant that a call keeps. -/
theorem exists_performOtherMoves (Inv : ScratchResolver count → Prop)
    (hcall : CallsKeep setting backend Inv)
    (hsafe : Safe setting (initial setting.moves)) (hinv : Inv (initial setting.moves)) :
    ∃ after, (finRange count).foldlM (performOtherMove backend) (initial setting.moves) =
        some after ∧ Between setting after ∧ Inv after ∧
      ∀ index, after.Live index → (after.moves index).source.isConstant := by
  have hloop : ∀ (list : List (Fin count)) (resolver : ScratchResolver count),
      Between setting resolver → Inv resolver →
      ∃ after, list.foldlM (performOtherMove backend) resolver = some after ∧
        Between setting after ∧ Inv after ∧ Advances resolver after ∧
        ∀ index ∈ list, after.Live index → (after.moves index).source.isConstant = true := by
    intro list
    induction list with
    | nil => exact fun resolver hbetween hinv =>
      ⟨resolver, rfl, hbetween, hinv, refl _, fun _ hmem => nomatch hmem⟩
    | cons head tail ih =>
      intro resolver hbetween hinv
      obtain ⟨middle, hmiddle, hbetween', hinv', hadv, hhead⟩ :
          ∃ middle, performOtherMove backend resolver head = some middle ∧
            Between setting middle ∧ Inv middle ∧ Advances resolver middle ∧
            (middle.Live head → (middle.moves head).source.isConstant = true) := by
        rw [performOtherMove]
        by_cases hcase : (!(resolver.moves head).isEliminated &&
            !(resolver.moves head).source.isConstant) = true
        · rw [Bool.and_eq_true, Bool.not_eq_true', Bool.not_eq_true'] at hcase
          obtain ⟨after, hafter, hsafe', hinv', hadv, hnot⟩ :=
            hcall _ head hbetween hinv (of_decide_eq_false hcase.1) hcase.2
          refine ⟨after, ?_, ⟨hsafe', hbetween.advances.trans hadv⟩, hinv', hadv,
            fun hlive => absurd hlive hnot⟩
          rw [hcase.1, hcase.2]
          exact hafter
        · refine ⟨resolver, if_neg hcase, hbetween, hinv, refl _, fun hlive => ?_⟩
          have helim : (resolver.moves head).isEliminated = false := decide_eq_false hlive
          simpa [helim] using hcase
      obtain ⟨after, hafter, hbetween'', hinv'', hadv', htail⟩ := ih _ hbetween' hinv'
      refine ⟨after, ?_, hbetween'', hinv'', hadv.trans hadv', fun index hindex hlive => ?_⟩
      · rw [foldlM_cons, hmiddle]
        exact hafter
      · rcases mem_cons.mp hindex with rfl | hmem
        · rw [hadv'.source _ hlive]
          exact hhead (hadv'.live _ hlive).1
        · exact htail _ hmem hlive
  obtain ⟨after, hafter, hbetween, hinv', -, hall⟩ :=
    hloop (finRange count) _ ⟨hsafe, refl _⟩ hinv
  exact ⟨after, hafter, hbetween, hinv', fun index => hall index (mem_finRange index)⟩

variable (setting resolver) in
structure Clear : Prop where
  safe : Safe setting resolver
  empty : resolver.pendingMoves = []
  destination : ∀ index, resolver.Live index →
    (resolver.moves index).destination = (setting.moves index).destination
  apart : ∀ index other, resolver.Live index → resolver.Live other →
    (resolver.moves index).source.overlapsWith (setting.moves other).destination = false

section

variable (hclear : Clear setting resolver)

include hclear

theorem Clear.unblocked (hlive : resolver.Live index) :
    resolver.isBlockedByMoves (setting.moves index).destination = false := by
  refine isBlockedByMoves_eq_false.mpr ⟨fun move hmove => ?_, fun other => ?_⟩
  · rw [hclear.empty] at hmove
    cases hmove
  · by_cases hother : resolver.Live other
    · rw [blocks_of_live hother]
      exact hclear.apart _ _ hother hlive
    · have helim : (resolver.moves other).isEliminated = true := decide_eq_true (not_not.mp hother)
      rw [blocks, helim]
      rfl

/-- One more move is performed, and others may take their values from its destination. -/
theorem Clear.transfer {after : ScratchResolver count} (hlive : resolver.Live index)
    (htrans : Transfer setting resolver after index (resolver.moves index).source
      (setting.moves index).destination) (hempty : after.pendingMoves = []) :
    Clear setting after := by
  refine ⟨hclear.safe.transfer htrans (writable_destination (hclear.unblocked hlive))
    (hclear.safe.live _ hlive)
    (fun other hsame => and_self_iff.mpr (hclear.safe.fits_of_eq hlive hsame)), hempty,
    fun other hother => ?_, fun first second hfirst hsnd => ?_⟩
  · obtain ⟨hne, hbefore⟩ := htrans.live_of_live hother
    rw [(htrans.fields hne).1]
    exact hclear.destination _ hbefore
  · obtain ⟨hne, hbefore⟩ := htrans.live_of_live hfirst
    obtain ⟨hne', hbefore'⟩ := htrans.live_of_live hsnd
    rcases (htrans.fields hne).2.2 with hsrc | ⟨-, hsrc⟩
    · rw [hsrc]
      exact hclear.apart _ _ hbefore hbefore'
    · rw [hsrc]
      exact setting.apart _ _ hne'.symm

theorem Clear.performRegisterMove (index : Fin count) :
    Clear setting (resolver.performRegisterMove index) := by
  rw [ScratchResolver.performRegisterMove]
  split_ifs with hcase
  · rw [Bool.and_eq_true, Bool.and_eq_true, Bool.not_eq_true'] at hcase
    have hlive : resolver.Live index := of_decide_eq_false hcase.1.1
    rw [hclear.destination _ hlive]
    exact hclear.transfer hlive (hclear.safe.transfer_performTo hlive _ hclear.safe.scratches
      (.inl ⟨rfl, rfl⟩)) hclear.empty
  · exact hclear

/-- The steps of the last loop leave the other moves as they are. -/
theorem Clear.transfer_last (hlive : resolver.Live index) :
    Transfer setting resolver ((resolver.emit (resolver.moves index).source
      (setting.moves index).destination).eliminate index) index (resolver.moves index).source
        (setting.moves index).destination := by
  refine ⟨rfl, hlive, ?_, fun other hne => ?_, ⟨[], [], hclear.empty, nil_sublist _,
    fun move => ?_, .inl ⟨rfl, rfl⟩⟩, hclear.safe.scratches⟩
  · rw [moves_eliminate, if_pos rfl]
    exact ⟨rfl, rfl, rfl⟩
  · rw [moves_eliminate, if_neg hne]
    exact .inl rfl
  · rw [hclear.empty]
    simp

theorem Clear.performLastMove (index : Fin count) :
    Clear setting (resolver.performLastMove index) ∧ ¬ (resolver.performLastMove index).Live index ∧
      ∀ other, (resolver.performLastMove index).Live other → resolver.Live other := by
  rw [ScratchResolver.performLastMove]
  split_ifs with hcase
  · rw [Bool.not_eq_true'] at hcase
    have hlive : resolver.Live index := of_decide_eq_false hcase
    rw [hclear.destination _ hlive]
    have htrans := hclear.transfer_last hlive
    exact ⟨hclear.transfer hlive htrans hclear.empty, htrans.not_live_index,
      fun other hother => (htrans.live_of_live hother).2⟩
  · refine ⟨hclear, fun hlive => hcase ?_, fun _ hother => hother⟩
    have helim : (resolver.moves index).isEliminated = false := decide_eq_false hlive
    rw [helim]
    rfl

theorem Clear.foldl_performLastMove :
    Clear setting ((List.finRange count).foldl ScratchResolver.performLastMove resolver) ∧
      ∀ index, ¬ ((List.finRange count).foldl ScratchResolver.performLastMove resolver).Live
        index := by
  have hloop : ∀ (list : List (Fin count)) (resolver : ScratchResolver count),
      Clear setting resolver →
      Clear setting (list.foldl ScratchResolver.performLastMove resolver) ∧
      (∀ index ∈ list, ¬ (list.foldl ScratchResolver.performLastMove resolver).Live index) ∧
      ∀ index, (list.foldl ScratchResolver.performLastMove resolver).Live index →
        resolver.Live index := by
    intro list
    induction list with
    | nil => exact fun _ hclear => ⟨hclear, (fun _ hmem => nomatch hmem), fun _ hlive => hlive⟩
    | cons head tail ih =>
      intro resolver hclear
      obtain ⟨hclear', hhead, hlive⟩ := hclear.performLastMove head
      obtain ⟨hclear'', htail, hlive'⟩ := ih _ hclear'
      refine ⟨hclear'', fun index hindex hafter => ?_, fun index hafter =>
        hlive index (hlive' _ hafter)⟩
      rcases mem_cons.mp hindex with rfl | hmem
      · exact hhead (hlive' _ hafter)
      · exact htail _ hmem hafter
  obtain ⟨hclear', hall, -⟩ := hloop (finRange count) _ hclear
  exact ⟨hclear', fun index => hall index (mem_finRange index)⟩

end

/-- The resolver performs all moves if no move is pending after the first loop. -/
theorem resolve_spec (Inv : ScratchResolver count → Prop) (hcall : CallsKeep setting backend Inv)
    (hempty : ∀ resolver, Between setting resolver → Inv resolver →
      (∀ index, resolver.Live index → (resolver.moves index).source.isConstant) →
        resolver.pendingMoves = [])
    (hsafe : Safe setting (initial setting.moves)) (hinv : Inv (initial setting.moves)) :
    ∃ after, resolve backend setting.moves = some after ∧ Clear setting after ∧
      ∀ index, ¬ after.Live index := by
  obtain ⟨middle, hmiddle, hbetween, hinv', hconst⟩ := exists_performOtherMoves Inv hcall hsafe hinv
  have hclear : Clear setting middle := by
    refine ⟨hbetween.safe, hempty _ hbetween hinv' hconst, fun index hlive => ?_,
      fun index other hlive _ => ?_⟩
    · exact (hbetween.safe.destination _ hlive).resolve_right (hbetween.idle hlive)
    · exact overlapsWith_of_not_operand (.inr (hconst _ hlive)) (setting.destination other)
  have hregisters : ∀ (list : List (Fin count)) (resolver : ScratchResolver count),
      Clear setting resolver → Clear setting (list.foldl performRegisterMove resolver) := by
    intro list
    induction list with
    | nil => exact fun _ hclear => hclear
    | cons head tail ih => exact fun resolver hclear => ih _ (hclear.performRegisterMove head)
  obtain ⟨hafter, hnone⟩ := (hregisters (finRange count) _ hclear).foldl_performLastMove
  refine ⟨_, ?_, hafter, hnone⟩
  change ((finRange count).foldlM (performOtherMove backend) (initial setting.moves)).bind _ = _
  rw [hmiddle]
  rfl

theorem card_idle_le (resolver : ScratchResolver count) : resolver.idle.card ≤ count + 1 :=
  (Finset.card_le_univ _).trans ((Fintype.card_fin count).le.trans (Nat.le_succ count))

section

variable (hlawful : Lawful setting.layout setting.pool backend)
  (hsafe : Safe setting (initial setting.moves))

include hlawful hsafe

/-- Scratch locations that are never destinations. -/
theorem resolve_fresh (hborrows : NeverBorrows setting.pool backend) :
    ∃ after, resolve backend setting.moves = some after ∧ Clear setting after ∧
      ∀ index, ¬ after.Live index := by
  refine resolve_spec (fun resolver => resolver.Waits ∧ Fresh setting resolver)
    (fun resolver index hbetween hinv hlive hconst => ?_)
    (fun resolver hbetween hinv hconst => ?_) hsafe
    ⟨(fun _ hmem => nomatch hmem), fun _ hmem => nomatch hmem⟩
  · obtain ⟨after, hafter, hcall, hnot⟩ := performMove_fresh hlawful hborrows (count + 1) _
      _ hbetween.safe hinv.1 hinv.2 hlive (hbetween.idle hlive) hconst
      (card_idle_le resolver)
    exact ⟨after, hafter, hcall.safe, ⟨hcall.waits, hcall.fresh⟩, hcall.advances, hnot⟩
  · -- A pending move waits for a move whose source is a location.
    apply eq_nil_iff_forall_not_mem.mpr
    intro move hmove
    obtain ⟨blocking, hlive, hover⟩ := hinv.1 _ hmove
    obtain ⟨index, -, hdest, -⟩ := hbetween.safe.pendingDestination _ hmove
    rw [hdest, overlapsWith_of_not_operand (.inr (hconst _ hlive))
      (setting.destination index)] at hover
    cases hover

/-- Sources that are whole destinations of the moves on cycles. -/
theorem resolve_whole (hwhole : ∀ top, Whole setting top none (initial setting.moves)) :
    ∃ after, resolve backend setting.moves = some after ∧ Clear setting after ∧
      ∀ index, ¬ after.Live index := by
  refine resolve_spec
    (fun resolver => (∀ top, Whole setting top none resolver) ∧ resolver.pendingMoves = [])
    (fun resolver index hbetween hinv hlive hconst => ?_) (fun _ _ hinv _ => hinv.2) hsafe
    ⟨hwhole, rfl⟩
  obtain ⟨after, hafter, hcall, hnot⟩ := performMove_whole hlawful (count + 1) _ _
    hbetween.safe (hinv.1 index) hinv.2 hlive (hbetween.idle hlive) hconst
    (fun other hprog => absurd hprog.2 (hbetween.idle hprog.1)) (card_idle_le resolver)
  -- No move is in progress, so no pending move waits for one.
  have hempty : after.pendingMoves = [] := by
    apply eq_nil_iff_forall_not_mem.mpr
    intro move hmove
    obtain ⟨blocking, hblocks⟩ := hcall.waits _ hmove
    have hprog := (hcall.whole.waitsFor _ hmove _ hblocks).1.resolve_right
      (fun hnone => nomatch hnone)
    exact Between.idle ⟨hcall.safe, hbetween.advances.trans hcall.advances⟩ hblocks.1 hprog.2
  exact ⟨after, hafter, hcall.safe, ⟨hcall.whole.of_empty hempty, hempty⟩, hcall.advances, hnot⟩

end

end ScratchResolver

section ScratchParallel

variable (layout : Layout) (constants : ℕ → List (BitVec 32)) (pool : Location → Prop)
  (moves : List MoveOperands)

/-- Parallel moves between operands of the layout whose destinations do not overlap; the locations
of the pool are outside of the moves. -/
structure ScratchParallel : Prop where
  destination : ∀ move ∈ moves, layout.Operand move.destination
  source : ∀ move ∈ moves, move.source.isConstant = true ∨ layout.Operand move.source
  width : ∀ move ∈ moves, move.width ≤ (move.destination.words layout.widths).length
  length : ∀ move ∈ moves, ∀ memory,
    move.width ≤ (read ⟨layout.widths, constants⟩ memory move.source).length
  disjoint : moves.Pairwise fun move other =>
    move.destination.overlapsWith other.destination = false
  pool_operand : ∀ location, pool location → layout.Operand location
  pool_destination : ∀ location, pool location → ∀ move ∈ moves,
    location.overlapsWith move.destination = false
  pool_source : ∀ location, pool location → ∀ move ∈ moves,
    location.overlapsWith move.source = false

/-- The emitted steps leave in every destination the value that its source had, no move stays
pending, and only destinations and scratch locations are changed. -/
def ScratchResolves (backend : Backend (buildInitialMoveList moves).length) : Prop :=
  ∃ resolver, resolve backend (buildInitialMoveList moves).get = some resolver ∧
    resolver.pendingMoves = [] ∧ ∀ memory, (∀ move ∈ moves, (read ⟨layout.widths, constants⟩
          (run ⟨layout.widths, constants⟩ resolver.emitted memory)
            move.destination).take move.width =
        (read ⟨layout.widths, constants⟩ memory move.source).take move.width) ∧
      ∀ word, run ⟨layout.widths, constants⟩ resolver.emitted memory word ≠ memory word →
        (∃ move ∈ moves, word ∈ move.destination.words layout.widths) ∨
          ∃ location, pool location ∧ word ∈ location.words layout.widths

/-- What is read from a source fits into the destinations of all moves with this source. -/
def SourcesFit : Prop := ∀ move ∈ moves, ∀ other ∈ moves, move.source = other.source →
    move.width ≤ (other.destination.words layout.widths).length

variable {layout constants pool moves} (hparallel : ScratchParallel layout constants pool moves)

def ScratchParallel.setting : Setting (buildInitialMoveList moves).length where
  layout := layout
  constants := constants
  moves := (buildInitialMoveList moves).get
  pool := pool
  destination index := hparallel.destination _ (get_mem_moves index)
  width index := hparallel.width _ (get_mem_moves index)
  apart := get_apart hparallel.disjoint
  pool_operand := hparallel.pool_operand
  pool_apart location hlocation index :=
    hparallel.pool_destination location hlocation _ (get_mem_moves index)

include hparallel

theorem ScratchParallel.safe (hfits : SourcesFit layout moves) :
    ScratchResolver.Safe hparallel.setting (initial hparallel.setting.moves) := by
  have hlive : ∀ index, (initial hparallel.setting.moves).Live index := fun index =>
    ne_noLocation_of_source (hparallel.source _ (get_mem_moves index))
  refine ⟨fun index hnot => absurd (hlive index) hnot, fun _ _ => .inl rfl, fun _ => rfl,
    fun index _ => hparallel.source _ (get_mem_moves index), (fun _ hmem => nomatch hmem),
    (fun _ hmem => nomatch hmem), .nil, fun index other _ hsame =>
      hfits _ (get_mem_moves index) _ (get_mem_moves other) hsame,
    (fun _ hmem => nomatch hmem), fun index _ => ⟨fun memory =>
      hparallel.length _ (get_mem_moves index) memory, fun _ => rfl⟩, (fun _ hmem => nomatch hmem),
    fun index hnot => absurd (hlive index) hnot, (fun _ hmem => nomatch hmem),
    fun _ _ hword => absurd rfl hword⟩

theorem ScratchParallel.whole (hwhole : WholeMoves layout moves)
    (top : Fin (buildInitialMoveList moves).length) :
    ScratchResolver.Whole hparallel.setting top none (initial hparallel.setting.moves) := by
  refine ⟨fun index other hcycle _ _ hover => ?_, fun _ _ _ hblocks => .inl (.single hblocks.2),
    (fun _ hmem => nomatch hmem), fun _ hmem => nomatch hmem⟩
  rcases hparallel.source _ (get_mem_moves index) with hconst | hop
  · have hapart := overlapsWith_of_not_operand (.inr hconst) (hparallel.setting.destination other)
    exact absurd hover (Bool.eq_false_iff.mp hapart)
  · exact hwhole _ (get_mem_moves index) _ (get_mem_moves other) (onBlockingCycle_get hcycle)
      hop hover

/-- A move to itself is dropped, and the others do not change its location. -/
theorem ScratchParallel.redundant_spec {move : MoveOperands} (hmove : move ∈ moves)
    (hred : move.isRedundant) :
    move.source = move.destination ∧ ∀ word ∈ move.destination.words layout.widths,
      ¬ ((∃ index,
          word ∈ ((buildInitialMoveList moves).get index).destination.words layout.widths) ∨
        ∃ loc, pool loc ∧ word ∈ loc.words layout.widths) := by
  have hdest := hparallel.destination _ hmove
  refine ⟨eq_of_isRedundant hdest (hparallel.source _ hmove) hred, fun word hword hchange => ?_⟩
  rcases hchange with ⟨index, hindex⟩ | ⟨loc, hpool, hloc⟩
  · exact disjoint_of_not_overlapsWith hdest (hparallel.destination _ (get_mem_moves index))
      (apart_of_isRedundant hparallel.disjoint hmove hred index) hword hindex
  · exact disjoint_of_not_overlapsWith (hparallel.pool_operand loc hpool) hdest
      (hparallel.pool_destination loc hpool _ hmove) hloc hword

variable {backend : Backend (buildInitialMoveList moves).length}

end ScratchParallel

/-! ## A backend that borrows destinations -/

namespace ScratchResolver

variable {count : ℕ} {loc other : Location}

def lastRegister : Location → ℕ
  | .register reg => reg
  | .registerPair low high => max low high
  | _ => 0

def freshHalf (resolver : ScratchResolver count) : ℕ :=
  50 + (resolver.pendingMoves.map fun move => lastRegister move.source).sum +
    ((finRange count).map fun index => lastRegister (resolver.moves index).source).sum

def freshPair (resolver : ScratchResolver count) : Location :=
  .registerPair (2 * resolver.freshHalf) (2 * resolver.freshHalf + 1)

/-- The pairs that are not used by moves between the first registers. -/
def farPairs (location : Location) : Prop :=
  ∃ half, 50 ≤ half ∧ location = .registerPair (2 * half) (2 * half + 1)

/-- Scratch locations from `GetScratchLocation` if there is one. -/
def borrowing (count : ℕ) : Backend count where
  allocateScratchLocationFor resolver kind :=
    if resolver.getScratchLocation kind = .noLocation then
      (resolver.freshPair, resolver.freshPair :: resolver.scratches)
    else
      (resolver.getScratchLocation kind, resolver.scratches)
  freeScratchLocation scratches location := scratches.erase location

theorem overlapsWith_pair {src : Location} {low high : ℕ} (hlow : lastRegister src < low)
    (hhigh : lastRegister src < high) : src.overlapsWith (.registerPair low high) = false := by
  cases src <;>
    simp_all [Location.overlapsWith, Location.contains, Location.hasHalves, Location.isPair,
      Location.isDoubleStackSlot, Location.lowOf, Location.highOf, lastRegister] <;> omega

theorem freshPair_unblocked (resolver : ScratchResolver count) :
    resolver.isBlockedByMoves resolver.freshPair = false := by
  have hblocks : ∀ move : MoveOperands, lastRegister move.source < resolver.freshHalf →
      move.blocks resolver.freshPair = false := by
    intro move hlt
    rw [MoveOperands.blocks, freshPair, overlapsWith_pair (by omega) (by omega), Bool.and_false]
  refine isBlockedByMoves_eq_false.mpr ⟨fun move hmove => ?_, fun index => ?_⟩
  · have hle : lastRegister move.source ≤
        (resolver.pendingMoves.map fun move => lastRegister move.source).sum :=
      le_sum_of_mem (mem_map.mpr ⟨move, hmove, rfl⟩)
    exact hblocks move (by rw [freshHalf]; omega)
  · have hle : lastRegister (resolver.moves index).source ≤
        ((finRange count).map fun index => lastRegister (resolver.moves index).source).sum :=
      le_sum_of_mem (mem_map.mpr ⟨index, mem_finRange index, rfl⟩)
    exact hblocks _ (by rw [freshHalf]; omega)

theorem length_words_of_kind (hkind : loc.kind = other.kind) :
    (loc.words pairLayout.widths).length = (other.words pairLayout.widths).length := by
  cases loc <;> cases other <;> first | rfl | cases hkind

theorem borrowing_lawful (count : ℕ) : Lawful pairLayout farPairs (borrowing count) := by
  refine ⟨fun resolver kind => ?_, fun scratches loc => erase_subset⟩
  simp only [borrowing]
  have hfar : farPairs resolver.freshPair := ⟨resolver.freshHalf, by rw [freshHalf]; omega, rfl⟩
  split_ifs with hnone
  · refine ⟨.inr ⟨hfar, freshPair_unblocked resolver⟩, fun loc _ _ => length_words_le loc,
      fun scratch hscr => ?_⟩
    rcases mem_cons.mp hscr with rfl | hold
    · exact .inr hfar
    · exact .inl hold
  · refine ⟨.inl ⟨kind, rfl, hnone⟩, fun loc _ hkind => ?_, fun _ hscr => .inl hscr⟩
    exact (length_words_of_kind (hkind.trans (getScratchLocation_spec hnone).1.symm)).le

theorem farPairs_operand (loc : Location) (hloc : farPairs loc) : pairLayout.Operand loc := by
  obtain ⟨half, -, rfl⟩ := hloc
  exact operand_registerPair half

/-- The far pairs are outside of moves between the first registers. -/
theorem farPairs_apart (hloc : farPairs loc)
    (hother : lastRegister other < 100) : loc.overlapsWith other = false := by
  obtain ⟨half, hhalf, rfl⟩ := hloc
  rw [overlapsWith_comm]
  exact overlapsWith_pair (by omega) (by omega)

end ScratchResolver

/-- A cycle of two moves, a move whose destination is borrowed, and a register that is written
after the pair that it is part of was read. -/
def borrowedCycle : List MoveOperands :=
  [⟨.register 0, .register 1, false⟩, ⟨.register 1, .register 0, false⟩,
    ⟨.register 2, .register 3, false⟩, ⟨.register 8, .register 4, false⟩,
    ⟨.registerPair 4 5, .registerPair 6 7, true⟩]

/-- A pair whose first register is the destination of a move that waits for another pair. -/
def splitPair : List MoveOperands :=
  [⟨.registerPair 2 3, .registerPair 4 5, true⟩, ⟨.register 4, .register 2, false⟩,
    ⟨.register 5, .register 6, false⟩]

theorem borrowedCycle_parallel :
    ScratchParallel pairLayout (fun _ => []) farPairs borrowedCycle := by
  have hsmall : ∀ move ∈ borrowedCycle, lastRegister move.source < 100 ∧
      lastRegister move.destination < 100 := by decide
  refine ⟨?_, ?_, ?_, ?_, by decide, farPairs_operand, fun loc hloc move hmove =>
      farPairs_apart hloc (hsmall _ hmove).2,
    fun loc hloc move hmove => farPairs_apart hloc (hsmall _ hmove).1⟩
  all_goals simp only [borrowedCycle, forall_mem_cons, not_mem_nil, false_imp_iff,
    implies_true, and_true]
  · exact ⟨operand_register 1, operand_register 0, operand_register 3, operand_register 4,
      operand_registerPair 3⟩
  · exact ⟨.inr (operand_register 0), .inr (operand_register 1), .inr (operand_register 2),
      .inr (operand_register 8), .inr (operand_registerPair 2)⟩
  · exact ⟨le_rfl, le_rfl, le_rfl, le_rfl, le_rfl⟩
  · exact ⟨fun _ => le_rfl, fun _ => le_rfl, fun _ => le_rfl, fun _ => le_rfl, fun _ => le_rfl⟩

theorem borrowedCycle_wholeMoves : WholeMoves pairLayout borrowedCycle := by
  -- The register that is part of a pair is the destination of a move that blocks no other one.
  have hwhole : ∀ move ∈ borrowedCycle, ∀ other ∈ borrowedCycle,
      (∃ blocked ∈ buildInitialMoveList borrowedCycle,
        other.source.overlapsWith blocked.destination = true) →
      move.source.overlapsWith other.destination = true → move.source = other.destination := by
    decide
  exact fun move hmove other hother hcycle _ => hwhole _ hmove _ hother hcycle.exists_blocked

theorem resolve_splitPair : ((resolve (borrowing _)
      (buildInitialMoveList splitPair).get).map fun resolver =>
        resolver.pendingMoves.map destination) = some [.register 6] := by
  decide +kernel

end NougatArt.Moves
