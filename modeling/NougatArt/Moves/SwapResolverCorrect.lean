import NougatArt.Moves.SwapResolverSound

/-!
# The resolver with swaps performs its moves

The moves in progress form a chain: the source of each overlaps with the destination of
the one that called it. A swap leaves this chain alone. When the loop of a move is
over, no other move blocks its destination, so that it can be emitted or swapped with
the one move in progress that still blocks it.
-/

namespace NougatArt.Moves

open List Option Function Bool MoveOperands Layout Location

variable {count : ℕ} {layout : Layout} {constants : ℕ → List (BitVec 32)}
  {original : Fin count → MoveOperands} {index caller other : Fin count}

/-! ## Sources between two destinations -/

section Overlap

variable {first second : Fin count}
variable {source : Fin count → Location} {emitted : List Step}
  (hadm : Admissible layout constants original)
  (hsound : Sound layout constants original source emitted)

include hadm hsound

theorem Sound.operand_of_overlapsWith
    (hover : (source index).overlapsWith (original caller).destination) :
    layout.Operand (source index) := by
  by_contra hnot
  have hnone : source index = .noLocation ∨ (source index).isConstant = true := by
    by_cases hlive : source index = .noLocation
    · exact .inl hlive
    · exact .inr ((hsound.operand _ hlive).resolve_right hnot)
  rw [overlapsWith_of_not_operand hnone (hadm.destination caller)] at hover
  cases hover

/-- Only the source of a move of 64 bits reaches into the destination of a move on a cycle and
into another one. -/
theorem Sound.partial_overlap
    (hindex : layout.Operand (source index)) (hlive : source first ≠ .noLocation)
    (hcycle : OnCycle original first)
    (hfirst : (source index).overlapsWith (original first).destination)
    (hsnd : (source index).overlapsWith (original second).destination) (hne : first ≠ second) :
    (∃ hasHalves, LoneSources layout original source hasHalves) ∧ (original index).is64BitMove ∧
      (original first).is64BitMove = false := by
  have hop := hadm.destination first
  have hnot : ¬ (source index).words layout.widths ⊆
      (original first).destination.words layout.widths := by
    intro hsubset
    obtain ⟨word, hword, hword'⟩ :=
      (overlapsWith_iff_share hindex (hadm.destination second)).mp hsnd
    exact disjoint_of_not_overlapsWith hop (hadm.destination second)
      (hadm.disjoint _ _ hne) (hsubset hword) hword'
  have hdiffer : source index ≠ (original first).destination := fun heq =>
    hnot (heq ▸ List.Subset.refl _)
  have hwide : (original index).is64BitMove = true := by
    by_contra hnarrow
    have hhalves : (source index).hasHalves = false :=
      eq_false_iff.mpr fun hhalves => hnarrow (hsound.double _ hindex hhalves)
    exact hnot (subset_of_overlapsWith hindex hop hfirst hhalves)
  refine ⟨?_, hwide, ?_⟩
  · exact hsound.kind.resolve_left fun hwhole =>
      hdiffer (hwhole _ _ hcycle hindex hlive hfirst).1
  · by_contra hwide'
    rw [not_eq_false] at hwide'
    exact hdiffer (hsound.eq_of_wide hadm hindex hwide' hwide hfirst)

/-- The sources that overlap with a destination of 32 bits are the same if the move of one of them
is on a cycle. -/
theorem Sound.same_of_narrow (hnarrow : (original index).is64BitMove = false)
    (hcycle : OnCycle original first)
    (hfirst : layout.Operand (source first)) (hsnd : layout.Operand (source second))
    (hover : (source first).overlapsWith (original index).destination)
    (hover' : (source second).overlapsWith (original index).destination) :
    source first = source second ∧
      (original first).is64BitMove = (original second).is64BitMove := by
  have hop := hadm.destination index
  have hhalves : (original index).destination.hasHalves = false :=
    eq_false_iff.mpr fun hhalves => eq_false_iff.mp hnarrow (hadm.double _ hhalves)
  obtain ⟨word, hword⟩ := exists_mem_of_ne_nil _ hop.wellFormed.words_ne_nil
  rw [overlapsWith_comm] at hover hover'
  exact hsound.same _ _ hcycle hfirst hsnd ((overlapsWith_iff_share hfirst hsnd).mpr
    ⟨word, subset_of_overlapsWith hop hfirst hover hhalves hword,
      subset_of_overlapsWith hop hsnd hover' hhalves hword⟩)

end Overlap

/-! ## The moves in progress -/

structure InProgress (layout : Layout) (original : Fin count → MoveOperands)
    (source : Fin count → Location) (stack : List (Fin count)) : Prop where
  operand : ∀ index ∈ stack, layout.Operand (source index)
  nodup : stack.Nodup
  chain : stack.IsChain fun index caller =>
    (source index).overlapsWith (original caller).destination = true

section InProgress

variable {source source' : Fin count → Location} {stack : List (Fin count)}
  {relation : Fin count → Fin count → Prop}

theorem exists_caller (hchain : stack.IsChain relation)
    (hindex : index ∈ stack.dropLast) : ∃ caller ∈ stack.tail, relation index caller := by
  induction hchain with
  | nil | singleton _ => cases hindex
  | @cons_cons first second rest hfirst hrest ih =>
    rcases mem_cons.mp hindex with rfl | hmem
    · exact ⟨second, mem_cons_self, hfirst⟩
    · obtain ⟨caller, hcaller, hrelation⟩ := ih hmem
      exact ⟨caller, mem_cons_of_mem _ hcaller, hrelation⟩

theorem isChain_of_dropLast {relation' : Fin count → Fin count → Prop}
    (hchain : stack.IsChain relation)
    (hrelation : ∀ index ∈ stack.dropLast, ∀ caller,
      relation index caller → relation' index caller) :
    stack.IsChain relation' := by
  induction hchain with
  | nil => exact .nil
  | singleton index => exact .singleton index
  | @cons_cons first second rest hfirst hrest ih =>
    refine .cons_cons (hrelation _ mem_cons_self _ hfirst) (ih ?_)
    exact fun index hindex => hrelation index (mem_cons_of_mem _ hindex)

section

variable (hprog : InProgress layout original source (index :: stack))

include hprog

theorem InProgress.tail : InProgress layout original source stack :=
  ⟨fun other hother => hprog.operand other (mem_cons_of_mem _ hother),
    hprog.nodup.of_cons, hprog.chain.tail⟩

theorem InProgress.notMem : index ∉ stack := (nodup_cons.mp hprog.nodup).1

end

theorem InProgress.of_kept (hprog : InProgress layout original source stack)
    (hop : ∀ index ∈ stack, layout.Operand (source' index))
    (hkept : ∀ index ∈ stack.dropLast, source' index = source index) :
    InProgress layout original source' stack := by
  refine ⟨hop, hprog.nodup, isChain_of_dropLast hprog.chain ?_⟩
  intro index hindex caller hover
  rw [hkept _ hindex]
  exact hover

end InProgress

/-! ## Swaps of the last move in progress -/

/-- The move has 64 bits, or a move of 32 bits on a cycle blocks it. -/
def WideOrNarrowBlocked (layout : Layout) (original : Fin count → MoveOperands)
    (source : Fin count → Location) (index : Fin count) : Prop :=
  (original index).is64BitMove = true ∨ ∃ blocker, OnCycle original blocker ∧
    layout.Operand (source blocker) ∧
    (source blocker).overlapsWith (original index).destination = true ∧
    (original blocker).is64BitMove = false

section Swap

variable {source : Fin count → Location} {emitted : List Step} {stack : List (Fin count)}
  (hadm : Admissible layout constants original)
  (hsound : Sound layout constants original source emitted)
  (hprog : InProgress layout original source (index :: stack))

section

include hsound

/-- The moves in progress wait for the last one. -/
theorem InProgress.waitsFor {stack : List (Fin count)} {index : Fin count}
    (hprog : InProgress layout original source (index :: stack)) (hother : other ∈ stack) :
    WaitsFor original other index := by
  induction stack generalizing index with
  | nil => cases hother
  | cons head rest ih =>
    have hop := hprog.operand index mem_cons_self
    have hhead := hsound.waits head index (hprog.operand head (by simp)).ne_noLocation hop
      (isChain_cons_cons.mp hprog.chain).1
    rcases mem_cons.mp hother with rfl | hmem
    · exact hhead
    · exact (ih hprog.tail hmem).trans hhead

/-- A move in progress that blocks the last one is on a cycle with it and its caller. -/
theorem InProgress.onCycle {head : Fin count} {rest : List (Fin count)}
    (hprog : InProgress layout original source (index :: head :: rest))
    (hother : other ∈ head :: rest)
    (hover : (source other).overlapsWith (original index).destination) :
    OnCycle original index ∧ OnCycle original other ∧ OnCycle original head := by
  have hop := hprog.operand other (mem_cons_of_mem _ hother)
  have hblocks :=
    hsound.waits index other (hprog.operand index mem_cons_self).ne_noLocation hop hover
  have hback := hprog.waitsFor hsound hother
  have hhead := hprog.waitsFor hsound (mem_cons_self : head ∈ head :: rest)
  refine ⟨hblocks.trans hback, hback.trans hblocks, ?_⟩
  rcases mem_cons.mp hother with rfl | hmem
  · exact hback.trans hblocks
  · exact (hhead.trans hblocks).trans (hprog.tail.waitsFor hsound hmem)

end

variable (hcycle : OnCycle original index)
  (hwide : WideOrNarrowBlocked layout original source index)

include hadm hsound hprog hcycle hwide

theorem InProgress.canSwap (hne : source index ≠ (original index).destination)
    (hreached : ∃ caller, OnCycle original caller ∧ source caller ≠ .noLocation ∧
      (source index).overlapsWith (original caller).destination) :
    CanSwap layout original source index := by
  have hindex := hprog.operand index mem_cons_self
  refine ⟨hcycle, hindex, hne, fun other hother hover hwideOther => ?_, fun other hdone => ?_,
    hreached⟩
  · rcases hwide with hwide | ⟨blocker, hcycle', hblocker, hblocks, hnarrow⟩
    · exact hwide
    · by_contra hwideIndex
      -- The blocker of 32 bits has the same source.
      rw [not_eq_true] at hwideIndex
      rw [(hsound.same_of_narrow hadm hwideIndex hcycle' hblocker hother hblocks hover).2,
        hwideOther] at hnarrow
      cases hnarrow
  · rw [eq_false_iff]
    intro hover
    obtain ⟨caller, hcycle', hlive, hcaller⟩ := hreached
    have hdiffer : caller ≠ other := fun heq => hlive (heq ▸ hdone)
    obtain ⟨⟨_, hlone⟩, hwideIndex, -⟩ :=
      hsound.partial_overlap hadm hindex hlive hcycle' hcaller hover hdiffer
    rw [hlone.finished _ _ ⟨hcycle, hwideIndex, hindex⟩ hdone] at hover
    cases hover

/-- The sources of the moves in progress, but for the first one, are apart from the swap. -/
theorem InProgress.swappedSource_eq (hother : other ∈ stack.dropLast) :
    swappedSource original source index other = source other := by
  have hindex := hprog.operand _ mem_cons_self
  have hmem : other ∈ stack := mem_of_mem_dropLast hother
  have hop := hprog.operand _ (mem_cons_of_mem _ hmem)
  have hne : other ≠ index := fun heq => hprog.notMem (heq ▸ hmem)
  obtain ⟨caller, hcaller, hreaches⟩ := exists_caller hprog.tail.chain hother
  have hcallerMem : caller ∈ stack := mem_of_mem_tail hcaller
  have hsrc : (source other).overlapsWith (source index) = false := by
    rw [eq_false_iff]
    intro hover
    rw [overlapsWith_comm] at hover
    have hsame := (hsound.same _ _ hcycle hindex hop hover).1
    obtain ⟨head, rest, rfl⟩ := exists_cons_of_ne_nil (ne_nil_of_mem hmem)
    have hhead := (isChain_cons_cons.mp hprog.chain).1
    have hheadLive := (hprog.tail.operand head mem_cons_self).ne_noLocation
    have hdiffer : head ≠ caller := fun heq => hprog.tail.notMem (heq ▸ hcaller)
    -- The caller of the last move waits for the other one, which waits for the caller.
    have hwaits := hsound.waits head other hheadLive hop (hsame ▸ hhead)
    have hcycleHead : OnCycle original head ∧ OnCycle original other := by
      rcases mem_cons.mp hmem with rfl | hrest
      · exact ⟨hwaits, hwaits⟩
      · have hback := hprog.tail.waitsFor hsound hrest
        exact ⟨hwaits.trans hback, hback.trans hwaits⟩
    rw [← hsame] at hreaches
    obtain ⟨⟨_, hlone⟩, hwideIndex, -⟩ := hsound.partial_overlap hadm hindex
      hheadLive hcycleHead.1 hhead hreaches hdiffer
    exact hlone.alone _ _ hne.symm ⟨hcycle, hwideIndex, hindex⟩ hcycleHead.2 hsame
  have hdest : (source other).overlapsWith (original index).destination = false := by
    rw [eq_false_iff]
    intro hover
    have hdiffer : index ≠ caller := fun heq => hprog.notMem (heq ▸ hcallerMem)
    obtain ⟨-, hwideOther, hnarrowIndex⟩ := hsound.partial_overlap hadm hop
      hindex.ne_noLocation hcycle hover hreaches hdiffer
    rcases hwide with hwide | ⟨blocker, hcycle', hblocker, hblocks, hnarrow⟩
    · rw [hwide] at hnarrowIndex
      cases hnarrowIndex
    · rw [(hsound.same_of_narrow hadm hnarrowIndex hcycle' hblocker hop hblocks hover).2,
        hwideOther] at hnarrow
      cases hnarrow
  rw [swappedSource_of_ne hne hop.ne_noLocation, rename, hsrc, hdest]
  rfl

/-- The other moves stay in progress. -/
theorem InProgress.swap (hswap : CanSwap layout original source index) :
    InProgress layout original (swappedSource original source index) stack := by
  refine hprog.tail.of_kept (fun other hother => ?_) fun other hother =>
    hprog.swappedSource_eq hadm hsound hcycle hwide hother
  have hne : other ≠ index := fun heq => hprog.notMem (heq ▸ hother)
  have hop := hprog.tail.operand _ hother
  rcases hswap.cases hadm hsound hne hop.ne_noLocation with ⟨hconst, -⟩ | ⟨-, hop', -⟩
  · rw [hop.wellFormed.isConstant] at hconst
    cases hconst
  · exact hop'

end Swap

namespace Resolver

/-! ## The state between two calls -/

def sources (resolver : Resolver count) (index : Fin count) : Location :=
  (resolver.moves index).source

theorem sources_setDestination (resolver : Resolver count) (index : Fin count)
    (destination : Location) :
    (resolver.setDestination index destination).sources = resolver.sources :=
  funext fun other => setDestination_source resolver index other destination

theorem sources_eliminate (resolver : Resolver count) (index : Fin count) :
    (resolver.eliminate index).sources = update resolver.sources index .noLocation := by
  funext other
  rw [sources, eliminate_moves]
  by_cases heq : other = index
  · subst heq
    rw [if_pos rfl, update_self]
    rfl
  · rw [if_neg heq, update_of_ne heq]
    rfl

theorem sources_performSwap {resolver : Resolver count}
    (hdest : (resolver.moves index).destination = (original index).destination) :
    (resolver.performSwap index).sources = swappedSource original resolver.sources index := by
  funext other
  rw [sources, performSwap_moves, swappedSource, hdest]
  by_cases heq : other = index
  · rw [if_pos heq, if_pos (.inl heq)]
    rfl
  · rw [if_neg heq]
    by_cases hdone : resolver.sources other = .noLocation
    · rw [if_pos (.inr hdone), swapSource_of_eliminated hdone]
      exact hdone
    · rw [if_neg (not_or.mpr ⟨heq, hdone⟩), swapSource_source hdone]
      rfl

variable (layout constants original) in
/-- The state of the resolver while the moves of the stack are in progress. -/
structure Invariant (resolver : Resolver count) (stack : List (Fin count)) : Prop where
  sound : Sound layout constants original resolver.sources resolver.emitted
  progress : InProgress layout original resolver.sources stack
  width : ∀ index, (resolver.moves index).is64BitMove = (original index).is64BitMove
  destination : ∀ index, resolver.sources index ≠ .noLocation → (resolver.moves index).destination =
      if index ∈ stack then .noLocation else (original index).destination
  constant : ∀ index, resolver.sources index ≠ .noLocation →
    (resolver.sources index).isConstant = (original index).source.isConstant

variable {resolver final after : Resolver count} {stack : List (Fin count)} {index : Fin count}
  {emitted : List Step} {loc : Location} {result : Option (Fin count)} {outcome : Outcome count}

section

variable (hinv : Invariant layout constants original resolver stack)

include hinv

theorem Invariant.setDestination {stack' : List (Fin count)} {destination : Location}
    (hprog : InProgress layout original resolver.sources stack')
    (hindex : destination = if index ∈ stack' then .noLocation else (original index).destination)
    (hother : ∀ other ≠ index, other ∈ stack' ↔ other ∈ stack) :
    Invariant layout constants original (resolver.setDestination index destination) stack' := by
  have hsrcs := sources_setDestination resolver index destination
  refine ⟨?_, ?_, fun other => ?_, fun other hlive => ?_, fun other hlive => ?_⟩
  · rw [hsrcs]
    exact hinv.sound
  · rw [hsrcs]
    exact hprog
  · rw [setDestination_is64BitMove]
    exact hinv.width other
  · rw [hsrcs] at hlive
    rw [setDestination_destination, hinv.destination _ hlive]
    by_cases heq : other = index
    · rw [if_pos heq, heq]
      exact hindex
    · simp only [if_neg heq, hother _ heq]
  · rw [hsrcs] at hlive ⊢
    exact hinv.constant _ hlive

theorem Invariant.start (hprog : InProgress layout original resolver.sources (index :: stack)) :
    Invariant layout constants original (resolver.setDestination index .noLocation)
      (index :: stack) :=
  hinv.setDestination hprog (if_pos mem_cons_self).symm fun other hne => by simp [hne]

end

theorem Invariant.restore (hinv : Invariant layout constants original resolver (index :: stack)) :
    Invariant layout constants original
      (resolver.setDestination index (original index).destination) stack :=
  hinv.setDestination hinv.progress.tail (if_neg hinv.progress.notMem).symm
    fun other hne => by simp [hne]

section

variable (hinv : Invariant layout constants original resolver stack) (hindex : index ∉ stack)

include hinv hindex

theorem Invariant.destination_eq (hop : layout.Operand (resolver.sources index)) :
    (resolver.moves index).destination = (original index).destination := by
  rw [hinv.destination _ hop.ne_noLocation, if_neg hindex]

theorem Invariant.eliminate
    (hsound : Sound layout constants original (update resolver.sources index .noLocation) emitted) :
    Invariant layout constants original
      (Resolver.eliminate { resolver with emitted := emitted } index) stack := by
  have hsrcs := sources_eliminate { resolver with emitted := emitted } index
  have hlive : ∀ other, update resolver.sources index .noLocation other ≠ .noLocation →
      other ≠ index ∧ resolver.sources other ≠ .noLocation := by
    intro other hlive
    obtain ⟨hne, hsame⟩ := update_noLocation_of_ne hlive
    exact ⟨hne, hsame ▸ hlive⟩
  have hupdate : ∀ other, other ≠ index →
      update resolver.sources index .noLocation other = resolver.sources other :=
    fun other hne => update_of_ne hne _ _
  have hstack : ∀ other ∈ stack, other ≠ index := fun other hother heq => hindex (heq ▸ hother)
  refine ⟨?_, ?_, fun other => ?_, fun other hother => ?_, fun other hother => ?_⟩
  · rw [hsrcs]
    exact hsound
  · rw [hsrcs]
    refine hinv.progress.of_kept (fun other hother => ?_) fun other hother =>
      hupdate other (hstack other (mem_of_mem_dropLast hother))
    change layout.Operand (update resolver.sources index .noLocation other)
    rw [hupdate other (hstack _ hother)]
    exact hinv.progress.operand _ hother
  · rw [eliminate_moves, ← hinv.width other]
    split
    next heq =>
      rw [heq]
      rfl
    · rfl
  · rw [hsrcs] at hother
    obtain ⟨hne, hsrc⟩ := hlive _ hother
    rw [eliminate_moves, if_neg hne]
    exact hinv.destination _ hsrc
  · rw [hsrcs] at hother ⊢
    obtain ⟨hne, hsrc⟩ := hlive _ hother
    change (update resolver.sources index .noLocation other).isConstant = _
    rw [hupdate _ hne]
    exact hinv.constant _ hsrc

end

theorem Invariant.performSwap (hadm : Admissible layout constants original)
    (hinv : Invariant layout constants original resolver stack) (hindex : index ∉ stack)
    (hswap : CanSwap layout original resolver.sources index)
    (hprog : InProgress layout original (swappedSource original resolver.sources index) stack) :
    Invariant layout constants original (resolver.performSwap index) stack := by
  have hdest := hinv.destination_eq hindex hswap.operand
  have hsrcs := sources_performSwap hdest
  have hwidth : (resolver.moves index).width = (original index).width := by
    rw [MoveOperands.width, MoveOperands.width, hinv.width]
  refine ⟨?_, ?_, fun other => ?_, fun other hother => ?_, fun other hother => ?_⟩
  · rw [hsrcs, performSwap_emitted, hdest, hwidth]
    exact hinv.sound.swap hadm hswap
  · rw [hsrcs]
    exact hprog
  · rw [performSwap_moves, ← hinv.width other]
    split
    next heq =>
      rw [heq]
      rfl
    · rw [swapSource_is64BitMove]
  · rw [hsrcs] at hother
    obtain ⟨hne, hsrc⟩ := swappedSource_ne_noLocation hother
    rw [performSwap_moves, if_neg hne, swapSource_destination]
    exact hinv.destination _ hsrc
  · rw [hsrcs] at hother ⊢
    obtain ⟨hne, hsrc⟩ := swappedSource_ne_noLocation hother
    rw [← hinv.constant _ hsrc]
    rcases hswap.cases hadm hinv.sound hne hsrc with ⟨-, heq⟩ | ⟨hop, hop', -⟩
    · rw [heq]
    · rw [hop'.wellFormed.isConstant, hop.wellFormed.isConstant]

/-! ## What a call does -/

/-- A move of 64 bits that has to be swapped, since another one that is left is blocked by it. Both
are on a cycle. -/
def Requires (original : Fin count → MoveOperands) (source : Fin count → Location)
    (stack : List (Fin count)) (required : Fin count) : Prop :=
  OnCycle original required ∧ (original required).is64BitMove = true ∧
    ∃ other, other ∉ stack ∧ OnCycle original other ∧ source other ≠ .noLocation ∧
      (source required).overlapsWith (original other).destination = true

variable (layout constants original resolver stack index) in
/-- What a call of `PerformMove` does while the moves of the stack are in progress. -/
structure Performs (result : Option (Fin count)) (after : Resolver count) : Prop where
  invariant : Invariant layout constants original after stack
  kept : ∀ other ∈ stack.dropLast, after.sources other = resolver.sources other
  -- No further move blocks a move in progress, but for the caller if the move was swapped early.
  frame : ∀ caller ∈ stack, (result = some index → caller ∉ stack.head?) → ∀ other ∉ stack,
    (after.sources other).overlapsWith (original caller).destination = true →
      (resolver.sources other).overlapsWith (original caller).destination = true
  returned : result = none ∨ result = some index ∨
    ∃ required ∈ stack, result = some required ∧ Requires original after.sources stack required

theorem overlapsWith_of_blocks (hblocks : (resolver.moves other).blocks loc) :
    resolver.sources other ≠ .noLocation ∧ (resolver.sources other).overlapsWith loc := by
  have hlive : (resolver.moves other).source ≠ .noLocation := by
    intro hdone
    rw [blocks_of_eliminated hdone] at hblocks
    cases hblocks
  rw [blocks_eq hlive] at hblocks
  exact ⟨hlive, hblocks⟩

theorem findBlocker_eq_none (hblocker : resolver.findBlocker loc = none)
    (hlive : resolver.sources other ≠ .noLocation) :
    (resolver.sources other).overlapsWith loc = false := by
  have hblocks := find?_eq_none.mp hblocker other (mem_finRange other)
  rw [blocks_eq hlive, not_eq_true] at hblocks
  exact hblocks

section Finish

variable (hadm : Admissible layout constants original)
  (hinv : Invariant layout constants original resolver stack)
  (hprog : InProgress layout original resolver.sources (index :: stack))

include hadm hinv hprog

/-- The move is eliminated, and the sources of the others are kept. -/
theorem performs_eliminate (hsound : Sound layout constants original
      (update resolver.sources index .noLocation) emitted) :
    Performs layout constants original resolver stack index none
      (Resolver.eliminate { resolver with emitted := emitted } index) := by
  have hindex := hprog.notMem
  have hsrcs := sources_eliminate { resolver with emitted := emitted } index
  have hupdate : ∀ other, other ≠ index →
      (Resolver.eliminate { resolver with emitted := emitted } index).sources other =
        resolver.sources other := by
    intro other hne
    rw [hsrcs, update_of_ne hne]
    rfl
  refine ⟨hinv.eliminate hindex hsound, fun other hother => ?_,
    fun caller _ _ other _ hover => ?_, .inl rfl⟩
  · exact hupdate other fun heq => hindex (heq ▸ mem_of_mem_dropLast hother)
  · by_cases heq : other = index
    · rw [heq, hsrcs, update_self,
        overlapsWith_of_not_operand (.inl rfl) (hadm.destination caller)] at hover
      cases hover
    · rwa [hupdate _ heq] at hover

theorem performs_swap (hwide : WideOrNarrowBlocked layout original resolver.sources index)
    (hswap : CanSwap layout original resolver.sources index)
    (hframe : ∀ caller ∈ stack, (result = some index → caller ∉ stack.head?) →
      ∀ other ∉ index :: stack, (resolver.sources other).overlapsWith (original index).destination →
        (resolver.sources index).overlapsWith (original caller).destination = false)
    (hres : result = none ∨ result = some index) :
    Performs layout constants original resolver stack index result
      (resolver.performSwap index) := by
  have hsound := hinv.sound
  have hindex := hprog.notMem
  have hsrcs := sources_performSwap (hinv.destination_eq hindex hswap.operand)
  refine ⟨hinv.performSwap hadm hindex hswap
    (hprog.swap hadm hsound hswap.onCycle hwide hswap), fun other hother => ?_,
    fun caller hcaller hhead other hother hover => ?_, ?_⟩
  · rw [hsrcs]
    exact hprog.swappedSource_eq hadm hsound hswap.onCycle hwide hother
  · rw [hsrcs] at hover
    have hne : index ≠ caller := fun heq => hindex (heq ▸ hcaller)
    have hop := (hsound.swap hadm hswap).operand_of_overlapsWith hadm hover
    rcases hswap.overlapsWith hadm hsound hne hop hover with hbefore | ⟨hblocks, hreaches⟩
    · exact hbefore
    · by_cases heq : other = index
      · rwa [heq]
      · rw [hframe _ hcaller hhead _ (by simp [heq, hother]) hblocks] at hreaches
        cases hreaches
  · rcases hres with hnone | hsome
    · exact .inl hnone
    · exact .inr (.inl hsome)

/-- A move of 64 bits that another one requires to be swapped. -/
theorem performs_required (hne : resolver.sources index ≠ (original index).destination)
    (hrequires : Requires original resolver.sources (index :: stack) index) :
    Performs layout constants original resolver stack index (some index)
      (resolver.performSwap index) := by
  have hsound := hinv.sound
  have hindex := hprog.operand index mem_cons_self
  obtain ⟨hcycle, hwide, required, hnotMem, hcycle', hlive, hover⟩ := hrequires
  refine performs_swap hadm hinv hprog (.inl hwide)
    (hprog.canSwap hadm hsound hcycle (.inl hwide) hne ⟨required, hcycle', hlive, hover⟩)
    (fun caller hcaller hhead _ _ _ => ?_) (.inr rfl)
  -- One half of the source is in the destination of the caller, the other one in that of the
  -- move of 32 bits, so that it does not reach into a third destination.
  rw [eq_false_iff]
  intro hthird
  obtain ⟨head, rest, rfl⟩ := exists_cons_of_ne_nil (ne_nil_of_mem hcaller)
  have hfirst := (isChain_cons_cons.mp hprog.chain).1
  have hcallerNe : caller ≠ head := fun heq => hhead rfl (by simp [heq])
  have hrequiredNe : ∀ other ∈ head :: rest, other ≠ required := by
    rintro other hother rfl
    exact hnotMem (mem_cons_of_mem _ hother)
  have hlen := hsound.length_words hindex
  rw [width_of_wide hwide] at hlen
  obtain ⟨low, high, hwords⟩ := length_eq_two.mp (le_antisymm (length_words_le _) hlen)
  have hone : ∀ other, (resolver.sources index).overlapsWith (original other).destination = true →
      ∃ word, (word = low ∨ word = high) ∧
        word ∈ (original other).destination.words layout.widths := by
    intro other hother
    obtain ⟨word, hword, hword'⟩ :=
      (overlapsWith_iff_share hindex (hadm.destination other)).mp hother
    rw [hwords] at hword
    exact ⟨word, by simpa using hword, hword'⟩
  have hapart : ∀ first second word, first ≠ second →
      word ∈ (original first).destination.words layout.widths →
      word ∉ (original second).destination.words layout.widths := fun first second word hdiffer =>
    @disjoint_of_not_overlapsWith _ _ _ (hadm.destination first)
      (hadm.destination second) (hadm.disjoint _ _ hdiffer) word
  obtain ⟨wordHead, hcaseHead, hmemHead⟩ := hone head hfirst
  obtain ⟨wordRequired, hcaseRequired, hmemRequired⟩ := hone _ hover
  obtain ⟨wordCaller, hcaseCaller, hmemCaller⟩ := hone _ hthird
  have h1 : wordHead ≠ wordRequired := by
    rintro rfl
    exact hapart _ _ _ (hrequiredNe head mem_cons_self) hmemHead hmemRequired
  have h2 : wordCaller ≠ wordHead := by
    rintro rfl
    exact hapart _ _ _ hcallerNe hmemCaller hmemHead
  have h3 : wordCaller ≠ wordRequired := by
    rintro rfl
    exact hapart _ _ _ (hrequiredNe _ hcaller) hmemCaller hmemRequired
  rcases hcaseHead with rfl | rfl <;> rcases hcaseRequired with rfl | rfl <;>
    rcases hcaseCaller with rfl | rfl <;> first | exact h1 rfl | exact h2 rfl | exact h3 rfl

/-- The end of a call: the move is dropped, emitted or swapped, or it goes back. -/
theorem performs_finishMove (isRequired : Bool)
    (hrequired : isRequired → Requires original resolver.sources (index :: stack) index)
    (hfinished : isRequired = false → ∀ other ∉ index :: stack,
      (resolver.sources other).overlapsWith (original index).destination = false) :
    Performs layout constants original resolver stack index
      (resolver.finishMove index isRequired).1 (resolver.finishMove index isRequired).2 := by
  have hsound := hinv.sound
  have hindex := hprog.operand _ mem_cons_self
  have hlive := hindex.ne_noLocation
  have hnotMem := hprog.notMem
  simp only [finishMove]
  rw [hinv.destination_eq hnotMem hindex]
  split
  next hsame =>
    exact performs_eliminate hadm hinv hprog (hsound.drop hlive hsame hadm)
  next hne =>
  split
  next htrue =>
    exact performs_required hadm hinv hprog hne (hrequired htrue)
  next hfalse =>
  have hclear := hfinished (not_eq_true _ ▸ hfalse)
  rcases hblocker : resolver.findBlocker (original index).destination with _ | blocker
  · exact performs_eliminate hadm hinv hprog (hsound.move hadm hlive fun other _ hother =>
        findBlocker_eq_none hblocker hother.ne_noLocation)
  have hfound := find?_some hblocker
  have hblocks := (overlapsWith_of_blocks hfound).2
  have hop := hsound.operand_of_overlapsWith hadm hblocks
  have hmem : blocker ∈ stack := by
    by_contra hnot
    by_cases heq : blocker = index
    · subst heq
      exact hne (hsound.eq_of_overlapsWith hadm hindex hblocks)
    · rw [hclear blocker (by simp [heq, hnot])] at hblocks
      cases hblocks
  obtain ⟨head, rest, rfl⟩ := exists_cons_of_ne_nil (ne_nil_of_mem hmem)
  obtain ⟨hcycle, hcycleBlocker, hcycleHead⟩ := hprog.onCycle hsound hmem hblocks
  dsimp only
  rw [hinv.width index, hinv.width blocker]
  split
  next hback =>
    simp only [and_eq_true, not_eq_true'] at hback
    exact ⟨hinv, fun _ _ => rfl, fun _ _ _ _ _ hover => hover, .inr (.inr
      ⟨blocker, hmem, rfl, hcycleBlocker, hback.2, index, hnotMem, hcycle, hlive, hblocks⟩)⟩
  next hback =>
    have hwide : WideOrNarrowBlocked layout original resolver.sources index := by
      by_cases hwide : (original index).is64BitMove = true
      · exact .inl hwide
      · refine .inr ⟨blocker, hcycleBlocker, hop, hblocks, ?_⟩
        simpa [hwide] using hback
    have hreached := (isChain_cons_cons.mp hprog.chain).1
    have hheadLive := (hprog.tail.operand head mem_cons_self).ne_noLocation
    refine performs_swap hadm hinv hprog hwide
      (hprog.canSwap hadm hsound hcycle hwide hne ⟨head, hcycleHead, hheadLive, hreached⟩)
      (fun _ _ _ other hother hover => ?_) (.inl rfl)
    rw [hclear _ hother] at hover
    cases hover

end Finish

/-! ## The calls -/

def Ends (original : Fin count → MoveOperands) (source : Fin count → Location)
    (stack : List (Fin count)) (index : Fin count) : Outcome count → Prop
  | .finished => ∀ other ∉ index :: stack,
      (source other).overlapsWith (original index).destination = false
  | .requiredSwap => Requires original source (index :: stack) index
  | .goesBack required => required ∈ stack ∧ Requires original source (index :: stack) required

variable (layout constants original resolver stack index) in
structure Loops (outcome : Outcome count) (after : Resolver count) : Prop where
  invariant : Invariant layout constants original after (index :: stack)
  kept : ∀ other ∈ (index :: stack).dropLast, after.sources other = resolver.sources other
  frame : ∀ caller ∈ stack, ∀ other ∉ index :: stack,
    (after.sources other).overlapsWith (original caller).destination = true →
      (resolver.sources other).overlapsWith (original caller).destination = true
  ends : Ends original after.sources stack index outcome

/-- A call in the loop, and the rest of the loop. -/
theorem Loops.of_call
    (hcall : Performs layout constants original resolver (index :: stack) other result after)
    (hrest : Loops layout constants original after stack index outcome final)
    (hnotMem : index ∉ stack) :
    Loops layout constants original resolver stack index outcome final := by
  refine ⟨hrest.invariant, fun first hfirst => ?_, fun caller hcaller first hfirst hover => ?_,
    hrest.ends⟩
  · rw [hrest.kept _ hfirst, hcall.kept _ hfirst]
  · refine hcall.frame _ (mem_cons_of_mem _ hcaller) (fun _ hhead => hnotMem ?_) _
      hfirst (hrest.frame _ hcaller _ hfirst hover)
    obtain rfl := some.inj (mem_def.mp hhead)
    exact hcaller

/-- The whole call, from its loop and its end. -/
theorem Performs.of_loop
    (hloop : Loops layout constants original (resolver.setDestination index .noLocation) stack
      index outcome after) (hfinish : Performs layout constants original
      (after.setDestination index (original index).destination) stack index result final) :
    Performs layout constants original resolver stack index result final := by
  have hkept : ∀ other ∈ (index :: stack).dropLast,
      after.sources other = resolver.sources other := by
    intro other hother
    rw [hloop.kept _ hother, sources_setDestination]
  have hnonempty : ∀ other ∈ stack, stack ≠ [] := fun other hother => ne_nil_of_mem hother
  refine ⟨hfinish.invariant, fun other hother => ?_,
    fun caller hcaller hhead other hother hover => ?_, hfinish.returned⟩
  · rw [hfinish.kept _ hother, sources_setDestination]
    refine hkept other ?_
    rw [dropLast_cons_of_ne_nil (hnonempty other (mem_of_mem_dropLast hother))]
    exact mem_cons_of_mem _ hother
  · have hmiddle := hfinish.frame _ hcaller hhead _ hother hover
    rw [sources_setDestination] at hmiddle
    by_cases heq : other = index
    · subst heq
      rwa [hkept other (by
        rw [dropLast_cons_of_ne_nil (hnonempty _ hcaller)]
        exact mem_cons_self)] at hmiddle
    · have hbefore := hloop.frame _ hcaller _ (by simp [heq, hother]) hmiddle
      rwa [sources_setDestination] at hbefore

variable (layout constants original) in
def CallsPerform (fuel : ℕ) : Prop := ∀ (resolver : Resolver count) stack index result after,
    Invariant layout constants original resolver stack →
    InProgress layout original resolver.sources (index :: stack) →
    performMove fuel index resolver = some (result, after) →
      Performs layout constants original resolver stack index result after

variable (layout constants original) in
/-- What the loops with some fuel do from the `i`-th move on. -/
def BlockersLoop (fuel : ℕ) : Prop := ∀ (resolver : Resolver count) stack index i outcome after,
    Invariant layout constants original resolver (index :: stack) →
    (∀ other ∉ index :: stack, other.1 < i →
      (resolver.sources other).overlapsWith (original index).destination = false) →
    performBlockers fuel index (original index).destination i resolver = some (outcome, after) →
      Loops layout constants original resolver stack index outcome after

section Calls

variable {fuel : ℕ}
variable (hadm : Admissible layout constants original)

include hadm

theorem performs_performMove (hblockers : BlockersLoop layout constants original fuel)
    (hinv : Invariant layout constants original resolver stack)
    (hprog : InProgress layout original resolver.sources (index :: stack))
    (hres : performMove (fuel + 1) index resolver = some (result, after)) :
    Performs layout constants original resolver stack index result after := by
  have hindex := hprog.operand _ mem_cons_self
  have hlive := hindex.ne_noLocation
  have hdest := hinv.destination_eq hprog.notMem hindex
  rw [performMove] at hres
  split at hres
  next hred =>
    cases hres
    have hsame : resolver.sources index = (original index).destination := by
      simp only [isRedundant, isEliminated, hdest, or_eq_true, decide_eq_true_eq] at hred
      rcases hred with (hdone | hinvalid) | hsame
      · exact absurd hdone hlive
      · exact absurd hinvalid ((hadm.destination index).ne_noLocation)
      · exact hsame
    exact performs_eliminate hadm hinv hprog (hinv.sound.drop hlive hsame hadm)
  · dsimp only at hres
    rw [hdest] at hres
    rcases hloop : performBlockers fuel index (original index).destination 0
        (resolver.setDestination index .noLocation) with _ | pair
    · simp [hloop] at hres
    obtain ⟨outcome, middle⟩ := pair
    have hloops := hblockers _ _ _ 0 outcome _ (hinv.start hprog)
      (fun _ _ hlt => absurd hlt (Nat.not_lt_zero _)) hloop
    have hrestored := hloops.invariant.restore
    have hprog' : InProgress layout original
        (middle.setDestination index (original index).destination).sources (index :: stack) := by
      rw [sources_setDestination]
      exact hloops.invariant.progress
    have hends := hloops.ends
    refine Performs.of_loop hloops ?_
    rw [hloop] at hres
    cases outcome with
    | finished =>
      obtain ⟨rfl, rfl⟩ := Prod.mk.inj (some.inj hres)
      refine performs_finishMove hadm hrestored hprog' false (by simp) fun _ => ?_
      rw [sources_setDestination]
      exact hends
    | requiredSwap =>
      obtain ⟨rfl, rfl⟩ := Prod.mk.inj (some.inj hres)
      refine performs_finishMove hadm hrestored hprog' true (fun _ => ?_) (by simp)
      rw [sources_setDestination]
      exact hends
    | goesBack required =>
      cases hres
      obtain ⟨hmem, hcycle, hwide, other, hother, hrequires⟩ := hends
      refine ⟨hrestored, fun _ _ => rfl, fun _ _ _ _ _ hover => hover, .inr (.inr
        ⟨required, hmem, rfl, hcycle, hwide, other, ?_, ?_⟩)⟩
      · exact fun hmem => hother (mem_cons_of_mem _ hmem)
      · rw [sources_setDestination]
        exact hrequires

section

variable (hinv : Invariant layout constants original resolver (index :: stack))

include hinv

/-- A move that the loop calls is not in progress. -/
theorem InProgress.call (hblocks : ((resolver.moves other).blocks (original index).destination &&
      !(resolver.moves other).isPending)) :
    InProgress layout original resolver.sources (other :: index :: stack) := by
  rw [and_eq_true, not_eq_true'] at hblocks
  obtain ⟨hlive, hover⟩ := overlapsWith_of_blocks hblocks.1
  have hnotMem : other ∉ index :: stack := by
    intro hmem
    have hpend := hblocks.2
    rw [isPending, hinv.destination _ hlive, if_pos hmem] at hpend
    have hdone : (resolver.moves other).source = .noLocation := by simpa using hpend
    exact hlive hdone
  refine ⟨?_, nodup_cons.mpr ⟨hnotMem, hinv.progress.nodup⟩, .cons_cons hover hinv.progress.chain⟩
  intro first hfirst
  rcases mem_cons.mp hfirst with rfl | hmem
  · exact hinv.sound.operand_of_overlapsWith hadm hover
  · exact hinv.progress.operand _ hmem

/-- A move that the loop passes over does not block. -/
theorem not_overlapsWith_of_passed (hother : other ∉ index :: stack)
    (hblocks : ¬ ((resolver.moves other).blocks (original index).destination &&
      !(resolver.moves other).isPending)) :
    (resolver.sources other).overlapsWith (original index).destination = false := by
  by_cases hlive : resolver.sources other = .noLocation
  · exact overlapsWith_of_not_operand (.inl hlive) (hadm.destination index)
  · rw [blocks_eq hlive, isPending, hinv.destination _ hlive, if_neg hother] at hblocks
    have hvalid := (hadm.destination other).ne_noLocation
    rw [sources]
    simpa [hvalid] using hblocks

end

/-- The loop of `PerformMove`, given what the calls do. -/
theorem loops_performBlockers (hmove : CallsPerform layout constants original fuel)
    (hblockers : BlockersLoop layout constants original fuel) {i : ℕ}
    (hinv : Invariant layout constants original resolver (index :: stack))
    (hbelow : ∀ other ∉ index :: stack, other.1 < i →
      (resolver.sources other).overlapsWith (original index).destination = false)
    (hres : performBlockers (fuel + 1) index (original index).destination i resolver =
      some (outcome, after)) :
    Loops layout constants original resolver stack index outcome after := by
  have hnotMem := hinv.progress.notMem
  rw [performBlockers] at hres
  split at hres
  next hi =>
    dsimp only at hres
    split at hres
    next hblocks =>
      have hprog := InProgress.call hadm hinv hblocks
      have hcalled := hprog.notMem
      rcases hcall : performMove fuel ⟨i, hi⟩ resolver with _ | pair
      · simp [hcall] at hres
      obtain ⟨result, middle⟩ := pair
      have hperforms := hmove _ _ _ _ _ hinv hprog hcall
      have hreturns := (returns_performMove fuel).1 _ _ _ hcall
      rw [hcall] at hres
      cases result with
      | none =>
        refine Loops.of_call hperforms (hblockers _ _ _ _ _ _ hperforms.invariant ?_ hres) hnotMem
        intro other hother hlt
        by_cases heq : other = ⟨i, hi⟩
        · rw [heq]
          exact overlapsWith_of_not_operand (.inl (hreturns.eliminated (.inl rfl)))
            (hadm.destination index)
        · rw [eq_false_iff]
          intro hover
          have hbefore := hperforms.frame _ mem_cons_self (by simp) _ hother hover
          have hne : other.1 ≠ i := fun hval => heq (Fin.ext hval)
          rw [hbelow _ hother (by omega)] at hbefore
          cases hbefore
      | some required =>
        have hrequired : required ≠ ⟨i, hi⟩ → required ∈ index :: stack ∧
            Requires original middle.sources (index :: stack) required := by
          intro hne
          rcases hperforms.returned with hnone | hsome | ⟨move, hmem, hsome, hrequires⟩
          · cases hnone
          · exact absurd (some.inj hsome) hne
          · cases hsome
            exact ⟨hmem, hrequires⟩
        have hcallKept : ∀ outcome, Ends original middle.sources stack index outcome →
            Loops layout constants original resolver stack index outcome middle := by
          intro outcome hends
          exact Loops.of_call hperforms
            ⟨hperforms.invariant, fun _ _ => rfl, fun _ _ _ _ hover => hover, hends⟩
            hnotMem
        dsimp only at hres
        split at hres
        next heq =>
          cases hres
          subst heq
          exact hcallKept _ (hrequired fun heq => hcalled (heq ▸ mem_cons_self)).2
        next hne =>
          split at hres
          · exact Loops.of_call hperforms (hblockers _ _ _ _ _ _ hperforms.invariant
              (fun _ _ hlt => absurd hlt (Nat.not_lt_zero _)) hres) hnotMem
          next hother =>
            cases hres
            obtain ⟨hmem, hrequires⟩ := hrequired hother
            exact hcallKept _ ⟨(mem_cons.mp hmem).resolve_left hne, hrequires⟩
    next hblocks =>
      refine hblockers _ _ _ _ _ _ hinv (fun other hother hlt => ?_) hres
      by_cases heq : other = ⟨i, hi⟩
      · rw [heq] at hother ⊢
        exact not_overlapsWith_of_passed hadm hinv hother hblocks
      · have hne : other.1 ≠ i := fun hval => heq (Fin.ext hval)
        exact hbelow _ hother (by omega)
  next hi =>
    cases hres
    exact ⟨hinv, fun _ _ => rfl, fun _ _ _ _ hover => hover,
      fun other hother => hbelow _ hother (by omega)⟩

/-- What the calls and the loops do, by induction on the fuel. -/
theorem performs_and_loops (fuel : ℕ) : CallsPerform layout constants original fuel ∧
    BlockersLoop layout constants original fuel := by
  induction fuel with
  | zero =>
    constructor
    · intro resolver stack index result after _ _ hres
      cases hres
    · intro resolver stack index i outcome after _ _ hres
      cases hres
  | succ fuel ih =>
    obtain ⟨ihMove, ihBlockers⟩ := ih
    constructor
    · intro resolver stack index result after hinv hprog hres
      exact performs_performMove hadm ihBlockers hinv hprog hres
    · intro resolver stack index i outcome after hinv hbelow hres
      exact loops_performBlockers hadm ihMove ihBlockers hinv hbelow hres

end Calls

end Resolver

end NougatArt.Moves
