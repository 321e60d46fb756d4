import NougatArt.Moves.SwapResolverCorrect

/-!
# Correctness of the resolver with swaps

For parallel moves whose destinations do not overlap, the resolver emits a sequence of
moves and swaps. The sequence leaves in every destination the value of its source if
the moves on cycles have sources that are equal to those that they overlap with and, in
addition, either no source overlaps with a part of a destination only, or no two moves
share a source of 64 bits. Without these conditions a swap may overwrite a destination
that was already written.
-/

namespace NougatArt.Moves

open Function

open List Option Layout Target

namespace Resolver

variable {count : ℕ} {layout : Layout} {constants : ℕ → List (BitVec 32)}
  {orig : Fin count → MoveOperands} {res after : Resolver count} {i : Fin count}
  (hadm : Admissible layout constants orig)

include hadm

section

variable (hinv : Invariant layout constants orig res [])

include hinv

theorem performMoveAt_spec (hlive : res.sources i ≠ .noLocation)
    (hconst : (res.sources i).isConstant = false) (hres : res.performMoveAt i = some after) :
    Invariant layout constants orig after [] ∧ Advances res after ∧
      after.sources i = .noLocation := by
  rw [performMoveAt, map_eq_some_iff] at hres
  obtain ⟨⟨result, s⟩, hres, rfl⟩ := hres
  have hop : layout.Operand (res.sources i) := by
    rcases hinv.sound.operand _ hlive with htrue | hop
    · rw [hconst] at htrue
      cases htrue
    · exact hop
  have hperforms := (performs_and_loops hadm (depth count)).1 res [] i _ _
    hinv ⟨by simpa using hop, nodup_singleton i, .singleton i⟩ hres
  have hreturns := (returns_performMove (depth count)).1 _ _ _ hres
  refine ⟨hperforms.invariant, hreturns.advances, hreturns.eliminated ?_⟩
  rcases hperforms.returned with hnone | hsome | ⟨required, hmem, -⟩
  · exact .inl hnone
  · exact .inr hsome
  · cases hmem

theorem performStackMove_spec (hres : res.performStackMove i = some after) :
    Invariant layout constants orig after [] := by
  simp only [performStackMove] at hres
  split at hres
  · cases hres
    exact hinv
  next hskip =>
    split at hres
    · simp only [MoveOperands.isEliminated, Bool.or_eq_true, decide_eq_true_eq, not_or,
        Bool.not_eq_true] at hskip
      exact (performMoveAt_spec hadm hinv hskip.1 hskip.2 hres).1
    · cases hres
      exact hinv

theorem performOtherMove_spec (hres : res.performOtherMove i = some after) :
    Invariant layout constants orig after [] ∧ Advances res after ∧
      (after.sources i = .noLocation ∨ (orig i).source.isConstant) := by
  simp only [performOtherMove] at hres
  split at hres
  next hmove =>
    simp only [MoveOperands.isEliminated, Bool.and_eq_true, Bool.not_eq_true',
      decide_eq_false_iff_not] at hmove
    obtain ⟨hafter, hadv, hdone⟩ := performMoveAt_spec hadm hinv hmove.1 hmove.2 hres
    exact ⟨hafter, hadv, .inl hdone⟩
  next hskip =>
    cases hres
    refine ⟨hinv, .refl res, ?_⟩
    by_cases hlive : res.sources i = .noLocation
    · exact .inl hlive
    · rw [← hinv.constant _ hlive]
      right
      by_contra hconst
      rw [Bool.not_eq_true] at hconst
      refine hskip ?_
      simp only [MoveOperands.isEliminated, Bool.and_eq_true, Bool.not_eq_true',
        decide_eq_false_iff_not]
      exact ⟨hlive, hconst⟩

/-- The last loop, once only moves of constants are left. -/
theorem performConstantMove_spec (hconstants : ∀ other, res.sources other ≠ .noLocation →
      (res.sources other).isConstant) :
    Invariant layout constants orig (res.performConstantMove i) [] ∧
      (res.performConstantMove i).sources = update res.sources i .noLocation := by
  simp only [performConstantMove]
  split
  next hmove =>
    simp only [MoveOperands.isEliminated, Bool.not_eq_true', decide_eq_false_iff_not] at hmove
    have hsound := hinv.sound.move hadm hmove fun other _ hother => by
      have htrue := hconstants _ hother.ne_noLocation
      rw [hother.wellFormed.isConstant] at htrue
      cases htrue
    rw [hinv.destination _ hmove, if_neg not_mem_nil]
    exact ⟨hinv.eliminate not_mem_nil hsound, sources_eliminate _ _⟩
  next hdone =>
    simp only [MoveOperands.isEliminated, Bool.not_eq_true', decide_eq_false_iff_not,
      not_not] at hdone
    exact ⟨hinv, (update_eq_self_iff.mpr hdone.symm).symm⟩

end

theorem foldl_performConstantMove (list : List (Fin count))
    (hinv : Invariant layout constants orig res [])
    (hconstants : ∀ other, res.sources other ≠ .noLocation → (res.sources other).isConstant) :
    Invariant layout constants orig (list.foldl performConstantMove res) [] ∧
      ∀ other, other ∈ list ∨ res.sources other = .noLocation →
        (list.foldl performConstantMove res).sources other = .noLocation := by
  induction list generalizing res with
  | nil => exact ⟨hinv, fun other hother => hother.resolve_left not_mem_nil⟩
  | cons head tail ih =>
    obtain ⟨hmiddle, hsrcs⟩ := performConstantMove_spec hadm hinv hconstants
    have hupdate : ∀ other, (res.performConstantMove head).sources other ≠ .noLocation →
        (res.performConstantMove head).sources other = res.sources other := by
      intro other hlive
      rw [hsrcs] at hlive ⊢
      exact (update_noLocation_of_ne hlive).2
    obtain ⟨hafter, hdone⟩ := ih hmiddle fun other hlive => by
      have hsame := hupdate _ hlive
      rw [hsame] at hlive ⊢
      exact hconstants _ hlive
    refine ⟨hafter, fun other hother => hdone other ?_⟩
    by_cases heq : other = head
    · rw [hsrcs, heq, update_self]
      exact .inr rfl
    · rw [hsrcs, update_of_ne heq]
      exact hother.imp_left fun hmem => (mem_cons.mp hmem).resolve_left heq

theorem resolve_spec (hsound : Sound layout constants orig (fun i => (orig i).source) []) :
    ∃ after, resolve orig = some after ∧
      Sound layout constants orig (fun _ => .noLocation) after.emitted := by
  have hinitial : Invariant layout constants orig ⟨orig, []⟩ [] :=
    ⟨hsound, ⟨nofun, nodup_nil, .nil⟩, fun _ => rfl, fun _ _ => rfl, fun _ _ => rfl⟩
  obtain ⟨after, hafter⟩ := exists_resolve orig
  refine ⟨after, hafter, ?_⟩
  obtain ⟨first, hfirst, hrest⟩ := bind_eq_some_iff.mp hafter
  obtain ⟨second, hsnd, hthird⟩ := bind_eq_some_iff.mp hrest
  cases hthird
  obtain ⟨hfirstInvariant, -, -⟩ := foldlM_spec
    (Invariant layout constants orig · []) (fun _ _ => True) (fun _ _ => True)
    (fun _ => trivial) (fun _ _ _ _ _ => trivial) (fun _ _ _ _ _ => trivial)
    (fun s i after _ hstate hres =>
      ⟨performStackMove_spec hadm hstate hres, trivial, trivial⟩) hinitial hfirst
  obtain ⟨hsecondInvariant, -, hperformed⟩ := foldlM_spec
    (Invariant layout constants orig · []) Advances
    (fun i s => s.sources i = .noLocation ∨ (orig i).source.isConstant = true)
    Advances.refl (fun _ _ _ => Advances.trans)
    (fun i s after hadv hpost => hpost.imp_left (hadv.eliminated i))
    (fun s i after _ hstate hres => performOtherMove_spec hadm hstate hres) hfirstInvariant hsnd
  obtain ⟨hthirdInvariant, hdone⟩ := foldl_performConstantMove hadm (finRange count)
    hsecondInvariant fun i hindex => by
      rw [hsecondInvariant.constant _ hindex]
      exact (hperformed i (mem_finRange i)).resolve_left hindex
  have hsrcs : ((finRange count).foldl performConstantMove second).sources = fun _ => .noLocation :=
    funext fun i => hdone _ (.inl (mem_finRange i))
  have hfinal := hthirdInvariant.sound
  rwa [hsrcs] at hfinal

end Resolver

section Parallel

variable (layout : Layout) (constants : ℕ → List (BitVec 32)) (moves : List MoveOperands)

/-- Parallel moves between operands of the layout that can hold what is moved, with destinations
that do not overlap. The locations with halves are operands of 64 bits. -/
structure Parallel : Prop where
  destination : ∀ move ∈ moves, layout.Operand move.destination
  source : ∀ move ∈ moves, move.source.isConstant = true ∨ layout.Operand move.source
  width : ∀ move ∈ moves, move.width ≤ (move.destination.words layout.widths).length
  length : ∀ move ∈ moves, ∀ memory,
    move.width ≤ (read ⟨layout.widths, constants⟩ memory move.source).length
  double : ∀ move ∈ moves, move.destination.hasHalves = true ∨ move.source.hasHalves = true →
    move.is64BitMove = true
  disjoint : moves.Pairwise fun move other =>
    move.destination.overlapsWith other.destination = false

/-- The words that the moves may change: those of the destinations, and the second half of a
source of 64 bits whose first half is in a destination. -/
def MayWrite (word : Word) : Prop := (∃ move ∈ moves, word ∈ move.destination.words layout.widths) ∨
    ∃ move ∈ moves, move.is64BitMove = true ∧ layout.Operand move.source ∧
      word ∈ move.source.highOf.words layout.widths ∧
      ∃ other ∈ moves, move.source.lowOf.overlapsWith other.destination = true

/-- The emitted steps leave in every destination the value that its source had. -/
def Resolves : Prop := ∃ steps, emitNativeCode moves = some steps ∧ ∀ memory,
    (∀ move ∈ moves, (read ⟨layout.widths, constants⟩
        (run ⟨layout.widths, constants⟩ steps memory) move.destination).take move.width =
      (read ⟨layout.widths, constants⟩ memory move.source).take move.width) ∧
    ∀ word, run ⟨layout.widths, constants⟩ steps memory word ≠ memory word →
      MayWrite layout moves word

/-- A move that is blocked by itself, over the moves that block each other. -/
def OnBlockingCycle (move : MoveOperands) : Prop :=
  Relation.TransGen (fun move other => other ∈ buildInitialMoveList moves ∧
    other.source.overlapsWith move.destination = true) move move

/-- The sources that overlap with that of a move on a cycle are equal to it and of its width. -/
def SameSources : Prop :=
  ∀ move ∈ moves, OnBlockingCycle moves move → ∀ other ∈ moves, layout.Operand move.source →
    layout.Operand other.source → move.source.overlapsWith other.source = true →
      move.source = other.source ∧ move.is64BitMove = other.is64BitMove

/-- Sources that overlap with the destination of a move on a cycle are equal to it. -/
def WholeMoves : Prop := ∀ move ∈ moves, ∀ other ∈ moves, OnBlockingCycle moves other →
    layout.Operand move.source → move.source.overlapsWith other.destination = true →
      move.source = other.destination

/-- Sources that overlap with the destination of a move on a cycle have its width. -/
def EqualWidths : Prop := ∀ move ∈ moves, ∀ other ∈ moves, OnBlockingCycle moves other →
    layout.Operand move.source → move.source.overlapsWith other.destination = true →
      move.is64BitMove = other.is64BitMove

/-- Of the moves of 64 bits on cycles, no two have the same source, the operands all have halves
or none has, and the second half of a source is in a destination only if its first half is. -/
structure LoneMoves : Prop where
  alone : moves.Pairwise fun move other => OnBlockingCycle moves move →
    OnBlockingCycle moves other → move.source = other.source →
      move.is64BitMove = false ∧ other.is64BitMove = false
  halves : ∃ hasHalves, ∀ move ∈ moves, OnBlockingCycle moves move → move.is64BitMove = true →
    move.destination.hasHalves = hasHalves ∧
      (layout.Operand move.source → move.source.hasHalves = hasHalves)
  low : ∀ move ∈ moves, OnBlockingCycle moves move → move.is64BitMove = true →
    ∀ other ∈ moves, move.source.highOf.overlapsWith other.destination = true →
      ∃ another ∈ moves, move.source.lowOf.overlapsWith another.destination = true

variable {layout constants moves} {move : MoveOperands}

theorem mem_buildInitialMoveList :
    move ∈ buildInitialMoveList moves ↔ move ∈ moves ∧ move.isRedundant = false := by
  simp [buildInitialMoveList]

theorem get_mem_moves (i : Fin (buildInitialMoveList moves).length) :
    (buildInitialMoveList moves).get i ∈ moves :=
  (mem_buildInitialMoveList.mp (get_mem _ i)).1

theorem ne_noLocation_of_source {src : Location}
    (hsrc : src.isConstant ∨ layout.Operand src) : src ≠ .noLocation := by
  rintro rfl
  exact hsrc.elim Bool.false_ne_true fun hop => hop.wellFormed

theorem eq_of_isRedundant (hdest : layout.Operand move.destination)
    (hsrc : move.source.isConstant ∨ layout.Operand move.source)
    (hred : move.isRedundant) : move.source = move.destination := by
  simp only [MoveOperands.isRedundant, MoveOperands.isEliminated, Bool.or_eq_true,
    decide_eq_true_eq] at hred
  rcases hred with (hnone | hnone) | heq
  · exact absurd hnone (ne_noLocation_of_source hsrc)
  · exact absurd hnone hdest.ne_noLocation
  · exact heq

section Disjoint

variable (hdisjoint : moves.Pairwise fun move other =>
  move.destination.overlapsWith other.destination = false)

include hdisjoint

theorem get_apart (i other : Fin (buildInitialMoveList moves).length) (hne : i ≠ other) :
    ((buildInitialMoveList moves).get i).destination.overlapsWith
      ((buildInitialMoveList moves).get other).destination = false := by
  have hpairwise := pairwise_iff_get.mp (hdisjoint.filter fun move => !move.isRedundant)
  rcases lt_or_gt_of_ne hne with hlt | hgt
  · exact hpairwise _ _ hlt
  · rw [Location.overlapsWith_comm]
    exact hpairwise _ _ hgt

/-- The destinations of the moves that are kept are apart from that of a move to itself. -/
theorem apart_of_isRedundant (hmove : move ∈ moves)
    (hred : move.isRedundant) (i : Fin (buildInitialMoveList moves).length) :
    move.destination.overlapsWith ((buildInitialMoveList moves).get i).destination = false := by
  obtain ⟨hmem, hkept⟩ := mem_buildInitialMoveList.mp (get_mem _ i)
  have hsymmetric : Std.Symm fun move other : MoveOperands =>
      move.destination.overlapsWith other.destination = false :=
    ⟨fun _ _ hfalse => by rwa [Location.overlapsWith_comm]⟩
  refine hdisjoint.forall hmove hmem ?_
  rintro rfl
  rw [hred] at hkept
  cases hkept

end Disjoint

theorem admissible_of_parallel (hparallel : Parallel layout constants moves) :
    Admissible layout constants (buildInitialMoveList moves).get :=
  ⟨fun i => hparallel.destination _ (get_mem_moves i),
    fun i => hparallel.source _ (get_mem_moves i),
    fun i => hparallel.width _ (get_mem_moves i),
    fun i => hparallel.length _ (get_mem_moves i),
    fun i hhalves => hparallel.double _ (get_mem_moves i) (.inl hhalves),
    get_apart hparallel.disjoint⟩

theorem onBlockingCycle_get {i : Fin (buildInitialMoveList moves).length}
    (hcycle : OnCycle (buildInitialMoveList moves).get i) :
    OnBlockingCycle moves ((buildInitialMoveList moves).get i) :=
  Relation.TransGen.lift (buildInitialMoveList moves).get
    (fun _ other hblocked => ⟨get_mem _ other, hblocked⟩) i i hcycle

/-- A move on a cycle blocks another one. -/
theorem OnBlockingCycle.exists_blocked (hcycle : OnBlockingCycle moves move) :
    ∃ other ∈ buildInitialMoveList moves, move.source.overlapsWith other.destination := by
  obtain ⟨other, hreaches, hmove, hover⟩ := Relation.TransGen.tail'_iff.mp hcycle
  refine ⟨other, ?_, hover⟩
  rcases Relation.ReflTransGen.cases_tail hreaches with rfl | ⟨_, -, hother, -⟩
  · exact hmove
  · exact hother

theorem loneSources_of_loneMoves (hparallel : Parallel layout constants moves)
    (hlone : LoneMoves layout moves) : ∃ hasHalves,
      LoneSources layout (buildInitialMoveList moves).get
        (fun i => ((buildInitialMoveList moves).get i).source) hasHalves := by
  obtain ⟨hasHalves, hhalves⟩ := hlone.halves
  have hwide := fun i (hcycle : OnCycle (buildInitialMoveList moves).get i) =>
    hhalves _ (get_mem_moves i) (onBlockingCycle_get hcycle)
  refine ⟨hasHalves, fun i other hne hindex hcycle heq => ?_,
    fun i hcycle hwideIndex => (hwide i hcycle hwideIndex).1,
    fun i hindex => (hwide i hindex.onCycle hindex.wide).2 hindex.operand,
    fun _ other _ hdone =>
      absurd hdone (ne_noLocation_of_source (hparallel.source _ (get_mem_moves other))),
    fun i hindex => ⟨i, hindex.onCycle, hindex.wide, rfl⟩⟩
  have hpairwise := pairwise_iff_get.mp (hlone.alone.filter fun move => !move.isRedundant)
  have hfirst := onBlockingCycle_get hindex.onCycle
  have hsnd := onBlockingCycle_get hcycle
  have hnarrow : ((buildInitialMoveList moves).get i).is64BitMove = false := by
    rcases lt_or_gt_of_ne hne with hlt | hgt
    · exact (hpairwise _ _ hlt hfirst hsnd heq).1
    · exact (hpairwise _ _ hgt hsnd hfirst heq.symm).2
  rw [hindex.wide] at hnarrow
  cases hnarrow

variable (hparallel : Parallel layout constants moves) (hsame : SameSources layout moves)
  (hkind : WholeMoves layout moves ∧ EqualWidths layout moves ∨ LoneMoves layout moves)

include hparallel hsame hkind

theorem sound_initial : Sound layout constants (buildInitialMoveList moves).get
    (fun i => ((buildInitialMoveList moves).get i).source) [] := by
  refine ⟨fun i _ => hparallel.source _ (get_mem_moves i),
    fun i _ => hparallel.length _ (get_mem_moves i),
    fun i _ hhalves => hparallel.double _ (get_mem_moves i) (.inr hhalves),
    fun i other hcycle => hsame _ (get_mem_moves i) (onBlockingCycle_get hcycle) _
      (get_mem_moves other), fun _ _ _ _ hover => .single hover, ?_,
    fun i memory => ?_, fun _ _ hword => absurd rfl hword⟩
  · refine hkind.imp (fun ⟨hwhole, hwidths⟩ i other hcycle hindex _ hover => ⟨?_, ?_⟩)
      (loneSources_of_loneMoves hparallel)
    · exact hwhole _ (get_mem_moves i) _ (get_mem_moves other) (onBlockingCycle_get hcycle)
        hindex hover
    · exact hwidths _ (get_mem_moves i) _ (get_mem_moves other) (onBlockingCycle_get hcycle)
        hindex hover
  · rw [placeOf]
    split
    next hnone =>
      exact absurd hnone (ne_noLocation_of_source (hparallel.source _ (get_mem_moves i)))
    · rfl

omit hsame in
/-- What the resolver changes is what the moves may write. -/
theorem mayWrite_of_mayChange {word : Word}
    (hchange : MayChange layout (buildInitialMoveList moves).get word) :
    MayWrite layout moves word := by
  rcases hchange with ⟨i, hword⟩ | ⟨i, hcycle, hwide, hop, hword, other, hcycle', hover⟩
  · exact .inl ⟨_, get_mem_moves i, hword⟩
  have hmem := get_mem_moves i
  have hother := get_mem_moves other
  replace hcycle := onBlockingCycle_get hcycle
  replace hcycle' := onBlockingCycle_get hcycle'
  generalize (buildInitialMoveList moves).get i = move at *
  generalize (buildInitialMoveList moves).get other = t at *
  rcases hkind with ⟨hwhole, -⟩ | hlone
  · rw [hwhole _ hmem _ hother hcycle' hop hover] at hword
    exact .inl ⟨t, hother, hword⟩
  cases hhalves : move.source.hasHalves with
  | false => exact .inl ⟨t, hother, subset_of_overlapsWith hop (hparallel.destination _ hother)
      hover hhalves hword⟩
  | true =>
  obtain ⟨-, -, low, high, hwords, hlow, hhigh⟩ := hop.wellFormed.words_halves hhalves
  have hoperandLow := hop.lowOf hhalves
  have hoperandHigh := hop.highOf hhalves
  -- The first half is in a destination.
  obtain ⟨another, hanother, hfirst⟩ : ∃ another ∈ moves,
      move.source.lowOf.overlapsWith another.destination = true := by
    have htarget := hparallel.destination _ hother
    obtain ⟨shared, hshared, hshared'⟩ := (overlapsWith_iff_share hop htarget).mp hover
    rw [hwords] at hshared
    rcases mem_cons.mp hshared with rfl | hrest
    · refine ⟨t, hother, (overlapsWith_iff_share hoperandLow htarget).mpr ⟨shared, ?_, hshared'⟩⟩
      simp [hlow]
    · refine hlone.low _ hmem hcycle hwide _ hother
        ((overlapsWith_iff_share hoperandHigh htarget).mpr ⟨shared, ?_, hshared'⟩)
      rw [hhigh]
      exact hrest
  rw [hwords] at hword
  rcases mem_cons.mp hword with rfl | hrest
  · obtain ⟨shared, hshared, hshared'⟩ := (overlapsWith_iff_share hoperandLow
      (hparallel.destination _ hanother)).mp hfirst
    rw [hlow, mem_singleton] at hshared
    exact .inl ⟨another, hanother, hshared ▸ hshared'⟩
  · refine .inr ⟨move, hmem, hwide, hop, ?_, another, hanother, hfirst⟩
    rw [hhigh]
    exact hrest

omit hkind in
/-- A move to itself is dropped, and the others do not change its location. -/
theorem notMem_of_redundant (hmove : move ∈ moves)
    (hred : move.isRedundant) : move.source = move.destination ∧
      ∀ word ∈ move.destination.words layout.widths,
        ¬ MayChange layout (buildInitialMoveList moves).get word := by
  have hdest := hparallel.destination _ hmove
  have heq := eq_of_isRedundant hdest (hparallel.source _ hmove) hred
  have hapart := apart_of_isRedundant hparallel.disjoint hmove hred
  refine ⟨heq, fun word hword hchange => ?_⟩
  rcases hchange with ⟨i, hindex⟩ | ⟨i, hcycle, -, hop, hindex, other, -, hover⟩
  · exact disjoint_of_not_overlapsWith hdest
      (hparallel.destination _ (get_mem_moves i)) (hapart i) hword hindex
  · have hsrc : layout.Operand move.source := heq ▸ hdest
    rw [← heq] at hword
    rw [(hsame _ (get_mem_moves i) (onBlockingCycle_get hcycle) _ hmove hop hsrc
      ((overlapsWith_iff_share hop hsrc).mpr ⟨word, hindex, hword⟩)).1, heq,
      hapart other] at hover
    cases hover

end Parallel

/-! ## A cycle of mixed width and a shared source -/

/-- A machine whose pairs are those of an even register and the next one. -/
def pairLayout : Layout where
  widths := ⟨fun _ => false, fun _ => false⟩
  doubles location := ∃ half, location = .registerPair (2 * half) (2 * half + 1)
  apart := by
    rintro location other ⟨half, rfl⟩ ⟨half', rfl⟩ hne word hword hword'
    have hdiffer : half ≠ half' := fun heq => hne (by rw [heq])
    simp only [Location.words, List.mem_cons, List.not_mem_nil, or_false] at hword hword'
    rcases hword with rfl | rfl <;> rcases hword' with heq | heq <;>
      (have hreg := (Word.core.inj heq).1; omega)

theorem operand_register (reg : ℕ) : pairLayout.Operand (.register reg) := ⟨trivial, nofun⟩

theorem operand_registerPair (half : ℕ) :
    pairLayout.Operand (.registerPair (2 * half) (2 * half + 1)) :=
  ⟨⟨by omega, rfl, rfl⟩, fun _ => ⟨half, rfl⟩⟩

/-- A pair and two registers that are moved in a circle, and a register that is moved together
with the pair that it is part of. -/
def mixedCycle : List MoveOperands :=
  [⟨.registerPair 0 1, .registerPair 2 3, true⟩, ⟨.register 2, .register 0, false⟩,
    ⟨.register 3, .register 1, false⟩, ⟨.register 6, .register 8, false⟩,
    ⟨.registerPair 6 7, .registerPair 4 5, true⟩]

def sharedPair : List MoveOperands :=
  [⟨.register 5, .register 0, false⟩, ⟨.registerPair 0 1, .registerPair 2 3, true⟩,
    ⟨.registerPair 0 1, .registerPair 4 5, true⟩, ⟨.register 2, .register 1, false⟩]

theorem mixedCycle_parallel : Parallel pairLayout (fun _ => []) mixedCycle := by
  refine ⟨?_, ?_, ?_, ?_, by decide, by decide⟩
  all_goals simp only [mixedCycle, forall_mem_cons, not_mem_nil, false_imp_iff,
    implies_true, and_true]
  · exact ⟨operand_registerPair 1, operand_register 0, operand_register 1, operand_register 8,
      operand_registerPair 2⟩
  · exact ⟨.inr (operand_registerPair 0), .inr (operand_register 2), .inr (operand_register 3),
      .inr (operand_register 6), .inr (operand_registerPair 3)⟩
  · exact ⟨le_rfl, le_rfl, le_rfl, le_rfl, le_rfl⟩
  · exact ⟨fun _ => le_rfl, fun _ => le_rfl, fun _ => le_rfl, fun _ => le_rfl, fun _ => le_rfl⟩

theorem mixedCycle_sameSources : SameSources pairLayout mixedCycle := by
  -- The last two moves do not block another one.
  have hsame : ∀ move ∈ mixedCycle, (∃ other ∈ buildInitialMoveList mixedCycle,
      move.source.overlapsWith other.destination = true) → ∀ other ∈ mixedCycle,
      move.source.overlapsWith other.source = true →
        move.source = other.source ∧ move.is64BitMove = other.is64BitMove := by decide
  exact fun move hmove hcycle other hother _ _ => hsame _ hmove hcycle.exists_blocked _ hother

theorem mixedCycle_loneMoves : LoneMoves pairLayout mixedCycle := by
  have halone : mixedCycle.Pairwise fun move other => move.source ≠ other.source := by decide
  have hhalves : ∀ move ∈ mixedCycle, move.is64BitMove = true →
      move.destination.hasHalves = true ∧ move.source.hasHalves = true := by decide
  have hlow : ∀ move ∈ mixedCycle, (∃ other ∈ buildInitialMoveList mixedCycle,
      move.source.overlapsWith other.destination = true) → move.is64BitMove = true →
      ∃ another ∈ mixedCycle, move.source.lowOf.overlapsWith another.destination = true := by decide
  exact ⟨halone.imp fun hne _ _ heq => absurd heq hne,
    ⟨true, fun move hmove _ hwide =>
      ⟨(hhalves _ hmove hwide).1, fun _ => (hhalves _ hmove hwide).2⟩⟩,
    fun move hmove hcycle hwide _ _ _ => hlow _ hmove hcycle.exists_blocked hwide⟩

theorem emitNativeCode_sharedPair : emitNativeCode sharedPair = some
    [.swap (.registerPair 0 1) (.registerPair 4 5) 2, .swap (.register 2) (.register 1) 1,
      .swap (.registerPair 4 5) (.registerPair 2 3) 2, .move (.register 4) (.register 0)] := by
  decide +kernel

end NougatArt.Moves
