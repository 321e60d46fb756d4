import NougatArt.Moves.SwapResolver
import NougatArt.Core.OptionFold

/-!
# The resolver with swaps terminates

Whatever the moves are, a call of `PerformMove` either eliminates its move or goes back
to a move in progress, and moves that are eliminated stay so. The calls are nested at
most as deep as there are moves, and every repetition of a loop follows an elimination.
-/

namespace NougatArt.Moves

open Option

open Finset MoveOperands

namespace Resolver

variable {count : ℕ}

/-! ## What an operation does to one move -/

section

variable (res : Resolver count) (index other : Fin count)

include res index other

@[simp]
theorem setDestination_source
    (dest : Location) : ((res.setDestination index dest).moves other).source =
      (res.moves other).source := by
  rw [setDestination]
  by_cases heq : other = index
  · subst heq
    simp
  · simp [heq]

@[simp]
theorem setDestination_is64BitMove (dest : Location) :
    ((res.setDestination index dest).moves other).is64BitMove = (res.moves other).is64BitMove := by
  rw [setDestination]
  by_cases heq : other = index
  · subst heq
    simp
  · simp [heq]

theorem setDestination_destination (dest : Location) :
    ((res.setDestination index dest).moves other).destination =
      if other = index then dest else (res.moves other).destination := by
  rw [setDestination]
  by_cases heq : other = index
  · subst heq
    simp
  · simp [heq]

theorem eliminate_moves : (res.eliminate index).moves other =
      if other = index then (res.moves index).eliminate else res.moves other := by
  rw [eliminate]
  by_cases heq : other = index
  · subst heq
    simp
  · simp [heq]

end

@[simp]
theorem emit_moves (res : Resolver count) (step : Step) : (res.emit step).moves = res.moves :=
  rfl

variable {move : MoveOperands}

theorem blocks_eq (hlive : move.source ≠ .noLocation) (loc : Location) :
    move.blocks loc = move.source.overlapsWith loc := by
  simp [blocks, isEliminated, hlive]

theorem blocks_of_eliminated (hsrc : move.source = .noLocation) (loc : Location) :
    move.blocks loc = false := by
  simp [blocks, isEliminated, hsrc]

theorem swapSource_of_eliminated (hsrc : move.source = .noLocation)
    (src dest : Location) : swapSource src dest move = move := by
  rw [swapSource, blocks_of_eliminated hsrc, blocks_of_eliminated hsrc]
  rfl

@[simp]
theorem swapSource_destination (src dest : Location) (move : MoveOperands) :
    (swapSource src dest move).destination = move.destination := by
  simp only [swapSource]
  split_ifs <;> rfl

@[simp]
theorem swapSource_is64BitMove (src dest : Location) (move : MoveOperands) :
    (swapSource src dest move).is64BitMove = move.is64BitMove := by
  simp only [swapSource]
  split_ifs <;> rfl

theorem performSwap_moves (res : Resolver count) (index other : Fin count) :
    (res.performSwap index).moves other = if other = index then (res.moves index).eliminate else
        swapSource (res.moves index).source (res.moves index).destination (res.moves other) := by
  rw [performSwap]
  dsimp only
  rw [eliminate_moves, emit_moves]
  by_cases heq : other = index
  · rw [if_pos heq, if_pos heq, swapSource_of_eliminated rfl]
  · rw [if_neg heq, if_neg heq]

@[simp]
theorem performSwap_emitted (res : Resolver count) (index : Fin count) :
    (res.performSwap index).emitted = res.emitted ++
        [.swap (res.moves index).source (res.moves index).destination (res.moves index).width] :=
  rfl

/-- Eliminated moves stay eliminated, and the destinations of the others are kept. -/
structure Advances (resolver after : Resolver count) : Prop where
  eliminated : ∀ other, (resolver.moves other).source = .noLocation →
    (after.moves other).source = .noLocation
  destination : ∀ other, (after.moves other).source ≠ .noLocation →
    (after.moves other).destination = (resolver.moves other).destination

theorem Advances.refl (res : Resolver count) : Advances res res :=
  ⟨fun _ hsrc => hsrc, fun _ _ => rfl⟩

theorem Advances.trans {first second third : Resolver count} (hfirst : Advances first second)
    (hsnd : Advances second third) : Advances first third := by
  refine ⟨fun other hsrc => hsnd.eliminated other (hfirst.eliminated _ hsrc), ?_⟩
  intro other hlive
  have hmiddle : (second.moves other).source ≠ .noLocation := fun hsrc =>
    hlive (hsnd.eliminated _ hsrc)
  rw [hsnd.destination _ hlive, hfirst.destination _ hmiddle]

/-- What a call of `PerformMove` returns: its move was eliminated or it goes back. -/
structure Returns (resolver : Resolver count) (index : Fin count)
    (result : Option (Fin count) × Resolver count) : Prop where
  advances : Advances resolver result.2
  eliminated : result.1 = none ∨ result.1 = some index → (result.2.moves index).source = .noLocation

/-- A move is eliminated and the others keep their destinations. -/
theorem returns_of_moves {res after : Resolver count} {index : Fin count}
    (f : MoveOperands → MoveOperands) (hmoves : ∀ other, after.moves other =
      if other = index then (res.moves index).eliminate else f (res.moves other))
    (hsrc : ∀ move, move.source = .noLocation → (f move).source = .noLocation)
    (hdest : ∀ move, (f move).destination = move.destination) (back : Option (Fin count)) :
    Returns res index (back, after) := by
  refine ⟨⟨fun other hother => ?_, fun other hlive => ?_⟩, fun _ => ?_⟩
  · rw [hmoves]
    split
    · rfl
    · exact hsrc _ hother
  · rw [hmoves] at hlive ⊢
    split at hlive
    · exact absurd rfl hlive
    next hne => rw [if_neg hne, hdest]
  · rw [hmoves, if_pos rfl]
    rfl

theorem returns_eliminate (res : Resolver count) (index : Fin count) (back : Option (Fin count)) :
    Returns res index (back, res.eliminate index) :=
  returns_of_moves id (eliminate_moves res index) (fun _ hsrc => hsrc) (fun _ => rfl) back

theorem returns_performSwap (res : Resolver count) (index : Fin count) (back : Option (Fin count)) :
    Returns res index (back, res.performSwap index) :=
  returns_of_moves _ (performSwap_moves res index)
    (fun move hsrc => by rw [swapSource_of_eliminated hsrc, hsrc])
    (fun move => swapSource_destination ..) back

theorem returns_finishMove (res : Resolver count) (index : Fin count) (isRequired : Bool) :
    Returns res index (res.finishMove index isRequired) := by
  simp only [finishMove]
  split
  · exact returns_eliminate res index _
  split
  · exact returns_performSwap res index _
  rcases hblocker : res.findBlocker (res.moves index).destination with _ | other
  · apply returns_of_moves id
    · exact eliminate_moves _ index
    · exact fun _ hsrc => hsrc
    · exact fun _ => rfl
  dsimp only
  split
  next hwide =>
    refine ⟨.refl res, ?_⟩
    rintro (hnone | hsome)
    · cases hnone
    · -- The move it goes back to has 64 bits, this one has not.
      cases hsome
      simp at hwide
  · exact returns_performSwap res index _

variable {res after : Resolver count} {index other : Fin count}

theorem advances_setDestination (hadv : Advances (res.setDestination index .noLocation) after) :
    Advances res (after.setDestination index (res.moves index).destination) := by
  refine ⟨fun other hsrc => ?_, fun other hlive => ?_⟩
  · rw [setDestination_source]
    exact hadv.eliminated other (by rw [setDestination_source, hsrc])
  · rw [setDestination_source] at hlive
    have hdest := hadv.destination _ hlive
    rw [setDestination_destination] at hdest ⊢
    by_cases heq : other = index
    · rw [if_pos heq, heq]
    · rw [if_neg heq, hdest, if_neg heq]

/-- What the calls return, by induction on the fuel. -/
theorem returns_performMove (fuel : ℕ) : (∀ (index : Fin count) (res : Resolver count) result,
      performMove fuel index res = some result → Returns res index result) ∧
    ∀ (index : Fin count) dest i (res : Resolver count) result,
      performBlockers fuel index dest i res = some result →
        Advances res result.2 ∧ result.1 ≠ .goesBack index := by
  induction fuel with
  | zero =>
    constructor
    · intro index res result hres
      cases hres
    · intro index dest i res result hres
      cases hres
  | succ fuel ih =>
    obtain ⟨ihMove, ihBlockers⟩ := ih
    constructor
    · intro index res result hres
      rw [performMove] at hres
      split at hres
      · cases hres
        exact returns_eliminate res index _
      rcases hblockers : performBlockers fuel index (res.moves index).destination 0
          (res.setDestination index .noLocation) with _ | pair
      · simp [hblockers] at hres
      obtain ⟨outcome, after⟩ := pair
      obtain ⟨hadv, hback⟩ := ihBlockers _ _ _ _ _ hblockers
      have hrestored := advances_setDestination hadv
      simp only [hblockers] at hres
      cases outcome with
      | goesBack required =>
        cases hres
        refine ⟨hrestored, ?_⟩
        rintro (hnone | hsome)
        · cases hnone
        · rw [some.inj hsome] at hback
          exact absurd rfl hback
      | finished | requiredSwap =>
        cases hres
        have hreturns := returns_finishMove
          (after.setDestination index (res.moves index).destination) index
        exact ⟨hrestored.trans (hreturns _).advances, (hreturns _).eliminated⟩
    · intro index dest i res result hres
      rw [performBlockers] at hres
      split at hres
      next hi =>
        dsimp only at hres
        split at hres
        · rcases hmove : performMove fuel ⟨i, hi⟩ res with _ | pair
          · simp [hmove] at hres
          obtain ⟨required, after⟩ := pair
          have hreturns := ihMove _ _ _ hmove
          cases required with
          | none =>
            simp only [hmove] at hres
            obtain ⟨hadv, hback⟩ := ihBlockers _ _ _ _ _ hres
            exact ⟨hreturns.advances.trans hadv, hback⟩
          | some required =>
            simp only [hmove] at hres
            split at hres
            · cases hres
              exact ⟨hreturns.advances, nofun⟩
            next hne =>
              split at hres
              · obtain ⟨hadv, hback⟩ := ihBlockers _ _ _ _ _ hres
                exact ⟨hreturns.advances.trans hadv, hback⟩
              · cases hres
                refine ⟨hreturns.advances, fun heq => hne ?_⟩
                exact Outcome.goesBack.inj heq
        · exact ihBlockers _ _ _ _ _ hres
      · cases hres
        exact ⟨.refl res, nofun⟩

def live (resolver : Resolver count) : Finset (Fin count) :=
  univ.filter fun other => (resolver.moves other).source ≠ .noLocation

def free (resolver : Resolver count) : Finset (Fin count) :=
  resolver.live.filter fun other => (resolver.moves other).destination ≠ .noLocation

theorem mem_live : other ∈ res.live ↔ (res.moves other).source ≠ .noLocation := by
  simp [live]

theorem mem_free : other ∈ res.free ↔ (res.moves other).source ≠ .noLocation ∧
      (res.moves other).destination ≠ .noLocation := by
  simp [free, mem_live]

theorem Advances.live_subset (hadv : Advances res after) : after.live ⊆ res.live := by
  intro other hother
  rw [mem_live] at hother ⊢
  exact fun hsrc => hother (hadv.eliminated _ hsrc)

theorem Advances.free_subset (hadv : Advances res after) : after.free ⊆ res.free := by
  intro other hother
  rw [mem_free] at hother ⊢
  refine ⟨mem_live.mp (hadv.live_subset (mem_live.mpr hother.1)), ?_⟩
  rw [← hadv.destination _ hother.1]
  exact hother.2

theorem Returns.card_live_lt {result : Option (Fin count) × Resolver count}
    (hreturns : Returns res index result) (hlive : index ∈ res.live)
    (hres : result.1 = none ∨ result.1 = some index) : result.2.live.card < res.live.card := by
  refine card_lt_card ((ssubset_iff_of_subset hreturns.advances.live_subset).mpr
    ⟨index, hlive, fun hmem => ?_⟩)
  exact mem_live.mp hmem (hreturns.eliminated hres)

def callFuel (count frees : ℕ) : ℕ := frees * ((count + 1) * (count + 1) + 2) + 1

/-- The loop comes to its end: its index goes up until a move is eliminated. -/
theorem exists_performBlockers {frees : ℕ}
    (hmove : ∀ fuel (index : Fin count) (res : Resolver count),
      res.free.card ≤ frees → callFuel count frees ≤ fuel →
        ∃ result, performMove fuel index res = some result)
    (fuel : ℕ) : ∀ (index : Fin count) dest i (res : Resolver count), res.free.card ≤ frees →
      callFuel count frees + res.live.card * (count + 1) + (count - i) + 1 ≤ fuel →
        ∃ result, performBlockers fuel index dest i res = some result := by
  induction fuel with
  | zero =>
    intro index dest i res _ hfuel
    omega
  | succ fuel ih =>
    intro index dest i res hfree hfuel
    rw [performBlockers]
    split
    next hi =>
      dsimp only
      split
      next hblocks =>
        obtain ⟨⟨required, after⟩, hres⟩ := hmove fuel ⟨i, hi⟩ _ hfree (by omega)
        have hreturns := (returns_performMove fuel).1 _ _ _ hres
        have hfree' : after.free.card ≤ frees :=
          (card_le_card hreturns.advances.free_subset).trans hfree
        have hlive : (⟨i, hi⟩ : Fin count) ∈ res.live := by
          rw [mem_live]
          intro hsrc
          simp [blocks_of_eliminated hsrc] at hblocks
        -- After an elimination the loop may start again.
        have hagain : (required = none ∨ required = some ⟨i, hi⟩) → ∀ j,
            ∃ result, performBlockers fuel index dest j after = some result := by
          intro hrequired j
          have hcard := hreturns.card_live_lt hlive hrequired
          refine ih _ _ j _ hfree' ?_
          have hmul : (after.live.card + 1) * (count + 1) ≤
              res.live.card * (count + 1) := Nat.mul_le_mul_right _ hcard
          rw [Nat.add_mul] at hmul
          omega
        rw [hres]
        cases required with
        | none => exact hagain (.inl rfl) (i + 1)
        | some required =>
          dsimp only
          split
          · exact ⟨_, rfl⟩
          · split
            next heq => exact hagain (.inr (congrArg some heq)) 0
            · exact ⟨_, rfl⟩
      · exact ih _ _ (i + 1) _ hfree (by omega)
    · exact ⟨_, rfl⟩

theorem card_free_setDestination (hindex : index ∈ res.free) :
    (res.setDestination index .noLocation).free.card < res.free.card := by
  refine card_lt_card ((ssubset_iff_of_subset ?_).mpr ⟨index, hindex, ?_⟩)
  · intro other hother
    rw [mem_free, setDestination_source, setDestination_destination] at hother
    rw [mem_free]
    refine ⟨hother.1, fun hdest => hother.2 ?_⟩
    split
    · rfl
    · exact hdest
  · rw [mem_free, setDestination_destination, if_pos rfl]
    exact fun hmem => hmem.2 rfl

/-- A call returns if it has enough fuel for the moves that are free. -/
theorem exists_performMove (frees : ℕ) : ∀ fuel (index : Fin count) (res : Resolver count),
    res.free.card ≤ frees → callFuel count frees ≤ fuel →
      ∃ result, performMove fuel index res = some result := by
  induction frees with
  | zero =>
    intro fuel index res hfree hfuel
    obtain ⟨fuel, rfl⟩ : ∃ rest, fuel = rest + 1 := ⟨fuel - 1, by simp [callFuel] at hfuel; omega⟩
    have hred : (res.moves index).isRedundant = true := by
      have hindex : index ∉ res.free := by
        rw [card_eq_zero.mp (Nat.le_zero.mp hfree)]
        exact notMem_empty index
      rw [mem_free, not_and_or, not_not, not_not] at hindex
      rcases hindex with hsrc | hdest
      · simp [isRedundant, isEliminated, hsrc]
      · simp [isRedundant, hdest]
    rw [performMove, if_pos hred]
    exact ⟨_, rfl⟩
  | succ frees ih =>
    intro fuel index res hfree hfuel
    obtain ⟨fuel, rfl⟩ : ∃ rest, fuel = rest + 1 := ⟨fuel - 1, by simp [callFuel] at hfuel; omega⟩
    rw [performMove]
    split
    · exact ⟨_, rfl⟩
    next hred =>
      have hindex : index ∈ res.free := by
        rw [mem_free]
        simp only [isRedundant, isEliminated, Bool.or_eq_true, decide_eq_true_eq, not_or] at hred
        exact ⟨hred.1.1, hred.1.2⟩
      have hcard := card_free_setDestination hindex
      have hlive : (res.setDestination index .noLocation).live.card ≤ count :=
        (card_le_univ _).trans (Fintype.card_fin count).le
      have hmul : (res.setDestination index .noLocation).live.card * (count + 1) ≤
          count * (count + 1) := Nat.mul_le_mul_right _ hlive
      obtain ⟨⟨outcome, after⟩, hres⟩ := exists_performBlockers ih fuel index
        (res.moves index).destination 0 (res.setDestination index .noLocation)
        (by omega) (by
          simp only [callFuel, Nat.sub_zero] at hfuel ⊢
          nlinarith)
      dsimp only
      rw [hres]
      cases outcome <;> exact ⟨_, rfl⟩

theorem exists_performMoveAt (res : Resolver count) (index : Fin count) :
    ∃ after, res.performMoveAt index = some after := by
  have hcard : res.free.card ≤ count := (card_le_univ _).trans (Fintype.card_fin count).le
  obtain ⟨result, hres⟩ := exists_performMove _ (depth count) _ _ hcard (by
    simp only [callFuel, depth]
    nlinarith)
  exact ⟨result.2, by rw [performMoveAt, hres]; rfl⟩

theorem exists_resolve (moves : Fin count → MoveOperands) : ∃ res, resolve moves = some res := by
  have hstack : ∀ (res : Resolver count) index,
      ∃ after, res.performStackMove index = some after := by
    intro res index
    rw [performStackMove]
    split_ifs
    · exact ⟨_, rfl⟩
    · exact exists_performMoveAt res index
    · exact ⟨_, rfl⟩
  have hother : ∀ (res : Resolver count) index,
      ∃ after, res.performOtherMove index = some after := by
    intro res index
    rw [performOtherMove]
    split_ifs
    · exact exists_performMoveAt res index
    · exact ⟨_, rfl⟩
  obtain ⟨first, hfirst, -⟩ := exists_foldlM (fun _ => True)
    (fun res index _ _ => by simpa using hstack res index) trivial
  obtain ⟨second, hsnd, -⟩ := exists_foldlM (fun _ => True)
    (fun res index _ _ => by simpa using hother res index) trivial
  refine ⟨(List.finRange count).foldl performConstantMove second, ?_⟩
  rw [resolve, hfirst]
  change (List.foldlM performOtherMove first (List.finRange count)).bind _ = _
  rw [hsnd]
  rfl

end Resolver

end NougatArt.Moves
