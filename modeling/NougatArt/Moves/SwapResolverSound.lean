import NougatArt.Moves.SwapResolverProgress

/-!
# The invariant of the resolver with swaps

Every move that is left finds in its source the value that it has to transport, and
the destinations of the moves that were performed hold the right values. A swap keeps
this if all sources that overlap with one of the swapped locations can be renamed, and
if it does not touch the destination of a move that was performed. Only moves on a cycle
of moves that block each other are swapped, so nothing is asked of the other ones alone.
-/

namespace NougatArt.Moves

open List Function Bool Layout Location Target

/-! ## Overlapping operands -/

section Overlap

variable {layout : Layout} {loc other : Location}

section

variable (hloc : layout.Operand loc) (hother : layout.Operand other)
  (hover : loc.overlapsWith other = true)

include hover in
theorem eq_of_overlapsWith_of_not_hasHalves (hhalves : loc.hasHalves = false)
    (hhalves' : other.hasHalves = false) : loc = other := by
  simpa [overlapsWith_iff, hhalves, hhalves'] using hover

include hloc hother hover

/-- Overlapping operands of two words are the same. -/
theorem eq_of_overlapsWith_of_length (hlen : 2 ≤ (loc.words layout.widths).length)
    (hlen' : 2 ≤ (other.words layout.widths).length) : loc = other := by
  have hone : ∀ {wide half}, layout.Operand wide → wide.hasHalves = true →
      wide.lowOf = half ∨ wide.highOf = half → (half.words layout.widths).length = 1 := by
    intro wide half hwide hhalves hhalf
    obtain ⟨-, -, low, high, -, hlow, hhigh⟩ := hwide.wellFormed.words_halves hhalves
    rcases hhalf with rfl | rfl
    · rw [hlow]
      rfl
    · rw [hhigh]
      rfl
  rcases overlapsWith_iff.mp hover with heq | ⟨hhalves, hhalf⟩ | ⟨hhalves, hhalf⟩
  · exact heq
  · have hlen := hone hloc hhalves hhalf
    omega
  · have hlen := hone hother hhalves hhalf
    omega

/-- An operand without halves is part of the operands that it overlaps with. -/
theorem subset_of_overlapsWith (hhalves : loc.hasHalves = false) :
    loc.words layout.widths ⊆ other.words layout.widths := by
  rcases overlapsWith_iff.mp hover with rfl | ⟨htrue, -⟩ | ⟨hwide, hhalf⟩
  · exact List.Subset.refl _
  · rw [hhalves] at htrue
    cases htrue
  · obtain ⟨-, -, low, high, hwords, hlow, hhigh⟩ := hother.wellFormed.words_halves hwide
    rcases hhalf with rfl | rfl
    · simp [hlow, hwords]
    · simp [hhigh, hwords]

/-- The words that a move reads or writes of overlapping operands are not apart. -/
theorem exists_mem_take_of_overlapsWith {width width' : ℕ} (hwidth : 0 < width)
    (hwidth' : 0 < width') (hdouble : loc.hasHalves → 2 ≤ width)
    (hdouble' : other.hasHalves → 2 ≤ width') :
    ∃ word ∈ (loc.words layout.widths).take width,
      word ∈ (other.words layout.widths).take width' := by
  have hhalf : ∀ {wide half}, layout.Operand wide → wide.hasHalves = true →
      wide.lowOf = half ∨ wide.highOf = half → ∀ {width width' : ℕ}, 2 ≤ width → 0 < width' →
      ∃ word ∈ (wide.words layout.widths).take width,
        word ∈ (half.words layout.widths).take width' := by
    intro wide half hwide hhalves hhalf width width' htwo hpos
    obtain ⟨-, -, low, high, hwords, hlow, hhigh⟩ := hwide.wellFormed.words_halves hhalves
    have hall : (wide.words layout.widths).take width = [low, high] := by
      rw [hwords]
      exact take_of_length_le htwo
    have hsingle : ∀ word : Word, [word].take width' = [word] := fun word =>
      take_of_length_le (Nat.succ_le_of_lt hpos)
    rcases hhalf with rfl | rfl
    · exact ⟨low, by simp [hall], by simp [hlow, hsingle]⟩
    · exact ⟨high, by simp [hall], by simp [hhigh, hsingle]⟩
  rcases overlapsWith_iff.mp hover with rfl | ⟨hhalves, hpart⟩ | ⟨hhalves, hpart⟩
  · obtain ⟨first, rest, hwords⟩ := exists_cons_of_ne_nil hloc.wellFormed.words_ne_nil
    obtain ⟨width, rfl⟩ := Nat.exists_eq_succ_of_ne_zero hwidth.ne'
    obtain ⟨width', rfl⟩ := Nat.exists_eq_succ_of_ne_zero hwidth'.ne'
    exact ⟨first, by simp [hwords], by simp [hwords]⟩
  · exact hhalf hloc hhalves hpart (hdouble hhalves) hwidth'
  · obtain ⟨word, hword, hword'⟩ := hhalf hother hhalves hpart (hdouble' hhalves) hwidth
    exact ⟨word, hword', hword⟩

end

end Overlap

theorem MoveOperands.width_le_width {move other : MoveOperands}
    (hwide : move.is64BitMove → other.is64BitMove) : move.width ≤ other.width := by
  rw [width, width]
  split
  next htrue => rw [if_pos (hwide htrue)]
  · split <;> omega

theorem MoveOperands.width_of_wide {move : MoveOperands} (hwide : move.is64BitMove) :
    move.width = 2 :=
  if_pos hwide

theorem MoveOperands.width_pos (move : MoveOperands) : 0 < move.width := by
  rw [width]
  split <;> omega

/-! ## Renaming the sources after a swap -/

variable {loc : Location}

section Rename

variable {layout : Layout} {source destination : Location} {width width' : ℕ}

/-- The source that `swapSource` gives a move that is left. -/
def rename (source destination location : Location) : Location :=
  if location.overlapsWith source then
    updateSourceOf location source destination
  else if location.overlapsWith destination then
    updateSourceOf location destination source
  else
    location

theorem swapSource_source {move : MoveOperands} (hlive : move.source ≠ .noLocation)
    (source destination : Location) : (Resolver.swapSource source destination move).source =
      rename source destination move.source := by
  simp only [Resolver.swapSource, rename, Resolver.blocks_eq hlive]
  split_ifs <;> rfl

theorem updateSourceOf_self (hloc : loc.WellFormed layout.widths)
    (newSource : Location) : updateSourceOf loc loc newSource = newSource := by
  have hne : loc.lowOf ≠ loc ∧ loc.highOf ≠ loc := by
    cases loc
    case noLocation => exact hloc.elim
    all_goals exact ⟨nofun, nofun⟩
  rw [updateSourceOf, if_neg hne.1, if_neg hne.2]

/-- How an operand is renamed after a swap of a width: it is one of the swapped locations and not
wider, a half of the destination, or apart from both. -/
inductive Renamed (source destination : Location) (width width' : ℕ) : Location → Location → Prop
  | source : width' ≤ width → Renamed source destination width width' source destination
  | destination : width' ≤ width → Renamed source destination width width' destination source
  | low : source.hasHalves = true → destination.hasHalves = true →
      Renamed source destination width width' destination.lowOf source.lowOf
  | high : source.hasHalves = true → destination.hasHalves = true →
      Renamed source destination width width' destination.highOf source.highOf
  | other {location : Location} : location.overlapsWith source = false →
      location.overlapsWith destination = false →
      Renamed source destination width width' location location

theorem renamed_rename (hsrc : layout.Operand source) (hdest : layout.Operand destination)
    (hoverSource : loc.overlapsWith source → loc = source ∧ width' ≤ width)
    (hoverDestination : loc.overlapsWith destination → loc = destination ∧ width' ≤ width ∨
      loc.hasHalves = false ∧ source.hasHalves ∧ destination.hasHalves) :
    Renamed source destination width width' loc (rename source destination loc) := by
  rw [rename]
  by_cases hfirst : loc.overlapsWith source = true
  · obtain ⟨rfl, hle⟩ := hoverSource hfirst
    rw [if_pos hfirst, updateSourceOf_self hsrc.wellFormed]
    exact .source hle
  rw [if_neg hfirst]
  rw [not_eq_true] at hfirst
  by_cases hsnd : loc.overlapsWith destination = true
  · rw [if_pos hsnd]
    rcases hoverDestination hsnd with ⟨rfl, hle⟩ | ⟨hnarrow, hhalves, hhalves'⟩
    · rw [updateSourceOf_self hdest.wellFormed]
      exact .destination hle
    rcases overlapsWith_iff.mp hsnd with rfl | ⟨hwide, -⟩ | ⟨-, hlow | hhigh⟩
    · rw [hnarrow] at hhalves'
      cases hhalves'
    · rw [hnarrow] at hwide
      cases hwide
    · rw [updateSourceOf, if_pos hlow, ← hlow]
      exact .low hhalves hhalves'
    · have hne : destination.lowOf ≠ loc := by
        intro hlow
        obtain ⟨-, -, low, high, hwords, hlowWords, hhighWords⟩ :=
          hdest.wellFormed.words_halves hhalves'
        have hnodup := hdest.wellFormed.nodup
        rw [hlow, ← hhigh, hhighWords] at hlowWords
        rw [hwords, singleton_inj.mp hlowWords] at hnodup
        simp at hnodup
      rw [updateSourceOf, if_neg hne, if_pos hhigh, ← hhigh]
      exact .high hhalves hhalves'
  · rw [if_neg hsnd]
    exact .other hfirst (not_eq_true _ ▸ hsnd)

variable {renamed : Location}
  (hsrc : layout.Operand source) (hdest : layout.Operand destination)

include hsrc hdest

theorem Renamed.operand (hrenamed : Renamed source destination width width' loc renamed)
    (hloc : layout.Operand loc) : layout.Operand renamed := by
  cases hrenamed with
  | source => exact hdest
  | destination => exact hsrc
  | low hhalves _ => exact hsrc.lowOf hhalves
  | high hhalves _ => exact hsrc.highOf hhalves
  | other _ _ => exact hloc

variable (hapart : source.overlapsWith destination = false)
  (hwidth : width ≤ (source.words layout.widths).length)
  (hwidth' : width ≤ (destination.words layout.widths).length)
  (hdouble : destination.hasHalves → width = 2)
  (hrenamed : Renamed source destination width width' loc renamed) (hloc : layout.Operand loc)

include hapart hwidth hwidth' hdouble hrenamed hloc

/-- The words of the renamed operand are those that the swap exchanges for the words of the
operand. -/
theorem Renamed.take_words : (renamed.words layout.widths).take width' =
    ((loc.words layout.widths).take width').map (exchange ((source.words layout.widths).take width)
      ((destination.words layout.widths).take width)) := by
  have hdisj : List.Disjoint ((source.words layout.widths).take width)
      ((destination.words layout.widths).take width) := fun word hword hword' =>
    disjoint_of_not_overlapsWith hsrc hdest hapart (mem_of_mem_take hword) (mem_of_mem_take hword')
  have hnodup := hsrc.wellFormed.nodup.sublist (take_sublist width _)
  have hnodup' := hdest.wellFormed.nodup.sublist (take_sublist width _)
  have hlen : ((source.words layout.widths).take width).length =
      ((destination.words layout.widths).take width).length := by
    rw [length_take, length_take, min_eq_left hwidth, min_eq_left hwidth']
  cases hrenamed with
  | source hle =>
    have hall := congrArg (take width') (map_exchange_first hnodup hlen)
    rw [← map_take, take_take, take_take, min_eq_left hle] at hall
    exact hall.symm
  | destination hle =>
    have hall := congrArg (take width') (map_exchange_second hnodup' hdisj hlen)
    rw [← map_take, take_take, take_take, min_eq_left hle] at hall
    exact hall.symm
  | low hhalves hhalves' =>
    obtain ⟨-, -, low, high, hwords, hlow, -⟩ := hsrc.wellFormed.words_halves hhalves
    obtain ⟨-, -, low', high', hwords', hlow', -⟩ := hdest.wellFormed.words_halves hhalves'
    obtain rfl := hdouble hhalves'
    rw [hwords'] at hnodup'
    rw [hwords, hwords'] at hdisj hlen
    have hword := exchange_getElem_second hnodup' hdisj hlen 0 (by simp)
    rw [hlow, hlow', map_take, map_singleton, hwords, hwords']
    exact congrArg (fun word => [word].take width') hword.symm
  | high hhalves hhalves' =>
    obtain ⟨-, -, low, high, hwords, -, hhigh⟩ := hsrc.wellFormed.words_halves hhalves
    obtain ⟨-, -, low', high', hwords', -, hhigh'⟩ := hdest.wellFormed.words_halves hhalves'
    obtain rfl := hdouble hhalves'
    rw [hwords'] at hnodup'
    rw [hwords, hwords'] at hdisj hlen
    have hword := exchange_getElem_second hnodup' hdisj hlen 1 (by simp)
    rw [hhigh, hhigh', map_take, map_singleton, hwords, hwords']
    exact congrArg (fun word => [word].take width') hword.symm
  | other hfirst hsnd =>
    have hfirst' := disjoint_of_not_overlapsWith hloc hsrc hfirst
    have hsnd' := disjoint_of_not_overlapsWith hloc hdest hsnd
    refine (map_id' _).symm.trans (map_congr_left fun word hword => ?_)
    exact (exchange_of_notMem (fun hmem => hfirst' (mem_of_mem_take hword) (mem_of_mem_take hmem))
      fun hmem => hsnd' (mem_of_mem_take hword) (mem_of_mem_take hmem)).symm

/-- The renamed operand holds after the swap what the operand held before. -/
theorem Renamed.read_swap (constants : ℕ → List (BitVec 32)) (memory : Memory) :
    (read ⟨layout.widths, constants⟩
        (swap ⟨layout.widths, constants⟩ source destination width memory) renamed).take width' =
      (read ⟨layout.widths, constants⟩ memory loc).take width' := by
  have hdisj : List.Disjoint ((source.words layout.widths).take width)
      ((destination.words layout.widths).take width) := fun word hword hword' =>
    disjoint_of_not_overlapsWith hsrc hdest hapart (mem_of_mem_take hword) (mem_of_mem_take hword')
  have hlen : ((source.words layout.widths).take width).length =
      ((destination.words layout.widths).take width).length := by
    rw [length_take, length_take, min_eq_left hwidth, min_eq_left hwidth']
  have hop := hrenamed.operand hsrc hdest hloc
  rw [read_of_not_constant hop.wellFormed.isConstant,
    read_of_not_constant hloc.wellFormed.isConstant, ← map_take, ← map_take,
    hrenamed.take_words hsrc hdest hapart hwidth hwidth' hdouble hloc, map_map]
  refine map_congr_left fun word _ => ?_
  change memory (exchange _ _ (exchange _ _ word)) = memory word
  rw [exchange_exchange (hsrc.wellFormed.nodup.sublist (take_sublist width _))
    (hdest.wellFormed.nodup.sublist (take_sublist width _)) hdisj hlen]

end Rename

/-! ## Sources and values -/

section Sound

variable {count : ℕ} (layout : Layout) (constants : ℕ → List (BitVec 32))
  (original : Fin count → MoveOperands)

/-- Moves between operands of the layout that can hold what is moved, with destinations that do
not overlap. A location with halves is the destination of a move of 64 bits. -/
structure Admissible : Prop where
  destination : ∀ index, layout.Operand (original index).destination
  source : ∀ index, (original index).source.isConstant = true ∨
    layout.Operand (original index).source
  width : ∀ index, (original index).width ≤
    ((original index).destination.words layout.widths).length
  length : ∀ index memory, (original index).width ≤
    (read ⟨layout.widths, constants⟩ memory (original index).source).length
  double : ∀ index, (original index).destination.hasHalves = true →
    (original index).is64BitMove = true
  disjoint : ∀ index other, index ≠ other →
    (original index).destination.overlapsWith (original other).destination = false

variable (source : Fin count → Location)

/-- Sources that overlap with the destination of a move on a cycle are equal to it, and of the
same width. -/
def WholeSources : Prop :=
  ∀ index other, OnCycle original other → layout.Operand (source index) →
    source other ≠ .noLocation →
    (source index).overlapsWith (original other).destination = true →
      source index = (original other).destination ∧
        (original index).is64BitMove = (original other).is64BitMove

structure WideOnCycle (index : Fin count) : Prop where
  onCycle : OnCycle original index
  wide : (original index).is64BitMove = true
  operand : layout.Operand (source index)

/-- On a cycle every source of 64 bits is that of one move, is apart from the destinations that
were written, and the operands of 64 bits all have halves or none has. -/
structure LoneSources (hasHalves : Bool) : Prop where
  alone : ∀ index other, index ≠ other → WideOnCycle layout original source index →
    OnCycle original other → source index ≠ source other
  destination_halves : ∀ index, OnCycle original index → (original index).is64BitMove = true →
    (original index).destination.hasHalves = hasHalves
  source_halves : ∀ index, WideOnCycle layout original source index →
    (source index).hasHalves = hasHalves
  finished : ∀ index other, WideOnCycle layout original source index →
    source other = .noLocation → (source index).overlapsWith (original other).destination = false
  initial : ∀ index, WideOnCycle layout original source index →
    ∃ other, OnCycle original other ∧ (original other).is64BitMove = true ∧
      source index = (original other).source

/-- The words that may change: those of destinations, and those of sources of 64 bits that
overlap with a destination, for moves on a cycle. -/
def MayChange (word : Word) : Prop :=
  (∃ index, word ∈ (original index).destination.words layout.widths) ∨
    ∃ index, OnCycle original index ∧ (original index).is64BitMove = true ∧
      layout.Operand (original index).source ∧
      word ∈ (original index).source.words layout.widths ∧
      ∃ other, OnCycle original other ∧
        (original index).source.overlapsWith (original other).destination = true

/-- Where the value of a move is: in its source, or in its destination once it was performed. -/
def placeOf (index : Fin count) : Location :=
  if source index = .noLocation then (original index).destination else source index

structure Sound (emitted : List Step) : Prop where
  operand : ∀ index, source index ≠ .noLocation →
    (source index).isConstant = true ∨ layout.Operand (source index)
  length : ∀ index, source index ≠ .noLocation → ∀ memory, (original index).width ≤
    (read ⟨layout.widths, constants⟩ memory (source index)).length
  double : ∀ index, layout.Operand (source index) → (source index).hasHalves = true →
    (original index).is64BitMove = true
  same : ∀ index other, OnCycle original index → layout.Operand (source index) →
    layout.Operand (source other) → (source index).overlapsWith (source other) = true →
      source index = source other ∧ (original index).is64BitMove = (original other).is64BitMove
  -- Swaps do not make a move wait for moves that it did not wait for.
  waits : ∀ index other, source index ≠ .noLocation → layout.Operand (source other) →
    (source other).overlapsWith (original index).destination = true → WaitsFor original index other
  kind : WholeSources layout original source ∨
    ∃ hasHalves, LoneSources layout original source hasHalves
  value : ∀ index memory, (read ⟨layout.widths, constants⟩
      (run ⟨layout.widths, constants⟩ emitted memory)
        (placeOf original source index)).take (original index).width =
    (read ⟨layout.widths, constants⟩ memory (original index).source).take (original index).width
  changed : ∀ memory word, run ⟨layout.widths, constants⟩ emitted memory word ≠ memory word →
      MayChange layout original word

variable {layout constants original}

section Finish

variable {source : Fin count → Location} {emitted emitted' : List Step} {i : Fin count}

/-- What is still a source after a move was performed was one before. -/
theorem update_noLocation_of_ne {other : Fin count}
    (hlive : update source i .noLocation other ≠ .noLocation) :
    other ≠ i ∧ update source i .noLocation other = source other := by
  by_cases heq : other = i
  · rw [heq, update_self] at hlive
    exact absurd rfl hlive
  · exact ⟨heq, update_of_ne heq _ _⟩

theorem WideOnCycle.of_update {other : Fin count}
    (h : WideOnCycle layout original (update source i .noLocation) other) :
    other ≠ i ∧ update source i .noLocation other = source other ∧
      WideOnCycle layout original source other := by
  obtain ⟨hne, hsame⟩ := update_noLocation_of_ne h.operand.ne_noLocation
  exact ⟨hne, hsame, h.onCycle, h.wide, hsame ▸ h.operand⟩

theorem WholeSources.finish (hwhole : WholeSources layout original source) :
    WholeSources layout original (update source i .noLocation) := by
  intro first second hcycle hfirst hsnd
  have hsameFirst := (update_noLocation_of_ne hfirst.ne_noLocation).2
  rw [hsameFirst] at hfirst ⊢
  have hsameSecond := (update_noLocation_of_ne hsnd).2
  rw [hsameSecond] at hsnd
  exact hwhole _ _ hcycle hfirst hsnd

theorem LoneSources.finish {hasHalves : Bool}
    (hlone : LoneSources layout original source hasHalves)
    (hapart : ∀ other, other ≠ i → WideOnCycle layout original source other →
      (source other).overlapsWith (original i).destination = false) :
    LoneSources layout original (update source i .noLocation) hasHalves := by
  refine ⟨fun first second hne hfirst hcycle => ?_, hlone.destination_halves,
    fun first hfirst => ?_, fun first second hfirst hsnd => ?_, fun first hfirst => ?_⟩
  all_goals
    obtain ⟨hother, hsame, hbefore⟩ := hfirst.of_update
    rw [hsame]
  · by_cases heq : second = i
    · rw [heq, update_self]
      exact hbefore.operand.ne_noLocation
    · rw [update_of_ne heq]
      exact hlone.alone _ _ hne hbefore hcycle
  · exact hlone.source_halves _ hbefore
  · by_cases heq : second = i
    · rw [heq]
      exact hapart _ hother hbefore
    · rw [update_of_ne heq] at hsnd
      exact hlone.finished _ _ hbefore hsnd
  · exact hlone.initial _ hbefore

variable (hsound : Sound layout constants original source emitted)

include hsound

/-- A move was performed: its destination holds its value, the places of the others are kept. -/
theorem Sound.finish (hvalue : ∀ memory, (read ⟨layout.widths, constants⟩
        (run ⟨layout.widths, constants⟩ emitted' memory)
          (original i).destination).take (original i).width =
      (read ⟨layout.widths, constants⟩ memory (original i).source).take (original i).width)
    (hothers : ∀ other, other ≠ i → ∀ memory, read ⟨layout.widths, constants⟩
        (run ⟨layout.widths, constants⟩ emitted' memory) (placeOf original source other) =
      read ⟨layout.widths, constants⟩
        (run ⟨layout.widths, constants⟩ emitted memory) (placeOf original source other))
    (hchanged : ∀ memory word, run ⟨layout.widths, constants⟩ emitted' memory word ≠
      run ⟨layout.widths, constants⟩ emitted memory word → MayChange layout original word)
    (hfinished : ∀ hasHalves, LoneSources layout original source hasHalves → ∀ other, other ≠ i →
      WideOnCycle layout original source other →
        (source other).overlapsWith (original i).destination = false) :
    Sound layout constants original (update source i .noLocation) emitted' := by
  refine ⟨fun other hlive => ?_, fun other hlive memory => ?_, fun other hother => ?_,
    fun first second hcycle hfirst hsnd => ?_, fun first second hfirst hsnd => ?_,
    ?_, fun other memory => ?_, fun memory word hword => ?_⟩
  · have hsame := (update_noLocation_of_ne hlive).2
    rw [hsame] at hlive ⊢
    exact hsound.operand _ hlive
  · have hsame := (update_noLocation_of_ne hlive).2
    rw [hsame] at hlive ⊢
    exact hsound.length _ hlive memory
  · have hsame := (update_noLocation_of_ne hother.ne_noLocation).2
    rw [hsame] at hother ⊢
    exact hsound.double _ hother
  · have hsameFirst := (update_noLocation_of_ne hfirst.ne_noLocation).2
    rw [hsameFirst] at hfirst ⊢
    have hsameSecond := (update_noLocation_of_ne hsnd.ne_noLocation).2
    rw [hsameSecond] at hsnd ⊢
    exact hsound.same _ _ hcycle hfirst hsnd
  · have hsameFirst := (update_noLocation_of_ne hfirst).2
    rw [hsameFirst] at hfirst
    have hsameSecond := (update_noLocation_of_ne hsnd.ne_noLocation).2
    rw [hsameSecond] at hsnd ⊢
    exact hsound.waits _ _ hfirst hsnd
  · rcases hsound.kind with hwhole | ⟨hasHalves, hlone⟩
    · exact .inl hwhole.finish
    · exact .inr ⟨hasHalves, hlone.finish (hfinished _ hlone)⟩
  · by_cases heq : other = i
    · subst heq
      rw [placeOf, update_self, if_pos rfl]
      exact hvalue memory
    · have hplace : placeOf original (update source i .noLocation) other =
          placeOf original source other := by
        rw [placeOf, placeOf, update_of_ne heq]
      rw [hplace, hothers _ heq]
      exact hsound.value other memory
  · by_cases hsame : run ⟨layout.widths, constants⟩ emitted' memory word =
        run ⟨layout.widths, constants⟩ emitted memory word
    · rw [hsame] at hword
      exact hsound.changed _ _ hword
    · exact hchanged _ _ hsame

theorem Sound.drop (hlive : source i ≠ .noLocation) (hsame : source i = (original i).destination)
    (hadm : Admissible layout constants original) :
    Sound layout constants original (update source i .noLocation) emitted := by
  refine hsound.finish (fun memory => ?_) (fun _ _ _ => rfl) (fun _ _ hne => absurd rfl hne) ?_
  · have hvalue := hsound.value i memory
    rwa [placeOf, if_neg hlive, hsame] at hvalue
  · intro hasHalves hlone other hne hother
    have hindex : layout.Operand (source i) := hsame ▸ hadm.destination i
    have hcycle : OnCycle original i := hsound.waits i i hlive hindex (by
      rw [hsame]
      exact overlapsWith_self _)
    rw [eq_false_iff]
    intro hover
    rw [← hsame] at hover
    exact hlone.alone _ _ hne hother hcycle
      (hsound.same _ _ hother.onCycle hother.operand hindex hover).1

theorem Sound.move (hadm : Admissible layout constants original) (hlive : source i ≠ .noLocation)
    (hclear : ∀ other, other ≠ i → layout.Operand (source other) →
      (source other).overlapsWith (original i).destination = false) :
    Sound layout constants original (update source i .noLocation)
      (emitted ++ [.move (source i) (original i).destination]) := by
  have hdest := hadm.destination i
  refine hsound.finish (fun memory => ?_) (fun other hne memory => ?_) (fun memory word hword => ?_)
    fun _ _ other hne hother => hclear _ hne hother.operand
  · rw [run_append, run_singleton]
    change (Target.read _ (Target.move _ _ _ _) _).take _ = _
    rw [take_read_move hdest.wellFormed (hadm.width i) (hsound.length _ hlive _)]
    have hvalue := hsound.value i memory
    rwa [placeOf, if_neg hlive] at hvalue
  · have hkeeps : layout.Keeps (original i).destination (placeOf original source other) := by
      rw [placeOf]
      split
      · exact .inr ⟨hadm.destination other, hadm.disjoint _ _ hne⟩
      next hother =>
        exact (hsound.operand _ hother).imp_right fun hop => ⟨hop, hclear _ hne hop⟩
    rw [run_append, run_singleton]
    exact hkeeps.read_move hdest _ _
  · rw [run_append, run_singleton] at hword
    by_contra hnot
    exact hword (move_of_notMem fun hmem => hnot (.inl ⟨i, hmem⟩))

end Finish

section Swap

variable {source : Fin count → Location} {emitted : List Step} {i : Fin count}

def swappedSource (original : Fin count → MoveOperands) (source : Fin count → Location)
    (index other : Fin count) : Location :=
  if other = index ∨ source other = .noLocation then
    .noLocation
  else
    rename (source index) (original index).destination (source other)

structure CanSwap (layout : Layout) (original : Fin count → MoveOperands)
    (source : Fin count → Location) (index : Fin count) : Prop where
  onCycle : OnCycle original index
  operand : layout.Operand (source index)
  ne : source index ≠ (original index).destination
  -- No source of 64 bits is in the destination of a move of 32 bits.
  narrow : ∀ other, layout.Operand (source other) →
    (source other).overlapsWith (original index).destination = true →
      (original other).is64BitMove = true → (original index).is64BitMove = true
  clean : ∀ other, source other = .noLocation →
    (source index).overlapsWith (original other).destination = false
  reached : ∃ other, OnCycle original other ∧ source other ≠ .noLocation ∧
    (source index).overlapsWith (original other).destination = true

variable {other : Fin count}

theorem swappedSource_of_ne (hne : other ≠ i) (hlive : source other ≠ .noLocation) :
    swappedSource original source i other =
      rename (source i) (original i).destination (source other) := by
  rw [swappedSource, if_neg (not_or.mpr ⟨hne, hlive⟩)]

theorem swappedSource_ne_noLocation (hlive : swappedSource original source i other ≠ .noLocation) :
    other ≠ i ∧ source other ≠ .noLocation := by
  rw [swappedSource] at hlive
  split at hlive
  · exact absurd rfl hlive
  next hnot => exact not_or.mp hnot

/-- A source has enough words for its move. -/
theorem Sound.length_words (hsound : Sound layout constants original source emitted)
    (hother : layout.Operand (source other)) :
    (original other).width ≤ ((source other).words layout.widths).length := by
  have hlen := hsound.length _ hother.ne_noLocation fun _ => 0
  rwa [read_of_not_constant hother.wellFormed.isConstant, length_map] at hlen

variable (hadm : Admissible layout constants original)
  (hsound : Sound layout constants original source emitted)

include hadm

theorem Admissible.width_of_hasHalves (hhalves : (original i).destination.hasHalves) :
    (original i).width = 2 :=
  MoveOperands.width_of_wide (hadm.double _ hhalves)

include hsound

/-- A source of 64 bits that overlaps with a destination of 64 bits is equal to it. -/
theorem Sound.eq_of_wide (hother : layout.Operand (source other))
    (hwide : (original i).is64BitMove) (hwideOther : (original other).is64BitMove)
    (hover : (source other).overlapsWith (original i).destination) :
    source other = (original i).destination := by
  have hlen := hsound.length_words hother
  have hlen' := hadm.width i
  rw [MoveOperands.width_of_wide hwideOther] at hlen
  rw [MoveOperands.width_of_wide hwide] at hlen'
  exact eq_of_overlapsWith_of_length hother (hadm.destination i) hover hlen hlen'

/-- A source that overlaps with the destination of its own move is equal to it. -/
theorem Sound.eq_of_overlapsWith (hindex : layout.Operand (source i))
    (hover : (source i).overlapsWith (original i).destination) :
    source i = (original i).destination := by
  cases hwide : (original i).is64BitMove with
  | true => exact hsound.eq_of_wide hadm hindex hwide hwide hover
  | false =>
    refine eq_of_overlapsWith_of_not_hasHalves hover ?_ ?_
    · exact eq_false_iff.mpr fun hhalves =>
        eq_false_iff.mp hwide (hsound.double _ hindex hhalves)
    · exact eq_false_iff.mpr fun hhalves => eq_false_iff.mp hwide (hadm.double _ hhalves)

variable (hswap : CanSwap layout original source i)

include hswap

theorem CanSwap.apart : (source i).overlapsWith (original i).destination = false :=
  eq_false_iff.mpr fun hover => hswap.ne (hsound.eq_of_overlapsWith hadm hswap.operand hover)

theorem CanSwap.renamed (hother : layout.Operand (source other)) :
    Renamed (source i) (original i).destination (original i).width (original other).width
      (source other) (rename (source i) (original i).destination (source other)) := by
  refine renamed_rename hswap.operand (hadm.destination i) (fun hover => ?_) (fun hover => ?_)
  · rw [overlapsWith_comm] at hover
    obtain ⟨heq, hwide⟩ := hsound.same _ _ hswap.onCycle hswap.operand hother hover
    exact ⟨heq.symm, MoveOperands.width_le_width hwide.symm.le⟩
  rcases hsound.kind with hwhole | ⟨hasHalves, hlone⟩
  · obtain ⟨heq, hwide⟩ :=
      hwhole _ _ hswap.onCycle hother hswap.operand.ne_noLocation hover
    exact .inl ⟨heq, MoveOperands.width_le_width hwide.le⟩
  have hnarrow := hswap.narrow _ hother hover
  by_cases heq : source other = (original i).destination
  · exact .inl ⟨heq, MoveOperands.width_le_width hnarrow⟩
  right
  -- The source is a half of the destination, so the move has 64 bits.
  rcases overlapsWith_iff.mp hover with hsame | ⟨hhalves, -⟩ | ⟨hhalves, hhalf⟩
  · exact absurd hsame heq
  · have hwide := hsound.double _ hother hhalves
    exact absurd (hsound.eq_of_wide hadm hother (hnarrow hwide) hwide hover) heq
  · have hwide := hadm.double i hhalves
    refine ⟨?_, ?_, hhalves⟩
    · rcases hhalf with hhalf | hhalf
      · rw [← hhalf, hasHalves_lowOf]
      · rw [← hhalf, hasHalves_highOf]
    · rw [hlone.source_halves _ ⟨hswap.onCycle, hwide, hswap.operand⟩,
        ← hlone.destination_halves _ hswap.onCycle hwide, hhalves]

omit hsound in
theorem CanSwap.rename_constant (hconst : (source other).isConstant) :
    rename (source i) (original i).destination (source other) = source other := by
  rw [rename, overlapsWith_of_not_operand (.inr hconst) hswap.operand,
    overlapsWith_of_not_operand (.inr hconst) (hadm.destination i)]
  rfl

/-- The source of another move is a constant, or an operand that is renamed. -/
theorem CanSwap.cases (hne : other ≠ i) (hlive : source other ≠ .noLocation) :
    (source other).isConstant ∧ swappedSource original source i other = source other ∨
      layout.Operand (source other) ∧ layout.Operand (swappedSource original source i other) ∧
        Renamed (source i) (original i).destination (original i).width (original other).width
          (source other) (swappedSource original source i other) := by
  rw [swappedSource_of_ne hne hlive]
  rcases hsound.operand _ hlive with hconst | hop
  · exact .inl ⟨hconst, hswap.rename_constant hadm hconst⟩
  · have hrenamed := hswap.renamed hadm hsound hop
    exact .inr ⟨hop, hrenamed.operand hswap.operand (hadm.destination i) hop, hrenamed⟩

section

variable (hother : layout.Operand (swappedSource original source i other))

include hother

/-- A move whose source is an operand after the swap had an operand before. -/
theorem CanSwap.of_operand : other ≠ i ∧ layout.Operand (source other) ∧
      Renamed (source i) (original i).destination (original i).width (original other).width
        (source other) (swappedSource original source i other) := by
  obtain ⟨hne, hlive⟩ := swappedSource_ne_noLocation hother.ne_noLocation
  rcases hswap.cases hadm hsound hne hlive with ⟨hconst, heq⟩ | ⟨hop, -, hrenamed⟩
  · rw [← heq, hother.wellFormed.isConstant] at hconst
    cases hconst
  · exact ⟨hne, hop, hrenamed⟩

theorem CanSwap.take_words :
    ((swappedSource original source i other).words layout.widths).take (original other).width =
      (((source other).words layout.widths).take (original other).width).map
        (exchange (((source i).words layout.widths).take (original i).width)
          (((original i).destination.words layout.widths).take (original i).width)) := by
  obtain ⟨-, hop, hrenamed⟩ := hswap.of_operand hadm hsound hother
  exact hrenamed.take_words hswap.operand (hadm.destination i) (hswap.apart hadm hsound)
    (hsound.length_words hswap.operand) (hadm.width i)
    hadm.width_of_hasHalves hop

/-- A location with halves is the source of a move of 64 bits after the swap as well. -/
theorem CanSwap.double (hhalves : (swappedSource original source i other).hasHalves) :
    (original other).is64BitMove = true := by
  obtain ⟨-, hop, hrenamed⟩ := hswap.of_operand hadm hsound hother
  generalize swappedSource original source i other = renamed at hrenamed hhalves
  generalize hloc : source other = loc at hrenamed
  cases hrenamed with
  | source hle =>
    have hover : (source i).overlapsWith (source other) = true := by
      rw [hloc]
      exact overlapsWith_self _
    rw [← (hsound.same _ _ hswap.onCycle hswap.operand hop hover).2]
    exact hadm.double _ hhalves
  | destination hle =>
    have hwide := hsound.double _ hswap.operand hhalves
    rcases hsound.kind with hwhole | ⟨hasHalves, hlone⟩
    · rw [(hwhole _ _ hswap.onCycle hop hswap.operand.ne_noLocation
        (hloc ▸ overlapsWith_self _)).2, hwide]
    · refine hsound.double _ hop ?_
      rw [hloc, hlone.destination_halves _ hswap.onCycle hwide,
        ← hlone.source_halves _ ⟨hswap.onCycle, hwide, hswap.operand⟩, hhalves]
  | low =>
    rw [hasHalves_lowOf] at hhalves
    cases hhalves
  | high =>
    rw [hasHalves_highOf] at hhalves
    cases hhalves
  | other _ _ => exact hsound.double _ hop (hloc ▸ hhalves)

end

/-- Sources that overlap after the swap did so before. -/
theorem CanSwap.overlapsWith_source {first second : Fin count}
    (hfirst : layout.Operand (swappedSource original source i first))
    (hsnd : layout.Operand (swappedSource original source i second))
    (hover : (swappedSource original source i first).overlapsWith
      (swappedSource original source i second)) :
    (source first).overlapsWith (source second) := by
  have hdest := hadm.destination i
  have hapart := hswap.apart hadm hsound
  have hnodup := hswap.operand.wellFormed.nodup.sublist (take_sublist (original i).width _)
  have hnodup' := hdest.wellFormed.nodup.sublist (take_sublist (original i).width _)
  have hdisj : List.Disjoint (((source i).words layout.widths).take (original i).width)
      (((original i).destination.words layout.widths).take (original i).width) :=
    fun word hword hword' => disjoint_of_not_overlapsWith hswap.operand hdest hapart
      (mem_of_mem_take hword) (mem_of_mem_take hword')
  have hlen : (((source i).words layout.widths).take (original i).width).length =
      (((original i).destination.words layout.widths).take (original i).width).length := by
    rw [length_take, length_take, min_eq_left (hsound.length_words hswap.operand),
      min_eq_left (hadm.width i)]
  obtain ⟨word, hword, hword'⟩ := exists_mem_take_of_overlapsWith hfirst hsnd hover
    (original first).width_pos (original second).width_pos
    (fun hhalves => (MoveOperands.width_of_wide (hswap.double hadm hsound hfirst hhalves)).ge)
    (fun hhalves => (MoveOperands.width_of_wide (hswap.double hadm hsound hsnd hhalves)).ge)
  rw [hswap.take_words hadm hsound hfirst] at hword
  rw [hswap.take_words hadm hsound hsnd] at hword'
  obtain ⟨before, hbefore, rfl⟩ := mem_map.mp hword
  obtain ⟨before', hbefore', heq⟩ := mem_map.mp hword'
  obtain rfl : before' = before := by
    rw [← exchange_exchange hnodup hnodup' hdisj hlen before', heq,
      exchange_exchange hnodup hnodup' hdisj hlen]
  exact (overlapsWith_iff_share (hswap.of_operand hadm hsound hfirst).2.1
    (hswap.of_operand hadm hsound hsnd).2.1).mpr
      ⟨before', mem_of_mem_take hbefore, mem_of_mem_take hbefore'⟩

theorem CanSwap.same {first second : Fin count} (hcycle : OnCycle original first)
    (hfirst : layout.Operand (swappedSource original source i first))
    (hsnd : layout.Operand (swappedSource original source i second))
    (hover : (swappedSource original source i first).overlapsWith
      (swappedSource original source i second)) :
    source first = source second ∧
      (original first).is64BitMove = (original second).is64BitMove :=
  hsound.same _ _ hcycle (hswap.of_operand hadm hsound hfirst).2.1
    (hswap.of_operand hadm hsound hsnd).2.1
    (hswap.overlapsWith_source hadm hsound hfirst hsnd hover)

/-- A source that overlaps with another destination after the swap did so before, or was renamed
to a part of the source of the swap. -/
theorem CanSwap.overlapsWith {caller : Fin count} (hne : i ≠ caller)
    (hop : layout.Operand (swappedSource original source i other))
    (hover : (swappedSource original source i other).overlapsWith (original caller).destination) :
    (source other).overlapsWith (original caller).destination ∨
      (source other).overlapsWith (original i).destination ∧
        (source i).overlapsWith (original caller).destination := by
  have hcaller := hadm.destination caller
  -- A half of the source reaches into a destination only if the source does.
  have hhalf : ∀ half, (source i).hasHalves = true →
      (source i).lowOf = half ∨ (source i).highOf = half →
      half.overlapsWith (original caller).destination = true →
      (source i).overlapsWith (original caller).destination = true := by
    intro half hhalves heq hhalf
    obtain ⟨-, -, low, high, hwords, hlow, hhigh⟩ := hswap.operand.wellFormed.words_halves hhalves
    have hhalfOperand : layout.Operand half := by
      rcases heq with rfl | rfl
      · exact hswap.operand.lowOf hhalves
      · exact hswap.operand.highOf hhalves
    obtain ⟨word, hword, hword'⟩ := (overlapsWith_iff_share hhalfOperand hcaller).mp hhalf
    refine (overlapsWith_iff_share hswap.operand hcaller).mpr ⟨word, ?_, hword'⟩
    rw [hwords]
    rcases heq with rfl | rfl
    · rw [hlow, mem_singleton] at hword
      simp [hword]
    · rw [hhigh, mem_singleton] at hword
      simp [hword]
  obtain ⟨-, -, hrenamed⟩ := hswap.of_operand hadm hsound hop
  generalize swappedSource original source i other = renamed at hrenamed hover
  generalize source other = loc at hrenamed ⊢
  cases hrenamed with
  | source =>
    rw [hadm.disjoint _ _ hne] at hover
    cases hover
  | destination => exact .inr ⟨overlapsWith_self _, hover⟩
  | low hhalves hhalves' =>
    exact .inr ⟨overlapsWith_iff.mpr (.inr (.inr ⟨hhalves', .inl rfl⟩)),
      hhalf _ hhalves (.inl rfl) hover⟩
  | high hhalves hhalves' =>
    exact .inr ⟨overlapsWith_iff.mpr (.inr (.inr ⟨hhalves', .inr rfl⟩)),
      hhalf _ hhalves (.inr rfl) hover⟩
  | other _ _ => exact .inl hover

theorem CanSwap.wholeSources (hwhole : WholeSources layout original source) :
    WholeSources layout original (swappedSource original source i) := by
  have hindex := hswap.operand.ne_noLocation
  have hhalf : ∀ first half, layout.Operand (source first) → source first = half →
      half.hasHalves = false → (original i).destination.hasHalves = true →
      half.overlapsWith (original i).destination = true → False := by
    rintro first half hfirst rfl hnarrow hhalves hover
    rw [(hwhole _ _ hswap.onCycle hfirst hindex hover).1, hhalves] at hnarrow
    cases hnarrow
  intro first second hcycle hfirst hsnd hover
  obtain ⟨hne, hlive⟩ := swappedSource_ne_noLocation hsnd
  obtain ⟨-, hop, hrenamed⟩ := hswap.of_operand hadm hsound hfirst
  generalize swappedSource original source i first = renamed at hrenamed hover ⊢
  generalize hloc : source first = loc at hrenamed
  cases hrenamed with
  | source =>
    rw [hadm.disjoint _ _ hne.symm] at hover
    cases hover
  | destination =>
    obtain ⟨heq, hwide⟩ := hwhole _ _ hcycle hswap.operand hlive hover
    refine ⟨heq, Eq.trans ?_ hwide⟩
    exact (hwhole _ _ hswap.onCycle hop hindex (hloc ▸ overlapsWith_self _)).2
  | low _ hhalves =>
    exact (hhalf _ _ hop hloc (hasHalves_lowOf _) hhalves
      (overlapsWith_iff.mpr (.inr (.inr ⟨hhalves, .inl rfl⟩)))).elim
  | high _ hhalves =>
    exact (hhalf _ _ hop hloc (hasHalves_highOf _) hhalves
      (overlapsWith_iff.mpr (.inr (.inr ⟨hhalves, .inr rfl⟩)))).elim
  | other _ _ =>
    rw [← hloc] at hover ⊢
    exact hwhole _ _ hcycle hop hlive hover

/-- A source of 64 bits was one before, and is apart from the destination of the swap. -/
theorem CanSwap.exists_wide {hasHalves : Bool}
    (hlone : LoneSources layout original source hasHalves) {first : Fin count}
    (hfirst : WideOnCycle layout original (swappedSource original source i) first) :
    ∃ before, WideOnCycle layout original source before ∧
      swappedSource original source i first = source before ∧
      (source before).overlapsWith (original i).destination = false := by
  obtain ⟨hne, hop, hrenamed⟩ := hswap.of_operand hadm hsound hfirst.operand
  have hlen := hsound.length_words hop
  rw [MoveOperands.width_of_wide hfirst.wide] at hlen hrenamed
  have hdest := hadm.destination i
  have hbefore : WideOnCycle layout original source first := ⟨hfirst.onCycle, hfirst.wide, hop⟩
  generalize swappedSource original source i first = renamed at hrenamed ⊢
  generalize hloc : source first = loc at hrenamed hlen
  cases hrenamed with
  | source => exact absurd hloc (hlone.alone _ _ hne hbefore hswap.onCycle)
  | destination hle =>
    have hwide : (original i).is64BitMove = true := by
      by_contra hnarrow
      rw [MoveOperands.width, if_neg hnarrow] at hle
      omega
    exact ⟨i, ⟨hswap.onCycle, hwide, hswap.operand⟩, rfl, hswap.apart hadm hsound⟩
  | low _ hhalves =>
    obtain ⟨-, -, low, high, -, hlow, -⟩ := hdest.wellFormed.words_halves hhalves
    rw [hlow] at hlen
    simp at hlen
  | high _ hhalves =>
    obtain ⟨-, -, low, high, -, -, hhigh⟩ := hdest.wellFormed.words_halves hhalves
    rw [hhigh] at hlen
    simp at hlen
  | other _ hsnd => exact ⟨first, hbefore, hloc.symm, hloc ▸ hsnd⟩

theorem CanSwap.loneSources {hasHalves : Bool}
    (hlone : LoneSources layout original source hasHalves) :
    LoneSources layout original (swappedSource original source i) hasHalves := by
  refine ⟨fun first second hne hfirst hcycle heq => ?_, hlone.destination_halves,
    fun first hfirst => ?_, fun first second hfirst hsnd => ?_, fun first hfirst => ?_⟩
  · refine hlone.alone _ _ hne ⟨hfirst.onCycle, hfirst.wide,
      (hswap.of_operand hadm hsound hfirst.operand).2.1⟩ hcycle ?_
    refine (hswap.same hadm hsound hfirst.onCycle hfirst.operand (heq ▸ hfirst.operand) ?_).1
    rw [← heq]
    exact overlapsWith_self _
  · obtain ⟨before, hbefore, heq, -⟩ := hswap.exists_wide hadm hsound hlone hfirst
    rw [heq]
    exact hlone.source_halves _ hbefore
  · obtain ⟨before, hbefore, heq, hapart⟩ := hswap.exists_wide hadm hsound hlone hfirst
    rw [heq]
    by_cases hne : second = i
    · rw [hne]
      exact hapart
    by_cases hlive : source second = .noLocation
    · exact hlone.finished _ _ hbefore hlive
    · rcases hswap.cases hadm hsound hne hlive with ⟨-, hsame⟩ | ⟨-, hop', -⟩
      · exact absurd (hsame.symm.trans hsnd) hlive
      · exact absurd hsnd hop'.ne_noLocation
  · obtain ⟨before, hbefore, heq, -⟩ := hswap.exists_wide hadm hsound hlone hfirst
    rw [heq]
    exact hlone.initial _ hbefore

/-- The value of a move is where the move expects it after the swap. -/
theorem CanSwap.value (other : Fin count) (memory : Memory) : (read ⟨layout.widths, constants⟩
        (swap ⟨layout.widths, constants⟩ (source i) (original i).destination (original i).width
          memory) (placeOf original (swappedSource original source i) other)).take
            (original other).width =
      (read ⟨layout.widths, constants⟩ memory (placeOf original source other)).take
        (original other).width := by
  have hdest := hadm.destination i
  have hread := fun {loc renamed : Location} {width' : ℕ}
      (hrenamed : Renamed (source i) (original i).destination (original i).width width' loc renamed)
      (hloc : layout.Operand loc) =>
    hrenamed.read_swap hswap.operand hdest (hswap.apart hadm hsound)
      (hsound.length_words hswap.operand) (hadm.width i)
      hadm.width_of_hasHalves hloc constants memory
  by_cases heq : other = i
  · subst heq
    have hswapped : swappedSource original source other other = .noLocation := if_pos (.inl rfl)
    rw [placeOf, placeOf, if_neg hswap.operand.ne_noLocation, if_pos hswapped]
    exact hread (.source le_rfl) hswap.operand
  by_cases hdone : source other = .noLocation
  · have hswapped : swappedSource original source i other = .noLocation := if_pos (.inr hdone)
    rw [placeOf, placeOf, if_pos hdone, if_pos hswapped]
    refine hread (.other ?_ (hadm.disjoint _ _ heq)) (hadm.destination other)
    rw [overlapsWith_comm]
    exact hswap.clean _ hdone
  rcases hswap.cases hadm hsound heq hdone with ⟨hconst, hsame⟩ | ⟨hop, hop', hrenamed⟩
  · rw [placeOf, placeOf, hsame, if_neg hdone]
    generalize source other = loc at hconst
    cases loc <;> first | rfl | cases hconst
  · rw [placeOf, placeOf, if_neg hdone, if_neg hop'.ne_noLocation]
    exact hread hrenamed hop

/-- The words of a swap are those that may change. -/
theorem CanSwap.mayChange {word : Word} (hword : word ∈ (source i).words layout.widths ∨
      word ∈ (original i).destination.words layout.widths) : MayChange layout original word := by
  rcases hword with hword | hword
  · obtain ⟨other, hcycle, hlive, hover⟩ := hswap.reached
    by_cases hwide : (original i).is64BitMove = true
    · rcases hsound.kind with hwhole | ⟨hasHalves, hlone⟩
      · rw [(hwhole _ _ hcycle hswap.operand hlive hover).1] at hword
        exact .inl ⟨other, hword⟩
      · obtain ⟨first, hfirst, hwideFirst, heq⟩ :=
          hlone.initial _ ⟨hswap.onCycle, hwide, hswap.operand⟩
        have hop := hswap.operand
        rw [heq] at hword hop hover
        exact .inr ⟨first, hfirst, hwideFirst, hop, hword, other, hcycle, hover⟩
    · have hhalves : (source i).hasHalves = false :=
        eq_false_iff.mpr fun hhalves => hwide (hsound.double _ hswap.operand hhalves)
      exact .inl ⟨other, subset_of_overlapsWith hswap.operand (hadm.destination other) hover
        hhalves hword⟩
  · exact .inl ⟨i, hword⟩

/-- A swap performs its move and renames the sources of the others. -/
theorem Sound.swap : Sound layout constants original (swappedSource original source i)
    (emitted ++ [.swap (source i) (original i).destination (original i).width]) := by
  refine ⟨fun other hlive => ?_, fun other hlive memory => ?_,
    fun other hother => hswap.double hadm hsound hother,
    fun first second hcycle hfirst hsnd hover => ?_, fun first second hfirst hsnd hover => ?_, ?_,
    fun other memory => ?_, fun memory word hword => ?_⟩
  · obtain ⟨hne, hsrc⟩ := swappedSource_ne_noLocation hlive
    rcases hswap.cases hadm hsound hne hsrc with ⟨hconst, heq⟩ | ⟨-, hop, -⟩
    · rw [heq]
      exact .inl hconst
    · exact .inr hop
  · obtain ⟨hne, hsrc⟩ := swappedSource_ne_noLocation hlive
    rcases hswap.cases hadm hsound hne hsrc with ⟨-, heq⟩ | ⟨hop, hop', -⟩
    · rw [heq]
      exact hsound.length _ hsrc memory
    · have hlen := congrArg List.length (hswap.take_words hadm hsound hop')
      rw [length_map, length_take, length_take, min_eq_left (hsound.length_words hop)] at hlen
      rw [read_of_not_constant hop'.wellFormed.isConstant, length_map]
      exact min_eq_left_iff.mp hlen
  · obtain ⟨hsame, hwide⟩ := hswap.same hadm hsound hcycle hfirst hsnd hover
    obtain ⟨hne, hlive⟩ := swappedSource_ne_noLocation hfirst.ne_noLocation
    obtain ⟨hne', hlive'⟩ := swappedSource_ne_noLocation hsnd.ne_noLocation
    rw [swappedSource_of_ne hne hlive, swappedSource_of_ne hne' hlive', hsame]
    exact ⟨rfl, hwide⟩
  · obtain ⟨hne, hlive⟩ := swappedSource_ne_noLocation hfirst
    have hop := (hswap.of_operand hadm hsound hsnd).2.1
    rcases hswap.overlapsWith hadm hsound hne.symm hsnd hover with hbefore | ⟨hblocks, hreaches⟩
    · exact hsound.waits _ _ hlive hop hbefore
    · exact (hsound.waits _ _ hlive hswap.operand hreaches).trans
        (hsound.waits _ _ hswap.operand.ne_noLocation hop hblocks)
  · rcases hsound.kind with hwhole | ⟨hasHalves, hlone⟩
    · exact .inl (hswap.wholeSources hadm hsound hwhole)
    · exact .inr ⟨hasHalves, hswap.loneSources hadm hsound hlone⟩
  · rw [run_append, run_singleton]
    change (Target.read _ (Target.swap _ _ _ _ _) _).take _ = _
    rw [hswap.value hadm hsound]
    exact hsound.value other memory
  · rw [run_append, run_singleton] at hword
    by_cases hmem : word ∈ (source i).words layout.widths ∨
        word ∈ (original i).destination.words layout.widths
    · exact hswap.mayChange hadm hsound hmem
    · obtain ⟨hfirst, hsnd⟩ := not_or.mp hmem
      apply hsound.changed memory word
      intro heq
      apply hword
      change run _ emitted memory (exchange _ _ word) = _
      rw [exchange_of_notMem (fun hmem => hfirst (mem_of_mem_take hmem))
        (fun hmem => hsnd (mem_of_mem_take hmem)), heq]

end Swap

end Sound

end NougatArt.Moves
