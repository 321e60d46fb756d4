import NougatArt.CodeMotion.LicmRun

/-!
# Moving one instruction out of a loop

The graph stays well formed when an instruction moves to the preheader, and both
graphs behave the same. The executions are compared block by block: the memory
and the available values agree, and while control is in the loop the moved
instruction would yield again the value it has.

An exception of the moved instruction is raised in the preheader already. The
other graph then goes on to the header, where the instructions before the moved
one do nothing that is observed.
-/

namespace NougatArt.CodeMotion

open List Function

variable {blocks insns : ℕ} {Exception : Type} {frame : Frame blocks insns Exception}
  {b : Fin blocks} {executed : List (Fin insns)}

/-! ## Loops with a preheader -/

namespace Frame.WellFormedLoop

variable {info : HLoopInformation blocks} (h : frame.WellFormedLoop info)

include h

def toNaturalLoop : NaturalLoop frame.flow where
  header := info.header
  body := info.body
  header_mem := h.header_mem
  entry_notMem := h.entry_notMem
  header_reachable := h.reachable info.header h.header_mem
  entered_at_header := h.entered_at_header

theorem preHeader_mem_of_trace {trace : List (Fin blocks)} (htrace : frame.flow.Trace trace)
    (hmeets : ∃ b ∈ trace, b ∈ info.body) : info.preHeader ∈ trace := by
  induction htrace with
  | entry =>
    obtain ⟨b, hblock, hbody⟩ := hmeets
    obtain rfl := mem_singleton.mp hblock
    exact absurd hbody h.entry_notMem
  | @step src t past htrace hedge ih =>
    by_cases hpast : ∃ b ∈ src :: past, b ∈ info.body
    · exact mem_cons_of_mem _ (ih hpast)
    · push Not at hpast
      obtain ⟨b, hblock, hbody⟩ := hmeets
      obtain rfl : b = t := (mem_cons.mp hblock).resolve_right fun hmem => hpast _ hmem hbody
      have hsrc := hpast _ mem_cons_self
      have hheader : b = info.header := by
        by_contra hne
        exact hsrc (h.entered_at_header _ _ hedge hbody hne)
      subst hheader
      rw [h.entered_from_preHeader _ hsrc hedge]
      exact mem_cons_of_mem _ mem_cons_self

theorem preHeader_dominates (hblock : b ∈ info.body) : frame.flow.Dominates info.preHeader b :=
  fun _ htrace => h.preHeader_mem_of_trace htrace ⟨b, mem_cons_self, hblock⟩

theorem preHeader_ne (hblock : b ∈ info.body) : info.preHeader ≠ b := by
  rintro rfl
  exact h.preHeader_notMem hblock

theorem preHeader_reachable : frame.flow.Reachable info.preHeader := by
  obtain ⟨past, htrace⟩ := h.reachable info.header h.header_mem
  obtain ⟨later, earlier, heq⟩ := append_of_mem (h.preHeader_dominates h.header_mem _ htrace)
  rw [heq] at htrace
  exact ⟨earlier, htrace.drop_latest⟩

theorem not_dominates_preHeader (hblock : b ∈ info.body) :
    ¬ frame.flow.Dominates b info.preHeader := by
  intro hdom
  have heq := hdom.antisymm h.preHeader_reachable (h.preHeader_dominates hblock)
  exact h.preHeader_ne hblock heq.symm

/-- An iteration can follow every execution of the preheader. -/
theorem trace_of_iteration {path past : List (Fin blocks)} (hpath : h.toNaturalLoop.Iteration path)
    (htrace : frame.flow.Trace (info.preHeader :: past)) :
    frame.flow.Trace (path ++ info.preHeader :: past) := by
  induction hpath with
  | start => exact .step htrace (by rw [h.preHeader_succs]; exact mem_singleton_self _)
  | step _ hedge _ _ ih => exact .step ih hedge

/-- What dominates a block of the loop from outside dominates the preheader. -/
theorem dominates_preHeader {definition : Fin blocks} (hblock : b ∈ info.body)
    (hdom : frame.flow.Dominates definition b) (hdefinition : definition ∉ info.body) :
    frame.flow.Dominates definition info.preHeader := by
  intro past htrace
  obtain ⟨before, hreach⟩ := h.reachable _ hblock
  obtain ⟨path, hpath⟩ :=
    @NaturalLoop.exists_iteration_of_trace _ _ h.toNaturalLoop _ _ hreach hblock
  have hmem := hdom _ (h.trace_of_iteration hpath htrace)
  rcases mem_append.mp (show definition ∈ (b :: path) ++ info.preHeader :: past from hmem)
    with hinside | hout
  · exact absurd (hpath.mem_body _ hinside) hdefinition
  · exact hout

theorem source_of_edge {src t : Fin blocks} (hedge : t ∈ frame.flow.succs src)
    (htarget : t ∈ info.body) : src ∈ info.body ∨ src = info.preHeader ∧ t = info.header := by
  by_cases hheader : t = info.header
  · by_cases hsrc : src ∈ info.body
    · exact .inl hsrc
    · exact .inr ⟨h.entered_from_preHeader _ hsrc (hheader ▸ hedge), hheader⟩
  · exact .inl (h.entered_at_header _ _ hedge htarget hheader)

end Frame.WellFormedLoop

/-! ## The moved instruction -/

/-- An instruction of a loop that can be moved to the preheader. -/
structure Frame.Hoistable (frame : Frame blocks insns Exception)
    (placement : Placement blocks insns) (info : HLoopInformation blocks) (insn : Fin insns)
    (block : Fin blocks) (before after : List (Fin insns)) : Prop where
  loop : frame.WellFormedLoop info
  placed : frame.WellPlaced placement
  normalSuccs_subset : ∀ block, frame.normalSuccs block ⊆ frame.flow.succs block
  handler_dominated : ∀ block exception target, frame.handler block exception = some target →
    ∀ dominator, frame.flow.Dominates dominator target → dominator ≠ target →
      frame.flow.Dominates dominator block ∧ dominator ≠ block
  -- An exception that is caught in the loop was raised in the loop.
  handler_inside : ∀ block exception target, frame.handler block exception = some target →
    target ∈ info.body → block ∈ info.body
  mem_body : block ∈ info.body
  instructions_eq : placement.instructions block = before ++ insn :: after
  doesAnyWrite : (frame.op insn).sideEffects.doesAnyWrite = false
  independent : ∀ inner ∈ info.body, ∀ other ∈ frame.code placement inner,
    ∀ bit : MemoryBit, bit.1 ∈ (frame.op insn).sideEffects.dependsOn →
      bit.1 ∉ (frame.op other).sideEffects.changes
  inputs_outside : ∀ input ∈ frame.inputs insn, placement.getBlock input ∉ info.body
  environment_outside : ∀ input, some input ∈ placement.environment insn →
    placement.getBlock input ∉ info.body ∨ input ∈ frame.phis info.header
  first : (frame.op insn).canThrow = true → block = info.header ∧
    ∀ other ∈ before, (frame.op other).canThrow = false ∧
      (frame.op other).sideEffects.doesAnyWrite = false

namespace Frame.WellPlaced

variable {insn : Fin insns}
variable {placement : Placement blocks insns} (h : frame.WellPlaced placement)

include h

theorem ne_last_of_available
    (havail : frame.AvailableAt placement b (placement.instructions b) insn)
    (other : Fin blocks) : insn ≠ frame.lastInstruction other := by
  rintro rfl
  rcases havail with hphi | hexecuted | ⟨definition, hphi | hmem, -, -⟩
  · exact h.last_notPhi _ _ hphi
  · exact h.last_notMem _ _ hexecuted
  · exact h.last_notPhi _ _ hphi
  · exact h.last_notMem _ _ hmem

/-- A value is available in the block that defines it, or it comes from a strict
dominator. -/
theorem getBlock_of_available (hsubset : executed ⊆ placement.instructions b)
    (havail : frame.AvailableAt placement b executed insn) :
    placement.getBlock insn = b ∨ frame.flow.Dominates (placement.getBlock insn) b ∧
        placement.getBlock insn ≠ b := by
  rcases havail with hphi | hexecuted | ⟨definition, hdefined, hdom, hne⟩
  · exact .inl (h.getBlock_of_phi hphi)
  · exact .inl (h.getBlock_of_mem (hsubset hexecuted))
  · right
    rcases hdefined with hphi | hmem
    · rw [h.getBlock_of_phi hphi]
      exact ⟨hdom, hne⟩
    · rw [h.getBlock_of_mem hmem]
      exact ⟨hdom, hne⟩

end Frame.WellPlaced

namespace Frame.Hoistable

variable {placement : Placement blocks insns} {info : HLoopInformation blocks}
  {insn input v moved item : Fin insns} {other place : Fin blocks}
  {before after first second front back : List (Fin insns)}
  (h : frame.Hoistable placement info insn b before after)

include h

theorem mem : insn ∈ placement.instructions b := by
  rw [h.instructions_eq]
  exact mem_append_right _ mem_cons_self

theorem getBlock_eq : placement.getBlock insn = b := h.placed.getBlock_of_mem h.mem

theorem block_ne_preHeader : b ≠ info.preHeader := (h.loop.preHeader_ne h.mem_body).symm

theorem notMem_of_ne (hne : other ≠ b) : insn ∉ placement.instructions other := by
  intro hmem
  exact hne ((h.placed.getBlock_of_mem hmem).symm.trans h.getBlock_eq)

theorem notMem_before : insn ∉ before := by
  have hnodup := h.placed.nodup b
  rw [h.instructions_eq] at hnodup
  exact fun hmem => (nodup_append.mp hnodup).2.2 insn hmem insn mem_cons_self rfl

theorem notMem_after : insn ∉ after := by
  have hnodup := h.placed.nodup b
  rw [h.instructions_eq] at hnodup
  exact (nodup_cons.mp (nodup_append.mp hnodup).2.1).1

theorem input_ne (hinput : input ∈ frame.inputs insn) : input ≠ insn := by
  rintro rfl
  exact h.inputs_outside _ hinput (h.getBlock_eq ▸ h.mem_body)

/-! ### The instructions after the move -/

theorem hoist_instructions_block :
    (frame.hoist placement info insn).instructions b = before ++ after := by
  show (if b = info.preHeader then _ else _) = _
  rw [if_neg h.block_ne_preHeader, h.instructions_eq, erase_append_right _ h.notMem_before,
    erase_cons_head]

omit h in
theorem hoist_instructions_preHeader :
    (frame.hoist placement info insn).instructions info.preHeader =
      placement.instructions info.preHeader ++ [insn] :=
  if_pos rfl

theorem hoist_instructions_of_ne (hblock : other ≠ b) (hpreHeader : other ≠ info.preHeader) :
    (frame.hoist placement info insn).instructions other = placement.instructions other := by
  show (if other = info.preHeader then _ else _) = _
  rw [if_neg hpreHeader, erase_of_not_mem (h.notMem_of_ne hblock)]

omit h in
theorem hoist_environment_of_ne {other : Fin insns} (hne : other ≠ insn) :
    (frame.hoist placement info insn).environment other = placement.environment other :=
  update_of_ne hne _ _

/-- The other instructions stay where they are. -/
theorem mem_hoist_iff {other : Fin insns} (hne : other ≠ insn) (place : Fin blocks) :
    other ∈ (frame.hoist placement info insn).instructions place ↔
      other ∈ placement.instructions place := by
  by_cases hblock : place = b
  · subst hblock
    rw [h.hoist_instructions_block, h.instructions_eq]
    simp [hne]
  · by_cases hpreHeader : place = info.preHeader
    · subst hpreHeader
      rw [hoist_instructions_preHeader]
      simp [hne]
    · rw [h.hoist_instructions_of_ne hblock hpreHeader]

/-! ### Values that stay available -/

/-- A value that is available in a block and defined outside of the loop is
available at the end of the preheader. -/
theorem available_preHeader (havail : frame.AvailableAt placement b before input)
    (hout : placement.getBlock input ∉ info.body) :
    frame.AvailableAt placement info.preHeader (placement.instructions info.preHeader) input := by
  rcases havail with hphi | hexecuted | ⟨definition, hdefined, hdom, -⟩
  · exact absurd (h.placed.getBlock_of_phi hphi ▸ h.mem_body) hout
  · have hmem : input ∈ placement.instructions b := by
      rw [h.instructions_eq]
      exact mem_append_left _ hexecuted
    exact absurd (h.placed.getBlock_of_mem hmem ▸ h.mem_body) hout
  · have hdefinition : definition ∉ info.body := by
      rcases hdefined with hphi | hmem
      · exact h.placed.getBlock_of_phi hphi ▸ hout
      · exact h.placed.getBlock_of_mem hmem ▸ hout
    by_cases heq : definition = info.preHeader
    · subst heq
      exact hdefined.elim .inl fun hmem => .inr (.inl hmem)
    · exact .inr (.inr ⟨definition, hdefined,
        h.loop.dominates_preHeader h.mem_body hdom hdefinition, heq⟩)

theorem split_eq : placement.instructions b ++ [frame.lastInstruction b] =
    before ++ insn :: (after ++ [frame.lastInstruction b]) := by
  rw [h.instructions_eq, append_assoc, cons_append]

theorem input_available_preHeader (hinput : input ∈ frame.inputs insn) :
    frame.AvailableAt placement info.preHeader (placement.instructions info.preHeader) input :=
  h.available_preHeader (h.placed.inputs_available _ _ _ _ h.split_eq _ hinput)
    (h.inputs_outside _ hinput)

/-- The moved instruction is available after the move where it was before. -/
theorem hoist_available {executed' : List (Fin insns)}
    (hexecuted : ∀ other ∈ executed, other ≠ insn → other ∈ executed')
    (hplace : insn ∈ executed → place = b) (havail : frame.AvailableAt placement place executed v) :
    frame.AvailableAt (frame.hoist placement info insn) place executed' v := by
  by_cases hvalue : v = insn
  · subst hvalue
    -- The preheader strictly dominates the block the instruction was in.
    have hmem : v ∈ (frame.hoist placement info v).instructions info.preHeader := by
      rw [hoist_instructions_preHeader]
      exact mem_append_right _ (mem_singleton_self _)
    rcases havail with hphi | hmem' | ⟨definition, hphi | hmem', hdom, -⟩
    · exact absurd h.mem (h.placed.phi_notMem hphi b)
    · obtain rfl := hplace hmem'
      exact .inr (.inr ⟨info.preHeader, .inr hmem, h.loop.preHeader_dominates h.mem_body,
        h.loop.preHeader_ne h.mem_body⟩)
    · exact absurd h.mem (h.placed.phi_notMem hphi b)
    · have hdefinition := (h.placed.getBlock_of_mem hmem').symm.trans h.getBlock_eq
      subst hdefinition
      refine .inr (.inr ⟨info.preHeader, .inr hmem,
        (h.loop.preHeader_dominates h.mem_body).trans hdom, ?_⟩)
      rintro rfl
      exact h.loop.not_dominates_preHeader h.mem_body hdom
  · rcases havail with hphi | hmem | ⟨definition, hdefined, hdom, hne⟩
    · exact .inl hphi
    · exact .inr (.inl (hexecuted _ hmem hvalue))
    · refine .inr (.inr ⟨definition, ?_, hdom, hne⟩)
      exact hdefined.imp_right (h.mem_hoist_iff hvalue definition).mpr

/-! ### The moved graph is well formed -/

omit h in
/-- Where a list without an element is split, the list with it is split as well. -/
theorem exists_split_insert (hsplit : first ++ second = front ++ item :: back) :
    ∃ front' back', first ++ moved :: second = front' ++ item :: back' ∧
      ∀ other ∈ front', other ≠ moved → other ∈ front := by
  rcases append_eq_append_iff.mp hsplit with ⟨middle, rfl, hsnd⟩ | ⟨middle, rfl, hback⟩
  · refine ⟨first ++ moved :: middle, back, by rw [hsnd]; simp, ?_⟩
    intro other hother hne
    simpa [hne] using hother
  · cases middle with
    | nil =>
      rw [nil_append] at hback
      refine ⟨front ++ [moved], back, by rw [← hback]; simp, ?_⟩
      intro other hother hne
      simpa [hne] using hother
    | cons head middle =>
      cases hback
      exact ⟨front, middle ++ moved :: second, by simp, fun other hother _ => hother⟩

omit h in
/-- Where a list is split, the list without another element is split as well. -/
theorem exists_split_remove
    (hne : item ≠ moved) (hsplit : first ++ moved :: second = front ++ item :: back) :
    ∃ front' back', first ++ second = front' ++ item :: back' ∧
      ∀ other ∈ front', other ∈ front := by
  rcases append_eq_append_iff.mp hsplit with ⟨middle, rfl, hsnd⟩ | ⟨middle, rfl, hback⟩
  · cases middle with
    | nil => exact absurd (cons.inj hsnd).1.symm hne
    | cons head middle =>
      cases hsnd
      refine ⟨first ++ middle, back, by simp, ?_⟩
      intro other hother
      rcases mem_append.mp hother with hfirst | hmiddle
      · exact mem_append_left _ hfirst
      · exact mem_append_right _ (mem_cons_of_mem _ hmiddle)
  · cases middle with
    | nil => exact absurd (cons.inj hback).1 hne
    | cons head middle =>
      cases hback
      exact ⟨front, middle ++ second, by simp, fun other hother => hother⟩

/-- The code of a block before the move, up to an instruction that is not moved. -/
theorem exists_split
    (hne : item ≠ insn) (hsplit : (frame.hoist placement info insn).instructions place ++
      [frame.lastInstruction place] = front ++ item :: back) :
    ∃ front' back', placement.instructions place ++ [frame.lastInstruction place] =
        front' ++ item :: back' ∧
      (∀ other ∈ front', other ≠ insn → other ∈ front) ∧ (insn ∈ front' → place = b) := by
  by_cases hblock : place = b
  · subst hblock
    rw [h.hoist_instructions_block, append_assoc] at hsplit
    obtain ⟨front', back', hsplit', hfront⟩ := @exists_split_insert _ _ _ _ _ _ _ hsplit
    exact ⟨front', back', h.split_eq.trans hsplit', hfront, fun _ => rfl⟩
  have hnotMem : ∀ front' back', placement.instructions place ++ [frame.lastInstruction place] =
      front' ++ item :: back' → insn ∈ front' → place = b := by
    intro front' back' hsplit' hmem
    have hcode : insn ∈ placement.instructions place ++ [frame.lastInstruction place] := by
      rw [hsplit']
      exact mem_append_left _ hmem
    rcases mem_append.mp hcode with hinsn | hlast
    · exact absurd hinsn (h.notMem_of_ne hblock)
    · exact absurd (mem_singleton.mp hlast ▸ h.mem) (h.placed.last_notMem _ _)
  by_cases hpreHeader : place = info.preHeader
  · subst hpreHeader
    rw [hoist_instructions_preHeader, append_assoc, singleton_append] at hsplit
    obtain ⟨front', back', hsplit', hfront⟩ := exists_split_remove hne hsplit
    exact ⟨front', back', hsplit', fun other hother _ => hfront _ hother, hnotMem _ _ hsplit'⟩
  · rw [h.hoist_instructions_of_ne hblock hpreHeader] at hsplit
    exact ⟨front, back, hsplit, fun other hother _ => hother, hnotMem _ _ hsplit⟩

theorem mem_hoist_self (hmem : insn ∈ (frame.hoist placement info insn).instructions place) :
    place = info.preHeader := by
  by_contra hpreHeader
  by_cases hblock : place = b
  · subst hblock
    rw [h.hoist_instructions_block] at hmem
    exact (mem_append.mp hmem).elim h.notMem_before h.notMem_after
  · rw [h.hoist_instructions_of_ne hblock hpreHeader] at hmem
    exact h.notMem_of_ne hblock hmem

/-- The moved instruction is the one at the end of the preheader. -/
theorem split_of_moved (hsplit : (frame.hoist placement info insn).instructions place ++
      [frame.lastInstruction place] = front ++ insn :: back) :
    place = info.preHeader ∧ front = placement.instructions info.preHeader := by
  have hmem : insn ∈ (frame.hoist placement info insn).instructions place ++
      [frame.lastInstruction place] := by
    rw [hsplit]
    exact mem_append_right _ mem_cons_self
  have hlast : insn ≠ frame.lastInstruction place := by
    rintro rfl
    exact h.placed.last_notMem _ _ h.mem
  obtain rfl := h.mem_hoist_self
    ((mem_append.mp hmem).resolve_right fun heq => hlast (mem_singleton.mp heq))
  refine ⟨rfl, ?_⟩
  rw [hoist_instructions_preHeader, append_assoc, singleton_append] at hsplit
  have hnotMem := h.notMem_of_ne h.block_ne_preHeader.symm
  rcases append_eq_append_iff.mp hsplit with ⟨middle, rfl, hrest⟩ | ⟨middle, heq, hback⟩
  · cases middle with
    | nil => exact append_nil _
    | cons head middle =>
      obtain ⟨-, hrest⟩ := cons.inj hrest
      cases middle with
      | nil => exact absurd (cons.inj hrest).1.symm hlast
      | cons head middle => simp at hrest
  · cases middle with
    | nil => rw [heq, append_nil]
    | cons head middle =>
      obtain ⟨rfl, -⟩ := cons.inj hback
      rw [heq] at hnotMem
      exact absurd (mem_append_right _ mem_cons_self) hnotMem

omit h in
theorem hoist_getBlock_of_ne {other : Fin insns} (hne : other ≠ insn) :
    (frame.hoist placement info insn).getBlock other = placement.getBlock other :=
  update_of_ne hne _ _

theorem ne_of_phi {phi : Fin insns} (hphi : phi ∈ frame.phis place) : phi ≠ insn := by
  rintro rfl
  exact h.placed.phi_notMem hphi _ h.mem

theorem last_ne (place : Fin blocks) : frame.lastInstruction place ≠ insn := by
  intro heq
  exact h.placed.last_notMem place b (heq ▸ h.mem)

/-- What the environment of the moved instruction holds is available at the end of
the preheader. -/
theorem environment_available_preHeader
    (hinput : some input ∈ frame.updateLoopPhisIn info (placement.environment insn)) :
    frame.AvailableAt placement info.preHeader (placement.instructions info.preHeader) input := by
  obtain ⟨register, hregister, heq⟩ := mem_map.mp hinput
  obtain ⟨old, rfl, hnew⟩ := Option.map_eq_some_iff.mp heq
  by_cases hphi : old ∈ frame.phis info.header
  · rw [if_pos hphi] at hnew
    subst hnew
    refine h.placed.phiInput_available _ info.header ?_ old hphi
    rw [h.loop.preHeader_normalSuccs]
    exact mem_singleton_self _
  · rw [if_neg hphi] at hnew
    subst hnew
    exact h.available_preHeader (h.placed.environment_available _ _ _ _ h.split_eq old hregister)
      ((h.environment_outside old hregister).resolve_right hphi)

theorem hoist_available_preHeader (havail : frame.AvailableAt placement info.preHeader
      (placement.instructions info.preHeader) v) :
    frame.AvailableAt (frame.hoist placement info insn) info.preHeader
      (placement.instructions info.preHeader) v :=
  h.hoist_available (fun _ hother _ => hother)
    (fun hmem => absurd hmem (h.notMem_of_ne h.block_ne_preHeader.symm)) havail

theorem hoist_wellPlaced : frame.WellPlaced (frame.hoist placement info insn) where
  getBlock_of_mem {other place} hmem := by
    by_cases hother : other = insn
    · subst hother
      rw [h.mem_hoist_self hmem]
      exact update_self _ _ _
    · rw [hoist_getBlock_of_ne hother]
      exact h.placed.getBlock_of_mem ((h.mem_hoist_iff hother place).mp hmem)
  getBlock_of_phi {phi place} hphi := by
    rw [hoist_getBlock_of_ne (h.ne_of_phi hphi)]
    exact h.placed.getBlock_of_phi hphi
  nodup place := by
    by_cases hpreHeader : place = info.preHeader
    · subst hpreHeader
      rw [hoist_instructions_preHeader]
      refine List.Nodup.append (h.placed.nodup _) (nodup_singleton _) ?_
      rw [disjoint_singleton]
      exact h.notMem_of_ne h.block_ne_preHeader.symm
    · show List.Nodup (if place = info.preHeader then _ else _)
      rw [if_neg hpreHeader]
      exact (h.placed.nodup place).erase insn
  phi_notMem {phi place} hphi other hmem :=
    h.placed.phi_notMem hphi _ ((h.mem_hoist_iff (h.ne_of_phi hphi) other).mp hmem)
  last_notMem place other hmem :=
    h.placed.last_notMem place other ((h.mem_hoist_iff (h.last_ne place) other).mp hmem)
  last_notPhi := h.placed.last_notPhi
  inputs_available _ front item _ hsplit _ hinput := by
    by_cases hitem : item = insn
    · subst hitem
      obtain ⟨rfl, rfl⟩ := h.split_of_moved hsplit
      exact h.hoist_available_preHeader (h.input_available_preHeader hinput)
    · obtain ⟨front', back', hsplit', hfront, hplace⟩ := h.exists_split hitem hsplit
      exact h.hoist_available hfront hplace (h.placed.inputs_available _ _ _ _ hsplit' _ hinput)
  environment_available _ _ item back hsplit input hinput := by
    by_cases hitem : item = insn
    · subst hitem
      obtain ⟨rfl, rfl⟩ := h.split_of_moved hsplit
      have henvironment : (frame.hoist placement info item).environment item =
          frame.updateLoopPhisIn info (placement.environment item) := update_self _ _ _
      rw [henvironment] at hinput
      exact h.hoist_available_preHeader (h.environment_available_preHeader hinput)
    · obtain ⟨front', back', hsplit', hfront, hplace⟩ := h.exists_split hitem hsplit
      rw [hoist_environment_of_ne hitem] at hinput
      exact h.hoist_available hfront hplace
        (h.placed.environment_available _ _ _ _ hsplit' _ hinput)
  phiInput_available place _ htarget phi hphi := by
    refine h.hoist_available (fun other hother hne => (h.mem_hoist_iff hne place).mpr hother)
      (fun hmem => ?_) (h.placed.phiInput_available _ _ htarget phi hphi)
    exact (h.placed.getBlock_of_mem hmem).symm.trans h.getBlock_eq

end Frame.Hoistable

end NougatArt.CodeMotion
