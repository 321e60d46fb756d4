import NougatArt.CodeMotion.Licm

/-!
# The side effects of loops are complete

The effects of a loop contain those of all its blocks: a block passes its effects
to its innermost loop, and when the header of a loop is visited, after the other
blocks of the loop, the effects of the loop are passed to the loop around it.
-/

namespace NougatArt.CodeMotion

open List Option Function Finset

variable {blocks insns : ℕ} {Exception : Type} {insn : Fin insns} {b : Fin blocks}

namespace Frame

variable {frame : Frame blocks insns Exception} {placement : Placement blocks insns}

theorem subset_unionEffects (list : List (Fin insns)) (effects : SideEffects) :
    effects.changes ⊆ (frame.unionEffects effects list).changes := by
  induction list generalizing effects with
  | nil => exact Finset.Subset.refl _
  | cons insn rest ih =>
    have hunion : effects.changes ⊆ (effects.union (frame.op insn).sideEffects).changes :=
      subset_union_left
    rw [unionEffects]
    split
    · exact hunion
    · exact hunion.trans (ih _)

/-- Nothing is missed when all effects are there already. -/
theorem subset_unionEffects_of_mem {list : List (Fin insns)}
    (hinsn : insn ∈ list) (effects : SideEffects) :
    (frame.op insn).sideEffects.changes ⊆ (frame.unionEffects effects list).changes := by
  induction list generalizing effects with
  | nil => cases hinsn
  | cons head rest ih =>
    rw [unionEffects]
    split
    next hall =>
      rw [SideEffects.doesAll, decide_eq_true_eq] at hall
      rw [hall]
      exact subset_univ _
    · rcases mem_cons.mp hinsn with rfl | hrest
      · have hunion : (frame.op insn).sideEffects.changes ⊆
            (effects.union (frame.op insn).sideEffects).changes := subset_union_right
        exact hunion.trans (subset_unionEffects rest _)
      · exact ih hrest _

variable (frame placement) in
def Contains (block : Fin blocks) (effects : SideEffects) : Prop :=
  (frame.blockEffects placement block).changes ⊆ effects.changes

section

variable (loopEffects : LoopEffects blocks) (info : HLoopInformation blocks) (effects : SideEffects)

include loopEffects info effects

theorem subset_updateLoopEffects (header : Fin blocks) :
    (loopEffects header).changes ⊆ (updateLoopEffects loopEffects info effects header).changes := by
  by_cases heq : header = info.header
  · subst heq
    rw [updateLoopEffects, update_self]
    exact subset_union_left
  · rw [updateLoopEffects, update_of_ne heq]

theorem subset_updateLoopEffects_self :
    effects.changes ⊆ (updateLoopEffects loopEffects info effects info.header).changes := by
  rw [updateLoopEffects, update_self]
  exact subset_union_right

end

variable {loopEffects : LoopEffects blocks} {info : HLoopInformation blocks}

theorem visitEffects_of_body (hinfo : frame.loopInformation b = some info)
    (hheader : info.header ≠ b) : frame.visitEffects placement loopEffects b =
      updateLoopEffects loopEffects info (frame.blockEffects placement b) := by
  simp only [visitEffects, hinfo, if_neg hheader]

theorem visitEffects_of_header (hinfo : frame.loopInformation info.header = some info) :
    frame.visitEffects placement loopEffects info.header =
      match frame.loopInformation info.preHeader with
      | none => updateLoopEffects loopEffects info (frame.blockEffects placement info.header)
      | some outer => updateLoopEffects
          (updateLoopEffects loopEffects info (frame.blockEffects placement info.header)) outer
          (updateLoopEffects loopEffects info (frame.blockEffects placement info.header)
            info.header) := by
  cases hpre : frame.loopInformation info.preHeader <;> simp [visitEffects, hinfo, hpre]

theorem subset_visitEffects_header (hinfo : frame.loopInformation info.header = some info)
    (header : Fin blocks) :
    (updateLoopEffects loopEffects info (frame.blockEffects placement info.header) header).changes ⊆
      (frame.visitEffects placement loopEffects info.header header).changes := by
  rw [visitEffects_of_header hinfo]
  cases frame.loopInformation info.preHeader with
  | none => exact Finset.Subset.refl _
  | some outer => exact subset_updateLoopEffects _ _ _ _

theorem subset_visitEffects (loopEffects : LoopEffects blocks) (b header : Fin blocks) :
    (loopEffects header).changes ⊆ (frame.visitEffects placement loopEffects b header).changes := by
  cases hinfo : frame.loopInformation b with
  | none =>
    simp only [visitEffects, hinfo]
    exact Finset.Subset.refl _
  | some info =>
    by_cases hheader : info.header = b
    · subst hheader
      exact (subset_updateLoopEffects _ _ _ _).trans (subset_visitEffects_header hinfo header)
    · rw [visitEffects_of_body hinfo hheader]
      exact subset_updateLoopEffects _ _ _ _

variable (frame placement) in
/-- What is known of the effects after some blocks were visited. -/
structure Covered (visited : List (Fin blocks)) (loopEffects : LoopEffects blocks) : Prop where
  own : ∀ block ∈ visited, ∀ info, frame.loopInformation block = some info →
    frame.Contains placement block (loopEffects info.header)
  whole : ∀ info, frame.loopInformation info.header = some info →
    info.containsIrreducibleLoop = false → info.header ∈ visited →
    ∀ block ∈ info.body, frame.Contains placement block (loopEffects info.header)
  passed : ∀ info, frame.loopInformation info.header = some info →
    info.containsIrreducibleLoop = false → info.header ∈ visited →
    ∀ outer, frame.loopInformation info.preHeader = some outer →
    ∀ block ∈ info.body, frame.Contains placement block (loopEffects outer.header)

end Frame

namespace HGraph

variable (g : HGraph blocks insns Exception)

open NougatArt.CodeMotion.Frame

variable {visited : List (Fin blocks)} {loopEffects : LoopEffects blocks}
  {info : HLoopInformation blocks}

section

variable (hcovered : Covered g.toFrame g.placement visited loopEffects)

include hcovered

/-- The effects of a loop inside of another one are passed on from loop to loop. -/
theorem contains_of_inner (hloop : g.WellFormedLoop info)
    (hvis : ∀ b ∈ info.body, b ≠ info.header → b ∈ visited) (distance : ℕ) :
    ∀ inner : HLoopInformation blocks, g.loopInformation inner.header = some inner → inner ≠ info →
      inner.header ∈ info.body →
      g.postOrder.idxOf info.header - g.postOrder.idxOf inner.header ≤ distance →
      ∀ b ∈ inner.body, g.Contains g.placement b (loopEffects info.header) := by
  induction distance with
  | zero =>
    intro inner hinner hne hmem hdistance
    obtain ⟨inner', hinner', -, -, -, hnested⟩ := hloop.nested inner.header hmem
    obtain rfl : inner' = inner := some.inj (hinner'.symm.trans hinner)
    have := (hloop.header_last inner'.header hmem).2 (hnested hne).1
    omega
  | succ distance ih =>
    intro inner hinner hne hmem hdistance b hblock
    obtain ⟨inner', hinner', -, -, -, hnested⟩ := hloop.nested inner.header hmem
    obtain rfl : inner' = inner := some.inj (hinner'.symm.trans hinner)
    obtain ⟨hheader, hreduc, hpreHeader, haround⟩ := hnested hne
    have hinnerLoop := g.wellFormedLoop inner' hinner hreduc
    obtain ⟨outer, houter, hpreHeader', houterMem, houterLoop, houterNested⟩ :=
      hloop.nested inner'.preHeader hpreHeader
    by_cases hsame : outer = info
    · subst hsame
      exact hcovered.passed inner' hinner hreduc (hvis _ hmem hheader) outer houter b hblock
    -- The loop around the inner one contains it and is visited later.
    have hsubset := haround outer houter
    have houterWell := g.wellFormedLoop outer houterLoop (houterNested hsame).2.1
    have hdifferent : inner'.header ≠ outer.header := by
      intro heq
      rw [heq, houterLoop] at hinner
      obtain rfl := some.inj hinner
      exact hinnerLoop.preHeader_notMem hpreHeader'
    have hlater := (houterWell.header_last inner'.header
      (hsubset hinnerLoop.header_mem)).2 hdifferent
    have hbefore := (hloop.header_last inner'.header hmem).2 hheader
    exact ih outer houterLoop hsame houterMem (by omega) b (hsubset hblock)

/-- When its header is visited, the effects of a loop are complete. -/
theorem contains_of_header (hinfo : g.loopInformation info.header = some info)
    (hreduc : info.containsIrreducibleLoop = false)
    (hvis : ∀ b ∈ info.body, b ≠ info.header → b ∈ visited) :
    ∀ b ∈ info.body, g.Contains g.placement b
      (updateLoopEffects loopEffects info (g.blockEffects g.placement info.header)
        info.header) := by
  intro b hblock
  have hloop := g.wellFormedLoop info hinfo hreduc
  by_cases hheader : b = info.header
  · subst hheader
    exact subset_updateLoopEffects_self _ _ _
  · refine Finset.Subset.trans ?_ (subset_updateLoopEffects _ _ _ _)
    obtain ⟨inner, hinner, hmem, hinnerMem, hinnerLoop, -⟩ := hloop.nested b hblock
    by_cases hsame : inner = info
    · subst hsame
      exact hcovered.own b (hvis b hblock hheader) inner hinner
    · exact g.contains_of_inner hcovered hloop hvis _ inner hinnerLoop hsame hinnerMem le_rfl b hmem

theorem covered_visitEffects {cur : Fin blocks}
    (hbefore : ∀ b, g.postOrder.idxOf b < g.postOrder.idxOf cur →
      b ∈ visited) : Covered g.toFrame g.placement (visited ++ [cur])
      (g.visitEffects g.placement loopEffects cur) := by
  have hmono := fun header => @subset_visitEffects _ _ _ g.toFrame g.placement
    loopEffects cur header
  have hcur : ∀ {b}, b ∈ visited ++ [cur] → b ∈ visited ∨ b = cur :=
    fun hmem => (List.mem_append.mp hmem).imp_right List.mem_singleton.mp
  have hcompl : ∀ info : HLoopInformation blocks,
      g.loopInformation info.header = some info → info.containsIrreducibleLoop = false →
      info.header = cur → ∀ b ∈ info.body, g.Contains g.placement b
        (updateLoopEffects loopEffects info (g.blockEffects g.placement info.header)
          info.header) := by
    rintro info hinfo hreduc rfl
    exact g.contains_of_header hcovered hinfo hreduc fun b hblock hne => hbefore b
      (((g.wellFormedLoop info hinfo hreduc).header_last b hblock).2 hne)
  refine ⟨?_, ?_, ?_⟩
  · intro b hblock info hinfo
    rcases hcur hblock with hvis | rfl
    · exact (hcovered.own b hvis info hinfo).trans (hmono _)
    · by_cases hheader : info.header = b
      · subst hheader
        exact (subset_updateLoopEffects_self _ _ _).trans (subset_visitEffects_header hinfo _)
      · rw [visitEffects_of_body hinfo hheader]
        exact subset_updateLoopEffects_self _ _ _
  · intro info hinfo hreduc hheader b hblock
    rcases hcur hheader with hvis | rfl
    · exact (hcovered.whole info hinfo hreduc hvis b hblock).trans (hmono _)
    · exact (hcompl info hinfo hreduc rfl b hblock).trans (subset_visitEffects_header hinfo _)
  · intro info hinfo hreduc hheader outer houter b hblock
    rcases hcur hheader with hvis | rfl
    · exact (hcovered.passed info hinfo hreduc hvis outer houter b hblock).trans (hmono _)
    · rw [visitEffects_of_header hinfo, houter]
      exact (hcompl info hinfo hreduc rfl b hblock).trans (subset_updateLoopEffects_self _ _ _)

end

theorem covered_foldl (rest : List (Fin blocks)) : ∀ (visited : List (Fin blocks))
    (loopEffects : LoopEffects blocks), g.postOrder = visited ++ rest →
    Covered g.toFrame g.placement visited loopEffects → Covered g.toFrame g.placement g.postOrder
      (rest.foldl (g.visitEffects g.placement) loopEffects) := by
  induction rest with
  | nil =>
    intro visited loopEffects hsplit hcovered
    rw [append_nil] at hsplit
    rwa [hsplit]
  | cons cur rest ih =>
    intro visited loopEffects hsplit hcovered
    refine ih (visited ++ [cur]) _ (by rw [hsplit]; simp)
      (g.covered_visitEffects hcovered fun b hlt => ?_)
    -- A block before this one in the post order was visited.
    by_contra hnot
    have hblock : visited.length ≤ g.postOrder.idxOf b := by
      rw [hsplit, idxOf_append_of_notMem hnot]
      exact Nat.le_add_right _ _
    have hcur : g.postOrder.idxOf cur ≤ visited.length := by
      rw [hsplit]
      by_cases hmem : cur ∈ visited
      · rw [idxOf_append_of_mem hmem]
        exact idxOf_le_length
      · rw [idxOf_append_of_notMem hmem, idxOf_cons_self]
        exact le_rfl
    omega

/-- What an instruction of a loop changes is among the effects of the loop. -/
theorem subset_loopEffects (hinfo : g.loopInformation info.header = some info)
    (hreduc : info.containsIrreducibleLoop = false) (hblock : b ∈ info.body)
    (hinsn : insn ∈ g.placement.instructions b ++ [g.lastInstruction b]) :
    (g.op insn).sideEffects.changes ⊆ (g.loopEffects g.placement info.header).changes := by
  have hcovered := g.covered_foldl g.postOrder [] (fun _ => .none) rfl
    ⟨nofun, fun _ _ _ => nofun, fun _ _ _ => nofun⟩
  have hloop := g.wellFormedLoop info hinfo hreduc
  exact (subset_unionEffects_of_mem hinsn _).trans
    (hcovered.whole info hinfo hreduc (hloop.header_last _ hloop.header_mem).1 b hblock)

end HGraph

end NougatArt.CodeMotion
