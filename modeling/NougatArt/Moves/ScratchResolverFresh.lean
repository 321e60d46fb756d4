import NougatArt.Moves.ScratchResolverProgress

/-!
# Scratch locations outside of the moves

If the scratch locations are never destinations, no pending move waits for another one.
-/

namespace NougatArt.Moves

open Finset

namespace ScratchResolver

variable {count : ℕ} {setting : Setting count} {backend : Backend count}
  {resolver : ScratchResolver count}

variable (setting resolver) in
/-- The sources of the pending moves are not destinations. -/
def Fresh : Prop := ∀ move ∈ resolver.pendingMoves, setting.pool move.source

theorem Fresh.separate (hfresh : Fresh setting resolver) (hsafe : Safe setting resolver) :
    resolver.Separate := by
  intro move hmove other hother
  obtain ⟨i, -, hdest, -⟩ := hsafe.pendingDestination _ hother
  rw [hdest]
  exact setting.pool_apart _ (hfresh _ hmove) i

def NeverBorrows (pool : Location → Prop) (backend : Backend count) : Prop :=
  ∀ resolver kind, pool (backend.allocateScratchLocationFor resolver kind).1

structure FreshCall (setting : Setting count) (resolver after : ScratchResolver count) : Prop where
  safe : Safe setting after
  waits : after.Waits
  fresh : Fresh setting after
  advances : Advances resolver after

section

variable (hlawful : Lawful setting.layout setting.pool backend)
  (hborrows : NeverBorrows setting.pool backend)

include hlawful hborrows

theorem finishMove_fresh {i : Fin count} (hsafe : Safe setting resolver)
    (hwaits : resolver.Waits) (hfresh : Fresh setting resolver) (hlive : resolver.Live i)
    (hdest : (resolver.moves i).destination = (setting.moves i).destination)
    (hsrc : setting.layout.Operand (resolver.moves i).source) :
    FreshCall setting resolver (resolver.finishMove backend i) ∧
      ¬ (resolver.finishMove backend i).Live i := by
  have hscr : Fresh setting (resolver.performToScratch backend i) := by
    intro move hmove
    rcases List.mem_append.mp hmove with hold | hlast
    · exact hfresh _ hold
    · rw [List.mem_singleton.mp hlast]
      exact hborrows resolver _
  obtain ⟨hsafe', -, hwaits', hadv, hnot, hfresh'⟩ := finishMove_spec hlawful hsafe hlive
    hdest (Fresh setting)
    (fun s move hstate hinv hmove _ other hother =>
      hinv other (mem_performPendingMove hstate hmove hother).1)
    hsrc (hfresh.separate hsafe) hwaits
    (fun _ move hmove => setting.pool_apart _ (hfresh _ hmove) i)
    (fun _ => hscr) (fun _ => hfresh)
  exact ⟨⟨hsafe', hwaits', hfresh', hadv⟩, hnot⟩

/-- A call performs its move and loses no pending move. -/
theorem performMove_fresh (fuel : ℕ) : ∀ (i : Fin count) (resolver : ScratchResolver count),
    Safe setting resolver → resolver.Waits → Fresh setting resolver → resolver.Live i →
    (resolver.moves i).destination ≠ .noLocation →
    (resolver.moves i).source.isConstant = false → resolver.idle.card ≤ fuel →
    ∃ after, performMove backend fuel i resolver = some after ∧
      FreshCall setting resolver after ∧ ¬ after.Live i := by
  induction fuel with
  | zero =>
    intro i resolver _ _ _ _ hidle _ hfuel
    have hmem : i ∈ resolver.idle := mem_filter.mpr ⟨mem_univ _, hidle⟩
    exact absurd (card_pos.mpr ⟨i, hmem⟩) (Nat.not_lt.mpr hfuel)
  | succ fuel ih =>
    intro i resolver hsafe hwaits hfresh hlive hidle hconst hfuel
    have hdest := (hsafe.destination _ hlive).resolve_right hidle
    by_cases hred : (resolver.moves i).isRedundant = true
    · rw [performMove, if_pos hred]
      have heq := (redundant_iff hsafe hlive hidle).mp hred
      exact ⟨_, rfl, ⟨hsafe.eliminate hlive heq, waits_eliminate heq hsafe hlive hwaits, hfresh,
        advances_eliminate hidle⟩, not_live_eliminate⟩
    · have hmark : FreshCall setting (resolver.mark i) (resolver.mark i) :=
        ⟨hsafe.setDestination hlive (.inr rfl), waits_setDestination hwaits _, hfresh,
          Advances.refl _⟩
      -- The moves that block this one are performed while it is in progress.
      obtain ⟨inner, hinner, hcall⟩ : ∃ inner, (List.finRange count).foldlM
              (performBlocker backend fuel (resolver.moves i).destination)
              (resolver.mark i) = some inner ∧
            FreshCall setting (resolver.mark i) inner := by
        refine exists_foldlM _ (fun s other _ hstate => ?_) hmark
        by_cases hblocks : ((s.moves other).blocks (resolver.moves i).destination &&
            !(s.moves other).isPending) = true
        · obtain ⟨hblocksAt, hidle', hconst'⟩ :=
            callable_of_blocks (hdest ▸ setting.destination i) hblocks
          have hless := (card_le_card (hstate.advances.idle_subset hstate.safe)).trans_lt
            (card_idle_mark hidle)
          obtain ⟨after, hafter, hcall, -⟩ := ih _ _ hstate.safe hstate.waits
            hstate.fresh hblocksAt.1 hidle' hconst' (by omega)
          exact ⟨after, (if_pos hblocks).trans hafter, hcall.safe, hcall.waits,
            hcall.fresh, hstate.advances.trans hcall.advances⟩
        · exact ⟨s, if_neg hblocks, hstate⟩
      obtain ⟨hsafe', hlive', hdest', hsrc⟩ := restored_spec hcall.safe hcall.advances hlive hconst
      obtain ⟨hfinish, hnot⟩ := finishMove_fresh hlawful hborrows hsafe'
        (waits_setDestination hcall.waits _) hcall.fresh hlive' hdest' hsrc
      refine ⟨_, ?_, ⟨hfinish.safe, hfinish.waits, hfinish.fresh,
        hcall.advances.call hidle hfinish.advances hnot⟩, hnot⟩
      rw [performMove_succ hred, hinner, hdest, Option.map_some]

end

end ScratchResolver

end NougatArt.Moves
