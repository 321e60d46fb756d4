import Mathlib

/-!
# Folds that may fail

A step that may fail is folded over a list. What the steps keep, the fold keeps; what
a step establishes for its element, and the later steps keep, holds for all elements.
-/

namespace NougatArt

open List Option

universe u v

variable {α : Type u} {σ : Type v} {step : σ → α → Option σ} {list : List α}

section Spec

variable (Inv : σ → Prop) (Grows : σ → σ → Prop) (Post : α → σ → Prop)
  (hrefl : ∀ s, Grows s s)
  (htrans : ∀ first second third, Grows first second → Grows second third → Grows first third)
  (hpost : ∀ element s after, Grows s after → Post element s → Post element after)
  (hstep : ∀ s element after, element ∈ list → Inv s → step s element = some after →
    Inv after ∧ Grows s after ∧ Post element after)

include hrefl htrans hpost hstep

theorem foldlM_spec {s after : σ} (hinv : Inv s) (hfold : list.foldlM step s = some after) :
    Inv after ∧ Grows s after ∧ ∀ element ∈ list, Post element after := by
  induction list generalizing s with
  | nil =>
    obtain rfl := some.inj hfold
    exact ⟨hinv, hrefl s, by simp⟩
  | cons head tail ih =>
    obtain ⟨middle, hhead, htail⟩ := bind_eq_some_iff.mp hfold
    obtain ⟨hmiddle, hgrows, hpostHead⟩ := hstep _ head _ mem_cons_self hinv hhead
    obtain ⟨hafter, hrest, hall⟩ := ih
      (fun s element after hmem => hstep s element after (mem_cons_of_mem _ hmem))
      hmiddle htail
    refine ⟨hafter, htrans _ _ _ hgrows hrest, fun element helement => ?_⟩
    rcases mem_cons.mp helement with rfl | hmem
    · exact hpost _ _ _ hrest hpostHead
    · exact hall _ hmem

end Spec

theorem exists_foldlM (Inv : σ → Prop)
    (hstep : ∀ s, ∀ element ∈ list, Inv s → ∃ after, step s element = some after ∧
      Inv after) {s : σ} (hinv : Inv s) :
    ∃ after, list.foldlM step s = some after ∧ Inv after := by
  induction list generalizing s with
  | nil => exact ⟨s, rfl, hinv⟩
  | cons head tail ih =>
    obtain ⟨middle, hhead, hmiddle⟩ := hstep _ head mem_cons_self hinv
    obtain ⟨after, htail, hafter⟩ :=
      ih (fun s element hmem => hstep s element (mem_cons_of_mem _ hmem)) hmiddle
    refine ⟨after, ?_, hafter⟩
    exact bind_eq_some_iff.mpr ⟨middle, hhead, htail⟩

end NougatArt
