import Mathlib

/-!
# Loops that may fail

A `while` loop whose body may fail, with a bound on the number of its rounds.
-/

namespace NougatArt

universe u

variable {σ : Type u} (isDone : σ → Bool) (body : σ → Option σ)

def whileLoop : ℕ → σ → Option σ
  | 0, state => if isDone state then some state else none
  | fuel + 1, state => if isDone state then some state else (body state).bind (whileLoop fuel)

variable {isDone body}

/-- A loop whose body keeps an invariant and decreases a measure comes to its end. -/
theorem exists_whileLoop (Inv : σ → Prop) (measure : σ → ℕ) (hbody : ∀ s, Inv s → isDone s = false →
      ∃ next, body s = some next ∧ Inv next ∧ measure next < measure s)
    (fuel : ℕ) : ∀ s, Inv s → measure s ≤ fuel →
      ∃ last, whileLoop isDone body fuel s = some last ∧ Inv last ∧ isDone last := by
  induction fuel with
  | zero =>
    intro s hinv hmeasure
    cases hdone : isDone s with
    | true => exact ⟨s, by rw [whileLoop, if_pos hdone], hinv, hdone⟩
    | false =>
      obtain ⟨next, -, -, hless⟩ := hbody s hinv hdone
      omega
  | succ fuel ih =>
    intro s hinv hmeasure
    cases hdone : isDone s with
    | true => exact ⟨s, by rw [whileLoop, if_pos hdone], hinv, hdone⟩
    | false =>
      obtain ⟨next, hnext, hinv', hless⟩ := hbody s hinv hdone
      obtain ⟨last, hlast, hspec⟩ := ih next hinv' (by omega)
      refine ⟨last, ?_, hspec⟩
      rw [whileLoop, if_neg (Bool.eq_false_iff.mp hdone), hnext]
      exact hlast

end NougatArt
