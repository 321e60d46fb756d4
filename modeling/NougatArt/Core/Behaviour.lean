import Mathlib

/-!
# Deterministic systems with outputs

A system produces outputs step by step and may come to a result. Two systems
behave the same if each output sequence of one is the beginning of one of the
other, and a result of one is a result of the other after the same outputs.
The outputs of runs that never end are thus compared as well.

To show this it is enough to relate configurations at checkpoints: between two
checkpoints both systems may take any number of steps, as long as the outputs
are the same.
-/

namespace NougatArt

open List

universe u v w

structure OutputSystem (Config : Type u) (Out : Type v) (Result : Type w) where
  step : Config → List Out × Config
  result : Config → Option Result
  halted : ∀ config value, result config = some value → step config = ([], config)

namespace OutputSystem

variable {Config Config' Config'' : Type u} {Out : Type v} {Result : Type w}
  (system : OutputSystem Config Out Result) (system' : OutputSystem Config' Out Result)
  (system'' : OutputSystem Config'' Out Result)

/-- The outputs of a number of steps and the configuration after them. -/
def run : ℕ → Config → List Out × Config
  | 0, config => ([], config)
  | steps + 1, config => ((system.step config).1 ++ (run steps (system.step config).2).1,
      (run steps (system.step config).2).2)

/-- What the first system does, the second one does as well. -/
def Follows (config : Config) (config' : Config') : Prop :=
  ∀ steps, ∃ steps', (system.run steps config).1 <+: (system'.run steps' config').1 ∧
      ∀ value, system.result (system.run steps config).2 = some value →
        (system'.run steps' config').1 = (system.run steps config).1 ∧
          system'.result (system'.run steps' config').2 = some value

def SameBehaviour (config : Config) (config' : Config') : Prop :=
  system.Follows system' config config' ∧ system'.Follows system config' config

variable {system system' system''}

theorem run_add (first second : ℕ) (config : Config) : system.run (first + second) config =
      ((system.run first config).1 ++ (system.run second (system.run first config).2).1,
        (system.run second (system.run first config).2).2) := by
  induction first generalizing config with
  | zero =>
    rw [Nat.zero_add]
    rfl
  | succ first ih =>
    rw [Nat.succ_add, run, ih, run, append_assoc]

theorem run_succ (steps : ℕ) (config : Config) :
    (system.run (steps + 1) config).2 = (system.step (system.run steps config).2).2 := by
  rw [run_add]
  rfl

variable {config : Config} {value : Result} {steps more : ℕ}

theorem run_of_result (hres : system.result config = some value) (steps : ℕ) :
    system.run steps config = ([], config) := by
  induction steps with
  | zero => rfl
  | succ steps ih =>
    rw [run, system.halted _ _ hres, ih]
    rfl

/-- A result is kept by longer runs. -/
theorem run_of_le (hle : steps ≤ more)
    (hres : system.result (system.run steps config).2 = some value) :
    system.run more config = system.run steps config := by
  obtain ⟨rest, rfl⟩ := Nat.exists_eq_add_of_le hle
  rw [run_add, run_of_result hres, append_nil]

theorem run_prefix_of_le (hle : steps ≤ more) :
    (system.run steps config).1 <+: (system.run more config).1 := by
  obtain ⟨rest, rfl⟩ := Nat.exists_eq_add_of_le hle
  rw [run_add]
  exact prefix_append _ _

variable {config' : Config'} {config'' : Config''}

theorem Follows.trans (hfirst : system.Follows system' config config')
    (hsnd : system'.Follows system'' config' config'') :
    system.Follows system'' config config'' := by
  intro steps
  obtain ⟨steps', hprefix, hres⟩ := hfirst steps
  obtain ⟨steps'', hprefix', hres'⟩ := hsnd steps'
  refine ⟨steps'', hprefix.trans hprefix', fun value hvalue => ?_⟩
  obtain ⟨houts, hvalue'⟩ := hres _ hvalue
  obtain ⟨houts', hvalue''⟩ := hres' _ hvalue'
  exact ⟨houts'.trans houts, hvalue''⟩

theorem SameBehaviour.refl (config : Config) : system.SameBehaviour system config config :=
  ⟨fun steps => ⟨steps, prefix_refl _, fun _ hvalue => ⟨rfl, hvalue⟩⟩,
    fun steps => ⟨steps, prefix_refl _, fun _ hvalue => ⟨rfl, hvalue⟩⟩⟩

theorem SameBehaviour.trans (hfirst : system.SameBehaviour system' config config')
    (hsnd : system'.SameBehaviour system'' config' config'') :
    system.SameBehaviour system'' config config'' :=
  ⟨hfirst.1.trans hsnd.1, hsnd.2.trans hfirst.2⟩

variable (system system') in
/-- Related configurations have the same result, or both systems go on to related
configurations with the same outputs. -/
def Matched (related : Config → Config' → Prop) : Prop :=
  ∀ config config', related config config' → system.result config = system'.result config' ∧
    (system.result config = none → ∃ steps steps', 0 < steps ∧ 0 < steps' ∧
      (system.run steps config).1 = (system'.run steps' config').1 ∧
      related (system.run steps config).2 (system'.run steps' config').2)

variable {related : Config → Config' → Prop}

section

variable (h : system.Matched system' related)

include h

theorem Matched.symm : system'.Matched system fun config' config => related config config' := by
  intro config' config hrel
  obtain ⟨hres, hgo⟩ := h _ _ hrel
  refine ⟨hres.symm, fun hnone => ?_⟩
  obtain ⟨steps, steps', hpos, hpos', houts, hrel'⟩ := hgo (hres.trans hnone)
  exact ⟨steps', steps, hpos', hpos, houts.symm, hrel'⟩

theorem Matched.follows (hrel : related config config') :
    system.Follows system' config config' := by
  intro steps
  induction steps using Nat.strong_induction_on generalizing config config' with
  | _ steps ih =>
    obtain ⟨hsame, hgo⟩ := h _ _ hrel
    cases hvalue : system.result config with
    | some value =>
      refine ⟨0, ?_, fun result hres => ?_⟩
      · rw [run_of_result hvalue]
        exact nil_prefix
      · rw [run_of_result hvalue] at hres ⊢
        exact ⟨rfl, hsame.symm.trans hres⟩
    | none =>
      obtain ⟨first, first', hpos, _, houts, hrel'⟩ := hgo hvalue
      rcases Nat.lt_or_ge steps first with hlt | hge
      · -- The run ends before the checkpoint; a result is still there at the checkpoint.
        refine ⟨first', houts ▸ run_prefix_of_le hlt.le, fun result hres => ?_⟩
        rw [run_of_le hlt.le hres] at houts hrel'
        exact ⟨houts.symm, (h _ _ hrel').1.symm.trans hres⟩
      · obtain ⟨rest, rfl⟩ := Nat.exists_eq_add_of_le hge
        obtain ⟨rest', hprefix, hres⟩ := ih rest (by omega) hrel'
        refine ⟨first' + rest', ?_, ?_⟩
        · rw [run_add, run_add, houts]
          exact (prefix_append_right_inj _).mpr hprefix
        · intro value hvalue
          rw [run_add] at hvalue ⊢
          obtain ⟨hout, hvalue'⟩ := hres _ hvalue
          rw [run_add, hout, houts]
          exact ⟨rfl, hvalue'⟩

theorem Matched.sameBehaviour
    (hrel : related config config') : system.SameBehaviour system' config config' :=
  ⟨h.follows hrel, h.symm.follows hrel⟩

end

end OutputSystem

end NougatArt
