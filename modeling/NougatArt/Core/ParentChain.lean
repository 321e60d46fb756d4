import Mathlib

/-!
# Chains of parents

A tree that is given by the parent of every vertex. The chain of a vertex leads from it
to a vertex without parent. Two vertices whose chains end in the same vertex have a
nearest common ancestor, which is found by walking up from both at the same height.
-/

namespace NougatArt

open List Function

universe u

variable {V : Type u}

inductive ParentChain (parent : V → Option V) : V → List V → Prop
  | root {vertex : V} : parent vertex = none → ParentChain parent vertex [vertex]
  | step {vertex next : V} {rest : List V} : parent vertex = some next →
      ParentChain parent next rest → ParentChain parent vertex (vertex :: rest)

namespace ParentChain

variable {parent : V → Option V} {vertex other : V} {chain chain' : List V}

section

variable (hchain : ParentChain parent vertex chain)

include hchain

theorem head_mem : vertex ∈ chain := by
  cases hchain <;> exact mem_cons_self

theorem exists_cons : ∃ rest, chain = vertex :: rest := by
  cases hchain with
  | root _ => exact ⟨[], rfl⟩
  | step _ _ => exact ⟨_, rfl⟩

theorem unique (hchain' : ParentChain parent vertex chain') : chain = chain' := by
  induction hchain generalizing chain' with
  | root hnone =>
    cases hchain' with
    | root _ => rfl
    | step hsome _ =>
      rw [hnone] at hsome
      cases hsome
  | step hsome _ ih =>
    cases hchain' with
    | root hnone =>
      rw [hnone] at hsome
      cases hsome
    | step hsome' hrest' =>
      rw [hsome] at hsome'
      cases hsome'
      rw [ih hrest']

/-- The chain of a vertex on a chain is the rest of the chain. -/
theorem exists_suffix (hmem : other ∈ chain) :
    ∃ front back, chain = front ++ back ∧ ParentChain parent other back := by
  induction hchain with
  | root hnone =>
    obtain rfl := mem_singleton.mp hmem
    exact ⟨[], _, rfl, .root hnone⟩
  | @step vertex next rest hsome hrest ih =>
    rcases mem_cons.mp hmem with rfl | hlater
    · exact ⟨[], _, rfl, .step hsome hrest⟩
    · obtain ⟨front, back, heq, hback⟩ := ih hlater
      exact ⟨vertex :: front, back, by rw [heq, cons_append], hback⟩

section

variable (hmem : other ∈ chain) (hother : ParentChain parent other chain')

include hmem hother

theorem subset_of_mem : chain' ⊆ chain := by
  obtain ⟨front, back, rfl, hback⟩ := hchain.exists_suffix hmem
  rw [hother.unique hback]
  exact subset_append_right front back

theorem length_le_of_mem : chain'.length ≤ chain.length := by
  obtain ⟨front, back, rfl, hback⟩ := hchain.exists_suffix hmem
  rw [hother.unique hback, length_append]
  exact Nat.le_add_left _ _

/-- A vertex with a chain of the same length is the start of the chain. -/
theorem eq_of_length (hlen : chain'.length = chain.length) : other = vertex := by
  obtain ⟨front, back, rfl, hback⟩ := hchain.exists_suffix hmem
  rw [hother.unique hback, length_append] at hlen
  obtain rfl := length_eq_zero_iff.mp (show front.length = 0 by omega)
  obtain ⟨rest, hrest⟩ := hback.exists_cons
  obtain ⟨rest', hrest'⟩ := hchain.exists_cons
  rw [nil_append, hrest] at hrest'
  exact (cons.inj hrest').1

end

/-- The vertices of a chain with short chains are on the short end of it. -/
theorem mem_of_length_le {lower : V} {back back' : List V} (hlower : lower ∈ chain)
    (hback : ParentChain parent lower back) (hother : other ∈ chain)
    (hback' : ParentChain parent other back') (hlen : back'.length ≤ back.length) :
    other ∈ back := by
  obtain ⟨front, rest, heq, hrest⟩ := hchain.exists_suffix hlower
  obtain ⟨front', rest', heq', hrest'⟩ := hchain.exists_suffix hother
  rw [hback.unique hrest, hback'.unique hrest'] at hlen
  rw [hback.unique hrest]
  have hsuffix : rest' <:+ rest :=
    suffix_of_suffix_length_le ⟨front', heq'.symm⟩ ⟨front, heq.symm⟩ hlen
  exact hsuffix.subset hrest'.head_mem

theorem nodup : chain.Nodup := by
  induction hchain with
  | root _ => exact nodup_singleton _
  | @step vertex next rest hsome hrest ih =>
    refine nodup_cons.mpr ⟨fun hmem => ?_, ih⟩
    have hle := hrest.length_le_of_mem hmem (.step hsome hrest)
    rw [length_cons] at hle
    omega

theorem length_le_card [Fintype V] : chain.length ≤ Fintype.card V := hchain.nodup.length_le_card

/-- A parent that is not on the chain does not matter. -/
theorem update_of_notMem [DecidableEq V] (hmem : other ∉ chain) (v : Option V) :
    ParentChain (update parent other v) vertex chain := by
  induction hchain with
  | @root vertex hnone =>
    have hne : vertex ≠ other := fun heq => hmem (mem_singleton.mpr heq.symm)
    exact .root (by rw [update_of_ne hne, hnone])
  | @step vertex next rest hsome _ ih =>
    have hne : vertex ≠ other := fun heq => hmem (heq ▸ mem_cons_self)
    exact .step (by rw [update_of_ne hne, hsome]) (ih fun hlater => hmem (mem_cons_of_mem _ hlater))

/-- After the parent of a vertex was moved up, chains have only lost vertices. -/
theorem update_of_mem [DecidableEq V] {moved t : V} {above : List V} (hmoved : moved ∈ chain)
    (htarget : ParentChain parent t above) (habove : moved ∉ above) :
    ∃ front, ParentChain (update parent moved (some t)) vertex (front ++ moved :: above) ∧
      ∃ back, chain = front ++ moved :: back := by
  have hnew := htarget.update_of_notMem habove (some t)
  induction hchain with
  | @root vertex hnone =>
    obtain rfl := mem_singleton.mp hmoved
    exact ⟨[], .step (update_self _ _ _) hnew, [], rfl⟩
  | @step vertex next rest hsome _ ih =>
    by_cases heq : vertex = moved
    · subst heq
      exact ⟨[], .step (update_self _ _ _) hnew, rest, rfl⟩
    · obtain ⟨front, hfront, back, hback⟩ :=
        ih ((mem_cons.mp hmoved).resolve_left fun hsame => heq hsame.symm)
      refine ⟨vertex :: front, .step ?_ hfront, back, by rw [hback, cons_append]⟩
      rw [update_of_ne heq, hsome]

end

end ParentChain

end NougatArt
