import NougatArt.Core.Indices

/-!
# Flow graphs and dominance

A flow graph is an entry vertex and a list of successors for every vertex. Its
finite executions are traces, written with the latest vertex first, so that the
past of a vertex is the tail of the list. A vertex dominates another one when
it lies on every trace that ends there.

Two facts carry all later arguments about dominance. `Trace.splice` replaces
the past of a vertex by any other past of the same vertex, and
`mem_of_dominates_of_dominates` says that a dominating definition cannot be
executed again without its dominated use being executed again as well.
-/

namespace NougatArt

open List Function Finset

universe u

structure FlowGraph (V : Type u) where
  entry : V
  succs : V → List V

namespace FlowGraph

variable {V : Type u} (graph : FlowGraph V)

/-- A finite execution of the graph, the latest vertex first. -/
inductive Trace : List V → Prop
  | entry : Trace [graph.entry]
  | step {source target : V} {past : List V} :
      Trace (source :: past) → target ∈ graph.succs source →
      Trace (target :: source :: past)

def Reachable (vertex : V) : Prop := ∃ past, graph.Trace (vertex :: past)

/-- Every trace that ends in `target` has visited `dominator`. -/
def Dominates (dominator target : V) : Prop :=
  ∀ past, graph.Trace (target :: past) → dominator ∈ target :: past

variable {graph}

variable {vertex : V}

theorem Trace.eq_entry (htrace : graph.Trace [vertex]) : vertex = graph.entry := by
  cases htrace
  rfl

variable {later past past' : List V}

/-- Forgetting the latest vertices of a trace leaves a trace. -/
theorem Trace.drop_latest (htrace : graph.Trace (later ++ vertex :: past)) :
    graph.Trace (vertex :: past) := by
  induction later with
  | nil => exact htrace
  | cons head tail ih =>
    cases tail with
    | nil | cons next rest =>
      cases htrace with
      | step hpast _ => exact ih hpast

/-- The past of a vertex can be exchanged for any other past of that vertex. -/
theorem Trace.splice (htrace : graph.Trace (later ++ vertex :: past))
    (hpast : graph.Trace (vertex :: past')) : graph.Trace (later ++ vertex :: past') := by
  induction later with
  | nil => exact hpast
  | cons head tail ih =>
    cases tail with
    | nil | cons next rest =>
      cases htrace with
      | step hrest hedge => exact .step (ih hrest) hedge

variable {src t first second dom : V}

theorem Trace.edge (htrace : graph.Trace (t :: src :: past)) : t ∈ graph.succs src := by
  cases htrace with
  | step _ hedge => exact hedge

theorem Trace.tail (htrace : graph.Trace (t :: src :: past)) : graph.Trace (src :: past) := by
  cases htrace with
  | step hpast _ => exact hpast

/-- The part of a list from the earliest occurrence of a vertex on. -/
theorem exists_earliest [DecidableEq V] (hmem : vertex ∈ past) :
    ∃ later earlier, past = later ++ vertex :: earlier ∧ vertex ∉ earlier := by
  induction past with
  | nil => simp at hmem
  | cons head tail ih =>
    by_cases htail : vertex ∈ tail
    · obtain ⟨later, earlier, heq, hearlier⟩ := ih htail
      exact ⟨head :: later, earlier, by rw [heq, cons_append], hearlier⟩
    · have hhead : vertex = head := by simpa [htail] using hmem
      subst hhead
      exact ⟨[], tail, rfl, htail⟩

/-- A reachable vertex has a trace that visits it only at its end. -/
theorem Trace.exists_first_visit [DecidableEq V] (htrace : graph.Trace (vertex :: past)) :
    ∃ past', graph.Trace (vertex :: past') ∧ vertex ∉ past' := by
  obtain ⟨later, earlier, heq, hearlier⟩ :=
    exists_earliest (mem_cons_self (a := vertex) (l := past))
  rw [heq] at htrace
  exact ⟨earlier, htrace.drop_latest, hearlier⟩

/-- A latest vertex does not depend on the past. -/
theorem exists_cons_of_append {point : V} {rest : List V}
    (hsplit : point :: rest = later ++ vertex :: past) :
    ∃ rest', later ++ vertex :: past' = point :: rest' := by
  cases later with
  | nil =>
    rw [nil_append, cons.injEq] at hsplit
    exact ⟨past', by rw [hsplit.1, nil_append]⟩
  | cons head tail =>
    rw [cons_append, cons.injEq] at hsplit
    exact ⟨tail ++ vertex :: past', by rw [hsplit.1, cons_append]⟩

theorem dominates_refl (vertex : V) : graph.Dominates vertex vertex := fun _ _ => mem_cons_self

section

variable {definition use point : V} {rest : List V} (hdefinition : graph.Dominates definition use)
  (huse : graph.Dominates use point) (htrace : graph.Trace (point :: rest))

include hdefinition huse htrace

/-- Between the last execution of `use` and a point that `use` dominates, a
dominator of `use` is not executed again. -/
theorem mem_of_dominates_of_dominates [DecidableEq V]
    (hsplit : point :: rest = later ++ definition :: past) :
    use ∈ later ++ [definition] := by
  rw [hsplit] at htrace
  obtain ⟨past', hfirst, hnot⟩ := htrace.drop_latest.exists_first_visit
  -- The same later part after a past that visits `definition` for the first time.
  obtain ⟨rest', hrest'⟩ := exists_cons_of_append hsplit
  have hvis : use ∈ later ++ definition :: past' := by
    rw [hrest']
    exact huse _ (hrest' ▸ htrace.splice hfirst)
  have habsent : use ∉ past' := by
    intro hmem
    obtain ⟨front, back, rfl⟩ := append_of_mem hmem
    have hfront : graph.Trace ((definition :: front) ++ use :: back) := hfirst
    have hmem := hdefinition _ hfront.drop_latest
    exact hnot (mem_append_right _ hmem)
  simp only [List.mem_append, List.mem_cons, habsent, or_false] at hvis
  simpa using hvis

/-- After the latest visit of a vertex, what strictly dominates it is not visited. -/
theorem notMem_later_of_dominates [DecidableEq V] (hne : definition ≠ use)
    (hsplit : point :: rest = later ++ use :: past) (hlatest : use ∉ later) :
    definition ∉ later := by
  intro hmem
  obtain ⟨front, back, rfl⟩ := append_of_mem hmem
  rw [append_assoc, cons_append] at hsplit
  have hagain := mem_of_dominates_of_dominates hdefinition huse htrace hsplit
  rcases mem_append.mp hagain with hfront | heq
  · exact hlatest (mem_append_left _ hfront)
  · exact hne (List.mem_singleton.mp heq).symm

end

theorem Dominates.trans [DecidableEq V] {third : V}
    (hfirst : graph.Dominates first second) (hsnd : graph.Dominates second third) :
    graph.Dominates first third := by
  intro past htrace
  obtain ⟨front, back, heq⟩ := append_of_mem (hsnd _ htrace)
  rw [heq] at htrace
  have := hfirst _ htrace.drop_latest
  rw [heq]
  exact mem_append_right front this

theorem Dominates.antisymm [DecidableEq V] (hreach : graph.Reachable second)
    (hfirst : graph.Dominates first second) (hsnd : graph.Dominates second first) :
    first = second := by
  obtain ⟨past, htrace⟩ := hreach
  obtain ⟨past', htrace', hnot⟩ := htrace.exists_first_visit
  by_contra hne
  have hmem := (mem_cons.mp (hfirst _ htrace')).resolve_left hne
  obtain ⟨front, back, rfl⟩ := append_of_mem hmem
  have hcut : graph.Trace ((second :: front) ++ first :: back) := htrace'
  have hback := hsnd _ hcut.drop_latest
  exact hnot (mem_append_right _ hback)

/-- A strict dominator of a vertex dominates its predecessors. -/
theorem Dominates.of_edge (hdom : graph.Dominates dom t)
    (hne : dom ≠ t) (hedge : t ∈ graph.succs src) : graph.Dominates dom src := by
  intro past htrace
  exact (mem_cons.mp (hdom _ (.step htrace hedge))).resolve_left hne

/-- Vertices that can be numbered so that each has an edge from an earlier one are
reachable. -/
theorem reachable_of_earlier [LT V] [WellFoundedLT V] (hearlier : ∀ vertex, vertex = graph.entry ∨
      ∃ src, src < vertex ∧ vertex ∈ graph.succs src) (vertex : V) :
    graph.Reachable vertex := by
  induction vertex using WellFoundedLT.induction with
  | ind vertex ih =>
    rcases hearlier vertex with rfl | ⟨src, hlt, hedge⟩
    · exact ⟨[], .entry⟩
    · obtain ⟨past, htrace⟩ := ih _ hlt
      exact ⟨src :: past, .step htrace hedge⟩

/-! ## Deciding dominance

On a finite vertex set the vertices reachable without meeting `avoided` are the
least set that contains the entry and is closed under the remaining edges. It
is reached after as many rounds as there are vertices. -/

section Decidable

variable [DecidableEq V]

variable (graph) in
/-- The vertices of `known` and their successors other than `avoided`. -/
def expand (avoided : V) (known : Finset V) : Finset V :=
  known ∪ known.biUnion fun vertex => (graph.succs vertex).toFinset.erase avoided

variable (graph) in
def reachableAvoiding [Fintype V] (avoided : V) : Finset V :=
  (graph.expand avoided)^[Fintype.card V] ({graph.entry} \ {avoided})

theorem subset_expand (avoided : V) (known : Finset V) : known ⊆ graph.expand avoided known :=
  subset_union_left

variable {avoided : V} {known : Finset V}

/-- A set that is not yet closed grows. -/
theorem card_lt_card_expand (hopen : graph.expand avoided known ≠ known) :
    known.card < (graph.expand avoided known).card :=
  card_lt_card ((subset_expand avoided known).ssubset_of_ne hopen.symm)

theorem iterate_expand_closed_or_large (avoided : V) (known : Finset V) (rounds : ℕ) :
    graph.expand avoided ((graph.expand avoided)^[rounds] known) =
        (graph.expand avoided)^[rounds] known ∨
      rounds < ((graph.expand avoided)^[rounds + 1] known).card := by
  induction rounds with
  | zero =>
    by_cases hclosed : graph.expand avoided known = known
    · exact .inl hclosed
    · exact .inr (Nat.zero_lt_of_lt (card_lt_card_expand hclosed))
  | succ rounds ih =>
    simp only [iterate_succ', comp_apply] at ih ⊢
    rcases ih with hclosed | hlarge
    · exact .inl (by rw [hclosed, hclosed])
    · set reached := graph.expand _ ((graph.expand avoided)^[rounds] known)
      by_cases hclosed : graph.expand avoided reached = reached
      · exact .inl hclosed
      · exact .inr (Nat.lt_of_le_of_lt hlarge (card_lt_card_expand hclosed))

theorem expand_reachableAvoiding [Fintype V] (avoided : V) :
    graph.expand avoided (graph.reachableAvoiding avoided) = graph.reachableAvoiding avoided := by
  rcases graph.iterate_expand_closed_or_large avoided
    ({graph.entry} \ {avoided}) (Fintype.card V) with hclosed | hlarge
  · exact hclosed
  · exact absurd hlarge (Nat.not_lt.mpr (card_le_univ _))

theorem subset_iterate_expand (avoided : V) (known : Finset V) (rounds : ℕ) :
    known ⊆ (graph.expand avoided)^[rounds] known := by
  induction rounds with
  | zero => exact Finset.Subset.refl known
  | succ rounds ih =>
    rw [iterate_succ', comp_apply]
    exact ih.trans (subset_expand avoided _)

theorem mem_expand : vertex ∈ graph.expand avoided known ↔ vertex ∈ known ∨
        ∃ src ∈ known, vertex ≠ avoided ∧ vertex ∈ graph.succs src := by
  simp [expand]

theorem exists_trace_of_mem_iterate_expand (rounds : ℕ)
    (hmem : vertex ∈ (graph.expand avoided)^[rounds] ({graph.entry} \ {avoided})) :
    ∃ past, graph.Trace (vertex :: past) ∧ avoided ∉ vertex :: past := by
  induction rounds generalizing vertex with
  | zero =>
    simp only [iterate_zero, id, mem_sdiff, Finset.mem_singleton] at hmem
    obtain ⟨rfl, hne⟩ := hmem
    exact ⟨[], .entry, by simpa using Ne.symm hne⟩
  | succ rounds ih =>
    rw [iterate_succ', comp_apply, mem_expand] at hmem
    rcases hmem with hmem | ⟨src, hsrc, hne, hedge⟩
    · exact ih hmem
    · obtain ⟨past, htrace, havoid⟩ := ih hsrc
      exact ⟨src :: past, .step htrace hedge, not_mem_cons_of_ne_of_not_mem hne.symm havoid⟩

theorem Trace.mem_reachableAvoiding [Fintype V] {trace : List V} (htrace : graph.Trace trace)
    (havoid : avoided ∉ trace) : ∀ vertex ∈ trace, vertex ∈ graph.reachableAvoiding avoided := by
  induction htrace with
  | entry =>
    intro vertex hvertex
    obtain rfl : vertex = graph.entry := by simpa using hvertex
    refine subset_iterate_expand avoided _ _ ?_
    simpa [eq_comm] using havoid
  | @step src t past _ hedge ih =>
    have ih := ih fun hmem => havoid (mem_cons_of_mem _ hmem)
    have hne : t ≠ avoided := fun heq => havoid (by simp [heq])
    intro vertex hvertex
    rcases mem_cons.mp hvertex with rfl | hpast
    · rw [← expand_reachableAvoiding, mem_expand]
      exact .inr ⟨src, ih src mem_cons_self, hne, hedge⟩
    · exact ih _ hpast

theorem mem_reachableAvoiding [Fintype V] : vertex ∈ graph.reachableAvoiding avoided ↔
      ∃ past, graph.Trace (vertex :: past) ∧ avoided ∉ vertex :: past :=
  ⟨exists_trace_of_mem_iterate_expand _, fun ⟨_, htrace, havoid⟩ =>
    htrace.mem_reachableAvoiding havoid vertex mem_cons_self⟩

theorem dominates_iff_notMem_reachableAvoiding [Fintype V] {t : V} :
    graph.Dominates dom t ↔ t ∉ graph.reachableAvoiding dom := by
  rw [mem_reachableAvoiding]
  push Not
  rfl

instance [Fintype V] (dominator target : V) : Decidable (graph.Dominates dominator target) :=
  decidable_of_iff _ dominates_iff_notMem_reachableAvoiding.symm

variable (graph) in
def dominatorCount [Fintype V] (vertex : V) : ℕ :=
  (univ.filter fun dominator => graph.Dominates dominator vertex).card

theorem dominatorCount_lt [Fintype V] (hreach : graph.Reachable vertex)
    (hdom : graph.Dominates dom vertex) (hne : dom ≠ vertex) :
    graph.dominatorCount dom < graph.dominatorCount vertex := by
  apply card_lt_card
  rw [ssubset_iff_of_subset]
  · refine ⟨vertex, by simp [dominates_refl], ?_⟩
    simp only [Finset.mem_filter, Finset.mem_univ, true_and]
    exact fun hback => hne (hdom.antisymm hreach hback)
  · intro other
    simp only [Finset.mem_filter, Finset.mem_univ, true_and]
    exact fun hother => hother.trans hdom

end Decidable

end FlowGraph

end NougatArt
