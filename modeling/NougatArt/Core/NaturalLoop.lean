import NougatArt.Core.FlowGraph

/-!
# Natural loops and their iterations

A natural loop is entered through its header only. A path that stays in the
loop is cut at its visits of the header into completed iterations and the one
in progress. A vertex that dominates every back edge is visited in each completed
iteration; if it belongs to no inner loop, no iteration visits it twice, hence
the number of its visits is known up to the iteration in progress.
-/

namespace NougatArt

open List Nat

universe u

/-- A set of vertices that control can enter at the header only. -/
structure NaturalLoop {V : Type u} (graph : FlowGraph V) where
  header : V
  body : Finset V
  header_mem : header ∈ body
  entry_notMem : graph.entry ∉ body
  header_reachable : graph.Reachable header
  entered_at_header : ∀ source target, target ∈ graph.succs source →
    target ∈ body → target ≠ header → source ∈ body

namespace NaturalLoop

variable {V : Type u} {graph : FlowGraph V} (loop : NaturalLoop graph)

/-- One iteration, the latest vertex first: it starts at the header and does
not come back to it. -/
inductive Iteration : List V → Prop
  | start : Iteration [loop.header]
  | step {source target : V} {past : List V} :
      Iteration (source :: past) → target ∈ graph.succs source →
      target ∈ loop.body → target ≠ loop.header →
      Iteration (target :: source :: past)

def BackEdge (source : V) : Prop := source ∈ loop.body ∧ loop.header ∈ graph.succs source

/-- The vertex belongs to the loop and dominates each of its back edges. -/
def PerIteration (vertex : V) : Prop :=
  vertex ∈ loop.body ∧ ∀ source, loop.BackEdge source → graph.Dominates vertex source

/-- No vertex is visited twice in one iteration: the loop has no inner loop. -/
def Innermost : Prop := ∀ path, loop.Iteration path → path.Nodup

/-- No vertex that dominates each back edge can be met again before the header is: it belongs to no
inner loop. -/
def PerIterationOnce : Prop := ∀ vertex later past, loop.PerIteration vertex →
  ¬ loop.Iteration (vertex :: (later ++ vertex :: past))

variable {loop}

variable {path : List V}

theorem Iteration.mem_body (hpath : loop.Iteration path) : ∀ vertex ∈ path, vertex ∈ loop.body := by
  induction hpath with
  | start => simpa using loop.header_mem
  | step _ _ hbody _ ih =>
    intro vertex hvertex
    rcases mem_cons.mp hvertex with rfl | hpast
    · exact hbody
    · exact ih _ hpast

theorem Iteration.count_header [DecidableEq V] (hpath : loop.Iteration path) :
    path.count loop.header = 1 := by
  induction hpath with
  | start => simp
  | step _ _ _ hne ih => rw [count_cons_of_ne hne, ih]

/-- Before its first loop vertex, a trace is outside of the loop, and that
vertex is the header. -/
theorem exists_entering_trace_of_trace {trace : List V} (htrace : graph.Trace trace)
    (hmeets : ∃ vertex ∈ trace, vertex ∈ loop.body) : ∃ past, graph.Trace (loop.header :: past) ∧
      ∀ vertex ∈ past, vertex ∉ loop.body := by
  induction htrace with
  | entry =>
    obtain ⟨vertex, hvertex, hbody⟩ := hmeets
    obtain rfl : vertex = graph.entry := by simpa using hvertex
    exact absurd hbody loop.entry_notMem
  | @step src t past htrace hedge ih =>
    by_cases hpast : ∃ vertex ∈ src :: past, vertex ∈ loop.body
    · exact ih hpast
    · push Not at hpast
      have htarget : t ∈ loop.body := by
        obtain ⟨vertex, hvertex, hbody⟩ := hmeets
        rcases mem_cons.mp hvertex with rfl | hmem
        · exact hbody
        · exact absurd hbody (hpast _ hmem)
      have hheader : t = loop.header := by
        by_contra hne
        exact hpast src mem_cons_self (loop.entered_at_header _ _ hedge htarget hne)
      subst hheader
      exact ⟨src :: past, .step htrace hedge, hpast⟩

variable (loop) in
theorem exists_entering_trace : ∃ past, graph.Trace (loop.header :: past) ∧
      ∀ vertex ∈ past, vertex ∉ loop.body := by
  obtain ⟨past, htrace⟩ := loop.header_reachable
  exact exists_entering_trace_of_trace htrace ⟨loop.header, mem_cons_self, loop.header_mem⟩

/-- An iteration is the end of a trace that met the loop in no other vertex. -/
theorem Iteration.exists_trace (hpath : loop.Iteration path) :
    ∃ past, graph.Trace (path ++ past) ∧ ∀ vertex ∈ past, vertex ∉ loop.body := by
  induction hpath with
  | start => simpa using loop.exists_entering_trace
  | step _ hedge _ _ ih =>
    obtain ⟨past, htrace, hout⟩ := ih
    exact ⟨past, .step htrace hedge, hout⟩

variable {vertex point exit : V} {past : List V}

section

variable (hpath : loop.Iteration (point :: past)) (hbody : vertex ∈ loop.body)

include hpath hbody

/-- What dominates the point an iteration has reached, and belongs to the loop,
was visited in this iteration. -/
theorem Iteration.mem_of_dominates (hdom : graph.Dominates vertex point) :
    vertex ∈ point :: past := by
  obtain ⟨before, htrace, hout⟩ := hpath.exists_trace
  have hmem : vertex ∈ (point :: past) ++ before := hdom _ htrace
  rcases mem_append.mp hmem with hpath | hbefore
  · exact hpath
  · exact absurd hbody (hout _ hbefore)

/-- The same for a point outside of the loop that the iteration leaves to. -/
theorem Iteration.mem_of_dominates_exit (hedge : exit ∈ graph.succs point)
    (hexit : exit ∉ loop.body) (hdom : graph.Dominates vertex exit) : vertex ∈ point :: past := by
  obtain ⟨before, htrace, hout⟩ := hpath.exists_trace
  have hmem : vertex ∈ exit :: ((point :: past) ++ before) := hdom _ (htrace.step hedge)
  rcases mem_cons.mp hmem with rfl | hmem
  · exact absurd hbody hexit
  rcases mem_append.mp hmem with hpath | hbefore
  · exact hpath
  · exact absurd hbody (hout _ hbefore)

end

variable {later : List V}

theorem Iteration.drop_latest (hpath : loop.Iteration (later ++ vertex :: past)) :
    loop.Iteration (vertex :: past) := by
  induction later with
  | nil => exact hpath
  | cons head tail ih =>
    apply ih
    cases tail with
    | nil | cons next rest =>
      cases hpath with
      | step hpast _ _ _ => exact hpast

theorem Iteration.splice {past' : List V} (hpath : loop.Iteration (later ++ vertex :: past))
    (hpast : loop.Iteration (vertex :: past')) : loop.Iteration (later ++ vertex :: past') := by
  induction later with
  | nil => exact hpast
  | cons head tail ih =>
    cases tail with
    | nil | cons next rest =>
      cases hpath with
      | step hrest hedge hbody hne => exact .step (ih hrest) hedge hbody hne

theorem PerIterationOnce.notMem (honce : loop.PerIterationOnce) {rest : List V}
    (hpath : loop.Iteration (later ++ rest)) (hvertex : loop.PerIteration vertex)
    (hmem : vertex ∈ rest) : vertex ∉ later := by
  intro hlater
  obtain ⟨front, between, rfl⟩ := append_of_mem hlater
  obtain ⟨middle, before, rfl⟩ := append_of_mem hmem
  rw [append_assoc, cons_append] at hpath
  refine honce vertex (between ++ middle) before hvertex ?_
  simpa using hpath.drop_latest

theorem PerIterationOnce.count_le_one [DecidableEq V] (honce : loop.PerIterationOnce)
    (hpath : loop.Iteration path) (hvertex : loop.PerIteration vertex) :
    path.count vertex ≤ 1 := by
  by_contra hnot
  have hmem : vertex ∈ path := count_pos_iff.mp (by omega)
  obtain ⟨front, before, rfl, hfront⟩ := eq_append_cons_of_mem hmem
  have hbefore : vertex ∈ before := by
    rw [count_append, count_cons_self, count_eq_zero_of_not_mem hfront] at hnot
    exact count_pos_iff.mp (by omega)
  have hsplit : loop.Iteration ((front ++ [vertex]) ++ before) := by simpa using hpath
  exact honce.notMem hsplit hvertex hbefore (by simp)

theorem Innermost.perIterationOnce (hinner : loop.Innermost) : loop.PerIterationOnce := by
  intro vertex later past _ hpath
  have hnodup := hinner _ hpath
  simp at hnodup

/-- A reachable vertex of the loop is reached by some iteration. -/
theorem exists_iteration_of_trace (htrace : graph.Trace (vertex :: past))
    (hbody : vertex ∈ loop.body) : ∃ path, loop.Iteration (vertex :: path) := by
  induction past generalizing vertex with
  | nil =>
    cases htrace
    exact absurd hbody loop.entry_notMem
  | cons src past ih =>
    by_cases hheader : vertex = loop.header
    · subst hheader
      exact ⟨[], .start⟩
    · cases htrace with
      | step htrace hedge =>
        have hsrc := loop.entered_at_header _ _ hedge hbody hheader
        obtain ⟨path, hpath⟩ := ih htrace hsrc
        exact ⟨src :: path, .step hpath hedge hbody hheader⟩

/-- Consider an iteration that is about to leave the loop from `test`, the only
predecessor of `exit`. If `test` lies in every iteration, the per-iteration
vertices this iteration has visited are those that dominate `exit`. -/
theorem Iteration.mem_iff_dominates_exit {test back : V} (honce : loop.PerIterationOnce)
    (hpath : loop.Iteration (test :: past)) (hedge : exit ∈ graph.succs test)
    (hexit : exit ∉ loop.body) (hentry : exit ≠ graph.entry)
    (honly : ∀ src, exit ∈ graph.succs src → src = test) (hback : loop.BackEdge back)
    (hreach : graph.Reachable back) (htest : loop.PerIteration test)
    (hvertex : loop.PerIteration vertex) : vertex ∈ test :: past ↔ graph.Dominates vertex exit := by
  refine ⟨fun hmem => ?_, hpath.mem_of_dominates_exit hvertex.1 hedge hexit⟩
  by_contra hnot
  -- A trace to the exit that avoids `vertex`; it comes through `test`.
  simp only [FlowGraph.Dominates, not_forall] at hnot
  obtain ⟨trace, htrace, havoid⟩ := hnot
  obtain ⟨before, rfl⟩ : ∃ before, trace = test :: before := by
    cases htrace with
    | entry => exact absurd rfl hentry
    | @step src _ before _ hedge => exact ⟨before, by rw [honly _ hedge]⟩
  -- From `test` some iteration reaches the back edge without meeting `vertex`.
  obtain ⟨_, hbackTrace⟩ := hreach
  obtain ⟨path, hbackPath⟩ := exists_iteration_of_trace hbackTrace hback.1
  have htestMem := hbackPath.mem_of_dominates htest.1 (htest.2 _ hback)
  obtain ⟨later, earlier, hsplit⟩ := append_of_mem htestMem
  rw [hsplit] at hbackPath
  have hlater : vertex ∉ later := honce.notMem (hbackPath.splice hpath) hvertex hmem
  -- Pasting the two leads to the back edge past `vertex`, which dominates it.
  obtain ⟨outside, hfull, -⟩ := hbackPath.exists_trace
  rw [append_assoc, cons_append] at hfull
  have htestTrace : graph.Trace (test :: before) := by
    cases htrace with
    | step htestTrace _ => exact htestTrace
  have hpasted := hfull.splice htestTrace
  obtain ⟨rest, hrest⟩ := FlowGraph.exists_cons_of_append hsplit
  rw [hrest] at hpasted
  have hvis := hvertex.2 _ hback _ hpasted
  rw [← hrest, mem_append] at hvis
  exact hvis.elim hlater fun hbefore => havoid (mem_cons_of_mem _ hbefore)

/-- A ranking that grows along every edge of the loop other than its back edges
rules out inner loops. -/
theorem innermost_of_rank (rank : V → ℕ) (hrank : ∀ src ∈ loop.body, ∀ t ∈ graph.succs src,
      t ∈ loop.body → t ≠ loop.header → rank src < rank t) : loop.Innermost := by
  intro path hpath
  have hsorted : path.Pairwise fun later earlier => rank earlier < rank later := by
    induction hpath with
    | start => simp
    | @step src t past hpast hedge hbody hne ih =>
      have hlt := hrank _ (hpast.mem_body _ mem_cons_self) _ hedge hbody hne
      refine pairwise_cons.mpr ⟨fun vertex hvertex => ?_, ih⟩
      rcases mem_cons.mp hvertex with rfl | hmem
      · exact hlt
      · exact (rel_of_pairwise_cons ih hmem).trans hlt
  exact hsorted.imp fun hlt heq => by simp [heq] at hlt

/-! ## Cutting a path into iterations -/

section Cut

variable [DecidableEq V]

variable (loop) in
/-- `path` is the iteration in progress after the completed ones, and the
completed ones visited each per-iteration vertex as often as the header. -/
structure CutAt (path current completed : List V) : Prop where
  append : path = current ++ completed
  iteration : loop.Iteration current
  counted : ∀ vertex, loop.PerIteration vertex →
    completed.count vertex = completed.count loop.header

theorem CutAt.enter : loop.CutAt [loop.header] [loop.header] [] where
  append := rfl
  iteration := .start
  counted _ _ := rfl

variable {cur completed : List V} {src : V}

theorem CutAt.step_inside {t : V} (hcut : loop.CutAt path (src :: cur) completed)
    (hedge : t ∈ graph.succs src) (hbody : t ∈ loop.body) (hne : t ≠ loop.header) :
    loop.CutAt (t :: path) (t :: src :: cur) completed where
  append := by rw [hcut.append]; rfl
  iteration := .step hcut.iteration hedge hbody hne
  counted := hcut.counted

theorem Iteration.count_of_back_edge (honce : loop.PerIterationOnce) {past : List V}
    (hpath : loop.Iteration (src :: past)) (hedge : loop.header ∈ graph.succs src)
    {vertex : V} (hvertex : loop.PerIteration vertex) : (src :: past).count vertex = 1 := by
  have hback : loop.BackEdge src := ⟨hpath.mem_body src mem_cons_self, hedge⟩
  have hmem := hpath.mem_of_dominates hvertex.1 (hvertex.2 _ hback)
  exact le_antisymm (honce.count_le_one hpath hvertex) (count_pos_iff.mpr hmem)

/-- Going back to the header completes the iteration in progress. -/
theorem CutAt.step_back (honce : loop.PerIterationOnce)
    (hcut : loop.CutAt path (src :: cur) completed) (hedge : loop.header ∈ graph.succs src) :
    loop.CutAt (loop.header :: path) [loop.header] path where
  append := rfl
  iteration := .start
  counted := by
    intro vertex hvertex
    rw [hcut.append, count_append, count_append,
      hcut.iteration.count_of_back_edge honce hedge hvertex,
      hcut.iteration.count_header, hcut.counted _ hvertex]

theorem CutAt.count_header (hcut : loop.CutAt path cur completed) :
    path.count loop.header = completed.count loop.header + 1 := by
  rw [hcut.append, count_append, hcut.iteration.count_header, add_comm]

end Cut

/-! ## The edges of a loop over numbered vertices -/

section Edges

variable {vertices : ℕ} {graph : FlowGraph (Fin vertices)} (loop : NaturalLoop graph)

def vertexList : List (Fin vertices) := (finRange vertices).filter (· ∈ loop.body)

def exitTargets : List (Fin vertices) :=
  loop.vertexList.flatMap fun vertex => (graph.succs vertex).filter (· ∉ loop.body)

def onlyExit : Option (Fin vertices) :=
  match loop.exitTargets with
  | [exit] => some exit
  | _ => none

def backEdgeList : List (Fin vertices) :=
  loop.vertexList.filter fun vertex => loop.header ∈ graph.succs vertex

variable {loop} {vertex exit : Fin vertices}

theorem mem_vertexList : vertex ∈ loop.vertexList ↔ vertex ∈ loop.body := by
  simp [vertexList]

theorem mem_backEdgeList : vertex ∈ loop.backEdgeList ↔ loop.BackEdge vertex := by
  rw [backEdgeList, mem_filter, mem_vertexList, decide_eq_true_eq]
  rfl

theorem exitTargets_of_onlyExit (hexit : loop.onlyExit = some exit) :
    loop.exitTargets = [exit] := by
  rw [onlyExit] at hexit
  split at hexit
  next hedges =>
    rw [hedges, Option.some.inj hexit]
  · cases hexit

theorem eq_of_onlyExit {src t : Fin vertices} (hexit : loop.onlyExit = some exit)
    (hsrc : src ∈ loop.body) (hedge : t ∈ graph.succs src) (hout : t ∉ loop.body) : t = exit := by
  have hmem : t ∈ loop.exitTargets :=
    mem_flatMap.mpr ⟨src, mem_vertexList.mpr hsrc, mem_filter.mpr ⟨hedge, decide_eq_true hout⟩⟩
  rw [exitTargets_of_onlyExit hexit] at hmem
  exact mem_singleton.mp hmem

end Edges

end NaturalLoop

end NougatArt
