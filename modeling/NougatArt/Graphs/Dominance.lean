import NougatArt.Graphs.BackEdges
import NougatArt.Graphs.DominatorTree

/-!
# Dominance information

`ComputeDominanceInformation` visits a block once all its edges other than back edges
were visited, and updates the dominator of the end of every edge. If a back edge is not
dominated by its header, the edges are visited again until no dominator changes.
-/

namespace NougatArt.Graphs

open Option

open List Function Nat

variable {count : ℕ} {graph : FlowGraph (Fin count)}

def predecessorCount (graph : FlowGraph (Fin count)) (block : Fin count) : ℕ :=
  ∑ predecessor, (graph.succs predecessor).count block

/-- The variables of the first loop of `ComputeDominanceInformation`, and the dominators. The
last block of the worklist comes first. -/
structure DominanceSearch (count : ℕ) where
  visits : Fin count → ℕ
  successorsVisited : Fin count → ℕ
  worklist : List (Fin count)
  reversePostOrder : List (Fin count)
  dominator : Dominators count

namespace DominanceSearch

def start (graph : FlowGraph (Fin count)) : DominanceSearch count where
  visits := fun _ => 0
  successorsVisited := fun _ => 0
  worklist := [graph.entry]
  reversePostOrder := [graph.entry]
  dominator := fun _ => none

def isDone (search : DominanceSearch count) : Bool := search.worklist.isEmpty

def pop (search : DominanceSearch count) : DominanceSearch count :=
  { search with worklist := search.worklist.tail }

def countEdge (search : DominanceSearch count) (current successor : Fin count)
    (dominator : Dominators count) : DominanceSearch count :=
  { search with
    visits := Function.update search.visits successor (search.visits successor + 1)
    successorsVisited := Function.update search.successorsVisited current
      (search.successorsVisited current + 1)
    dominator := dominator }

def push (search : DominanceSearch count) (successor : Fin count) : DominanceSearch count :=
  { search with
    reversePostOrder := search.reversePostOrder ++ [successor]
    worklist := successor :: search.worklist }

variable (graph : FlowGraph (Fin count)) (backEdges : Fin count → List (Fin count)) (fuel : ℕ)

/-- The number of visits after which the successors of a block are visited. -/
def neededVisits (block : Fin count) : ℕ := predecessorCount graph block - (backEdges block).length

def visitSuccessor (search : DominanceSearch count) (current successor : Fin count) :
    Option (DominanceSearch count) :=
  (updateDominatorOfSuccessor fuel search.dominator current successor).map fun result =>
    let search := search.countEdge current successor result.2
    if search.visits successor = neededVisits graph backEdges successor then
      search.push successor
    else
      search

def body (search : DominanceSearch count) : Option (DominanceSearch count) :=
  match search.worklist with
  | [] => none
  | current :: _ =>
    if search.successorsVisited current = (graph.succs current).length then
      some search.pop
    else
      match (graph.succs current)[search.successorsVisited current]? with
      | none => none
      | some successor => search.visitSuccessor graph backEdges fuel current successor

end DominanceSearch

/-- `HBasicBlock::Dominates`: one block is met on the walk up from another one. -/
def dominatesBlock (dominator : Dominators count) (block : Fin count) :
    ℕ → Option (Fin count) → Option Bool
  | _, none => some false
  | 0, some _ => none
  | fuel + 1, some current =>
    if current = block then some true else dominatesBlock dominator block fuel (dominator current)

/-- Whether one of the back edges, given with their headers, is not dominated by its header. -/
def hasBackEdgeNotDominatedByHeader (fuel : ℕ) (dominator : Dominators count) :
    List (Fin count × Fin count) → Option Bool
  | [] => some false
  | (header, backEdge) :: rest =>
    (dominatesBlock dominator header fuel (some backEdge)).bind fun isDominated =>
      if isDominated then hasBackEdgeNotDominatedByHeader fuel dominator rest else some true

def allBackEdges (backEdges : Fin count → List (Fin count)) : List (Fin count × Fin count) :=
  (List.finRange count).flatMap fun header => (backEdges header).map fun block => (header, block)

def edgesFrom (graph : FlowGraph (Fin count)) (blocks : List (Fin count)) :
    List (Fin count × Fin count) :=
  blocks.flatMap fun block => (graph.succs block).map fun successor => (block, successor)

def updateEdge (fuel : ℕ) (state : Bool × Dominators count) (edge : Fin count × Fin count) :
    Option (Bool × Dominators count) :=
  (updateDominatorOfSuccessor fuel state.2 edge.1 edge.2).map fun result =>
    (state.1 || result.1, result.2)

def updateEdges (fuel : ℕ) (edges : List (Fin count × Fin count))
    (state : Bool × Dominators count) : Option (Bool × Dominators count) :=
  edges.foldlM (updateEdge fuel) (false, state.2)

/-- `ComputeDominanceInformation`, with the reverse post order and the dominators. `fuel` bounds
the walks up the dominators and the rounds of the fix-point iteration. -/
def computeDominanceInformation (fuel : ℕ) (graph : FlowGraph (Fin count))
    (backEdges : Fin count → List (Fin count)) : Option (List (Fin count) × Dominators count) := do
  let search ← whileLoop DominanceSearch.isDone (DominanceSearch.body graph backEdges fuel)
    (2 * edgeCount graph + 1) (DominanceSearch.start graph)
  let mustRunFixPoint ←
    hasBackEdgeNotDominatedByHeader fuel search.dominator (allBackEdges backEdges)
  if mustRunFixPoint then
    let last ← whileLoop (fun state => !state.1)
      (updateEdges fuel (edgesFrom graph search.reversePostOrder)) fuel (true, search.dominator)
    return (search.reversePostOrder, last.2)
  else
    return (search.reversePostOrder, search.dominator)

namespace DominanceSearch

variable {graph : FlowGraph (Fin count)} {backEdges : Fin count → List (Fin count)}

def exploredCount (graph : FlowGraph (Fin count)) (search : DominanceSearch count)
    (block successor : Fin count) : ℕ :=
  ((graph.succs block).take (search.successorsVisited block)).count successor

variable (graph backEdges) in
/-- How many copies of an edge there are, for edges other than back edges. -/
def forwardCount (block successor : Fin count) : ℕ :=
  if block ∈ backEdges successor then 0 else (graph.succs block).count successor

theorem neededVisits_eq (hmarks : MarksBackEdges graph backEdges) (successor : Fin count) :
    neededVisits graph backEdges successor = ∑ b, forwardCount graph backEdges b successor := by
  have hlen : (backEdges successor).length = ∑ b, (backEdges successor).count b := by
    have hsum := Multiset.sum_count_eq_card (s := Finset.univ)
      (m := Multiset.ofList (backEdges successor)) (fun _ _ => Finset.mem_univ _)
    simpa using hsum.symm
  have hsplit : predecessorCount graph successor =
      (∑ b, forwardCount graph backEdges b successor) + (backEdges successor).length := by
    rw [hlen, ← Finset.sum_add_distrib, predecessorCount]
    refine Finset.sum_congr rfl fun b _ => ?_
    rw [forwardCount]
    by_cases hmarked : b ∈ backEdges successor
    · rw [if_pos hmarked, zero_add, hmarks.countBack _ _ hmarked]
    · rw [if_neg hmarked, count_eq_zero_of_not_mem hmarked, add_zero]
  rw [neededVisits, hsplit, Nat.add_sub_cancel]

variable (graph backEdges) in
/-- Every visited edge is settled, or a back edge will be found that its header does not
dominate. -/
def IsSettled (search : DominanceSearch count) : Prop :=
  (∀ block successor, search.exploredCount graph block successor ≠ 0 →
    Settled search.dominator block successor) ∨
  ∃ block header, block ∈ backEdges header ∧ block ∈ search.reversePostOrder ∧
    ¬ IsAncestor search.dominator header block

variable (graph backEdges) in
structure Counted (search : DominanceSearch count) : Prop where
  nodup : search.reversePostOrder.Nodup
  entry : graph.entry ∈ search.reversePostOrder
  nodupWorklist : search.worklist.Nodup
  worklist : search.worklist ⊆ search.reversePostOrder
  bound : ∀ block, search.successorsVisited block ≤ (graph.succs block).length
  unvisited : ∀ block, block ∉ search.reversePostOrder → search.successorsVisited block = 0
  complete : ∀ block ∈ search.reversePostOrder, block ∉ search.worklist →
    search.successorsVisited block = (graph.succs block).length
  visits : ∀ block,
    search.visits block = ∑ predecessor, search.exploredCount graph predecessor block
  pushed : ∀ block ∈ search.reversePostOrder, ∀ predecessor,
    ForwardEdge graph backEdges predecessor block →
      search.reversePostOrder.idxOf predecessor < search.reversePostOrder.idxOf block ∧
      search.exploredCount graph predecessor block = (graph.succs predecessor).count block
  tree : DominatorTree graph search.dominator search.reversePostOrder
  settled : search.IsSettled graph backEdges

variable (graph backEdges) in
/-- The invariant of the first loop: the blocks not yet visited wait for an edge. -/
structure Invariant (search : DominanceSearch count) :
    Prop extends Counted graph backEdges search where
  waiting : ∀ block, block ∉ search.reversePostOrder →
    search.visits block < neededVisits graph backEdges block

variable {search : DominanceSearch count}

theorem Counted.mem_of_forwardEdge (hcounted : Counted graph backEdges search)
    {b pred : Fin count} (hblock : b ∈ search.reversePostOrder)
    (hedge : ForwardEdge graph backEdges pred b) : pred ∈ search.reversePostOrder := by
  have hlt := (hcounted.pushed _ hblock _ hedge).1
  exact idxOf_lt_length_iff.mp (hlt.trans (idxOf_lt_length_iff.mpr hblock))

/-- The source of a visited back edge is visited after its header. -/
theorem Counted.header_mem (hcounted : Counted graph backEdges search)
    (hmarks : MarksBackEdges graph backEdges) {b header : Fin count}
    (hblock : b ∈ search.reversePostOrder) (hmarked : b ∈ backEdges header) :
    header ∈ search.reversePostOrder := by
  have hpath := hmarks.path _ _ hmarked
  clear hmarked
  induction hpath using Relation.ReflTransGen.head_induction_on with
  | refl => exact hblock
  | head hedge _ ih => exact hcounted.mem_of_forwardEdge ih hedge

variable {successor cur : Fin count}

section

variable (hmarks : MarksBackEdges graph backEdges)

include hmarks

/-- The visited edges to a block that waits are not back edges. -/
theorem Counted.exploredCount_le (hcounted : Counted graph backEdges search)
    (hsucc : successor ∉ search.reversePostOrder)
    (b : Fin count) :
    search.exploredCount graph b successor ≤ forwardCount graph backEdges b successor := by
  rw [forwardCount]
  by_cases hmarked : b ∈ backEdges successor
  · have hblock : b ∉ search.reversePostOrder := fun hmem =>
      hsucc (hcounted.header_mem hmarks hmem hmarked)
    rw [exploredCount, hcounted.unvisited _ hblock]
    exact zero_le _
  · rw [if_neg hmarked]
    exact (take_sublist _ _).count_le _

/-- The visits of a block whose turn has come. -/
theorem Counted.neededVisits_le (hcounted : Counted graph backEdges search)
    (hsucc : successor ∈ search.reversePostOrder) :
    neededVisits graph backEdges successor ≤ search.visits successor := by
  rw [neededVisits_eq hmarks, hcounted.visits]
  refine Finset.sum_le_sum fun b _ => ?_
  rw [forwardCount]
  split_ifs with hmarked
  · exact zero_le _
  · by_cases hedge : successor ∈ graph.succs b
    · exact (hcounted.pushed _ hsucc b ⟨hedge, hmarked⟩).2.ge
    · rw [count_eq_zero_of_not_mem hedge]
      exact zero_le _

theorem invariant_start (hentry : ∀ b, graph.entry ∉ graph.succs b) :
    Invariant graph backEdges (start graph) := by
  have hzero : ∀ b successor, (start graph).exploredCount graph b successor = 0 := by
    intro b successor
    simp [exploredCount, start]
  refine ⟨⟨nodup_singleton _, mem_singleton_self _, nodup_singleton _,
    List.Subset.refl _, fun _ => zero_le _, fun _ _ => rfl,
    fun b hblock hnot => absurd hblock hnot, fun b => ?_, fun b hblock pred hedge => ?_,
    ⟨rfl, fun b hblock => ?_, by simp [start], by simp [start]⟩,
    .inl fun b successor hexplored => absurd (hzero b successor) hexplored⟩,
    fun b hblock => ?_⟩
  · exact (Finset.sum_eq_zero fun pred _ => hzero pred b).symm
  · obtain rfl := mem_singleton.mp hblock
    exact absurd hedge.1 (hentry pred)
  · obtain rfl := mem_singleton.mp hblock
    exact ⟨[graph.entry], .root rfl, mem_singleton_self _, List.Subset.refl _⟩
  · have hne : b ≠ graph.entry := fun heq => hblock (mem_singleton.mpr heq)
    obtain ⟨pred, hedge, hunmarked⟩ := hmarks.parent _ hne
    have hpositive : 0 < forwardCount graph backEdges pred b := by
      rw [forwardCount, if_neg hunmarked]
      exact count_pos_iff.mpr hedge
    rw [neededVisits_eq hmarks]
    exact hpositive.trans_le (Finset.single_le_sum
      (f := fun other => forwardCount graph backEdges other b) (fun _ _ => zero_le _)
      (Finset.mem_univ pred))

end

theorem Invariant.pop (hinv : Invariant graph backEdges search)
    {rest : List (Fin count)} (hwork : search.worklist = cur :: rest)
    (hall : search.successorsVisited cur = (graph.succs cur).length) :
    Invariant graph backEdges search.pop := by
  have htail : search.pop.worklist = rest := by
    simp [DominanceSearch.pop, hwork]
  have hnodup := hinv.nodupWorklist
  have hsubset := hinv.worklist
  rw [hwork] at hnodup hsubset
  refine ⟨⟨hinv.nodup, hinv.entry, ?_, ?_, hinv.bound, hinv.unvisited,
    fun b hblock hnot => ?_, hinv.visits, hinv.pushed, hinv.tree,
    hinv.settled⟩, hinv.waiting⟩
  · rw [htail]
    exact hnodup.of_cons
  · rw [htail]
    exact List.Subset.trans (subset_cons_self _ _) hsubset
  · rw [htail] at hnot
    by_cases heq : b = cur
    · exact heq ▸ hall
    · refine hinv.complete _ hblock fun hmem => ?_
      rw [hwork] at hmem
      exact hnot ((mem_cons.mp hmem).resolve_left heq)

section Visit

/-- An edge is visited, and a dominator of its end is found. -/
def visitEdge (search : DominanceSearch count) (current successor found : Fin count) :
    DominanceSearch count :=
  search.countEdge current successor (Function.update search.dominator successor (some found))

variable {rest : List (Fin count)}

theorem exploredCount_countEdge
    (hsucc : (graph.succs cur)[search.successorsVisited cur]? = some successor)
    (dom : Dominators count) (b next : Fin count) :
    (search.countEdge cur successor dom).exploredCount graph b next =
      search.exploredCount graph b next + if b = cur ∧ next = successor then 1 else 0 := by
  rw [exploredCount, exploredCount]
  change ((graph.succs b).take (update search.successorsVisited cur
    (search.successorsVisited cur + 1) b)).count next = _
  by_cases heq : b = cur
  · subst heq
    rw [update_self, take_add_one, hsucc, count_append]
    by_cases hnext : next = successor
    · simp [hnext]
    · simp [hnext, Ne.symm hnext]
  · simp [heq]

variable (hinv : Invariant graph backEdges search)
  (hentry : ∀ b, graph.entry ∉ graph.succs b)
  (hwork : search.worklist = cur :: rest)
  (hsucc : (graph.succs cur)[search.successorsVisited cur]? = some successor)
  {found : Fin count}
  (hupdate : DominatorTree.IsUpdate search.dominator search.reversePostOrder cur successor found)

include hwork in
theorem Invariant.current_mem (hinv : Invariant graph backEdges search) :
    cur ∈ search.reversePostOrder := by
  apply hinv.worklist
  rw [hwork]
  exact mem_cons_self

include hsucc in
theorem exploredCount_lt :
    search.exploredCount graph cur successor < (graph.succs cur).count successor := by
  have hcount := exploredCount_countEdge hsucc search.dominator cur successor
  rw [if_pos ⟨rfl, rfl⟩] at hcount
  have hle : (search.countEdge cur successor search.dominator).exploredCount graph cur
      successor ≤ (graph.succs cur).count successor := (take_sublist _ _).count_le _
  omega

include hinv hsucc in
/-- The edges to a block that was visited are back edges. -/
theorem Invariant.marked_of_mem (hmem : successor ∈ search.reversePostOrder) :
    cur ∈ backEdges successor := by
  by_contra hunmarked
  have hlt := exploredCount_lt hsucc
  have heq := (hinv.pushed _ hmem cur ⟨mem_of_getElem? hsucc, hunmarked⟩).2
  omega

include hinv hentry hwork hsucc hupdate

/-- Settled edges stay settled, or the new edge shows that the graph is irreducible. -/
theorem Invariant.isSettled_visitEdge :
    (search.visitEdge cur successor found).IsSettled graph backEdges := by
  have hcur := hinv.current_mem hwork
  have hne : successor ≠ graph.entry := fun heq => hentry cur (heq ▸ mem_of_getElem? hsucc)
  have htree := hinv.tree
  have hnew := htree.settled_update hupdate hne hcur
  -- It is enough to look at the edges that were visited before.
  have hclean : (∀ b next, search.exploredCount graph b next ≠ 0 →
        Settled (update search.dominator successor (some found)) b next) →
      (search.visitEdge cur successor found).IsSettled graph backEdges := by
    refine fun hold => .inl fun b next hexplored => ?_
    rw [visitEdge, exploredCount_countEdge hsucc] at hexplored
    by_cases hsame : b = cur ∧ next = successor
    · obtain ⟨rfl, rfl⟩ := hsame
      exact hnew
    · rw [if_neg hsame] at hexplored
      exact hold b next hexplored
  rcases hinv.settled with hsettled | ⟨b, header, hmarked, hblock, hnot⟩
  · by_cases hmem : successor ∈ search.reversePostOrder
    · obtain ⟨old, hold⟩ := htree.exists_old hmem hne
      by_cases heq : found = old
      · have hself : update search.dominator successor (some found) = search.dominator := by
          rw [heq, ← hold, update_eq_self]
        rw [hself] at hclean
        exact hclean hsettled
      · exact .inr ⟨cur, successor, hinv.marked_of_mem hsucc hmem, hcur,
          fun hancestor => heq (DominatorTree.eq_old_of_isAncestor hupdate hold
            (htree.isAncestor_of_update hupdate hne hcur hancestor))⟩
    · refine hclean fun b next hexplored => ?_
      have hblock : b ∈ search.reversePostOrder := by
        by_contra hnot
        rw [exploredCount, hinv.unvisited _ hnot] at hexplored
        exact hexplored rfl
      exact htree.settled_of_notMem hupdate hmem hblock (hsettled b next hexplored)
  · exact .inr ⟨b, header, hmarked, hblock, fun hancestor =>
      hnot (htree.isAncestor_of_update hupdate hne hblock hancestor)⟩

theorem Invariant.visitEdge : Counted graph backEdges (search.visitEdge cur successor found) := by
  have hcur := hinv.current_mem hwork
  have hedge := mem_of_getElem? hsucc
  have hne : successor ≠ graph.entry := fun heq => hentry cur (heq ▸ hedge)
  have hcount := exploredCount_countEdge hsucc (update search.dominator successor (some found))
  have hother : ∀ b, b ≠ cur → (search.visitEdge cur successor found).successorsVisited b =
        search.successorsVisited b :=
    fun b hother => update_of_ne hother _ _
  refine ⟨hinv.nodup, hinv.entry, hinv.nodupWorklist, hinv.worklist,
    fun b => ?_, fun b hblock => ?_, fun b hblock hnot => ?_, fun b => ?_,
    fun b hblock pred hfwd => ⟨(hinv.pushed _ hblock _ hfwd).1,
      ?_⟩, hinv.tree.update hupdate hcur hedge hne,
    hinv.isSettled_visitEdge hentry hwork hsucc hupdate⟩
  · by_cases heq : b = cur
    · subst heq
      obtain ⟨hlt, -⟩ := List.getElem?_eq_some_iff.mp hsucc
      exact (update_self b _ search.successorsVisited).trans_le hlt
    · rw [hother _ heq]
      exact hinv.bound b
  · rw [hother b fun heq => hblock (heq ▸ hcur)]
    exact hinv.unvisited _ hblock
  · have hblock' : b ≠ cur := by
      rintro rfl
      exact hnot (hwork ▸ mem_cons_self)
    rw [hother _ hblock']
    exact hinv.complete _ hblock hnot
  · simp only [DominanceSearch.visitEdge, hcount, Finset.sum_add_distrib]
    rw [← hinv.visits b]
    change update search.visits successor (search.visits successor + 1) b = _
    by_cases heq : b = successor
    · rw [heq, update_self]
      simp only [and_true, Finset.sum_ite_eq', Finset.mem_univ, if_true]
    · simp [heq]
  · refine le_antisymm ((take_sublist _ _).count_le _) ?_
    rw [DominanceSearch.visitEdge, hcount, ← (hinv.pushed _ hblock _ hfwd).2]
    exact le_add_right _ _

section

variable (hmarks : MarksBackEdges graph backEdges)

include hmarks

/-- The successors of a block are visited once all edges to it other than back edges were. -/
theorem Invariant.push (hneeded : (search.visitEdge cur successor found).visits successor =
      neededVisits graph backEdges successor) :
    Invariant graph backEdges ((search.visitEdge cur successor found).push successor) := by
  have hcounted := hinv.visitEdge hentry hwork hsucc hupdate
  have hnew : successor ∉ search.reversePostOrder := by
    intro hmem
    have hle := hinv.neededVisits_le hmarks hmem
    change update search.visits successor (search.visits successor + 1) successor = _
      at hneeded
    rw [update_self] at hneeded
    omega
  have hother : ∀ b, b ∉ search.reversePostOrder ++ [successor] →
      b ∉ search.reversePostOrder ∧ b ≠ successor := by
    intro b hblock
    simpa using hblock
  -- All copies of the edges to the block were visited.
  have hfull : ∀ pred, forwardCount graph backEdges pred successor =
      (search.visitEdge cur successor found).exploredCount graph pred successor := by
    rw [neededVisits_eq hmarks, hcounted.visits] at hneeded
    have heach := (Finset.sum_eq_sum_iff_of_le fun pred _ =>
      hcounted.exploredCount_le hmarks hnew pred).mp hneeded
    exact fun pred => (heach pred (Finset.mem_univ _)).symm
  refine ⟨⟨?_, mem_append_left _ hinv.entry, ?_, ?_, hcounted.bound,
    fun b hblock => hcounted.unvisited b (hother _ hblock).1,
    fun b hblock hnot => ?_, hcounted.visits, fun b hblock pred hfwd => ?_,
    hcounted.tree.push (update_self _ _ _), ?_⟩, fun b hblock => ?_⟩
  · exact nodup_append'.mpr ⟨hinv.nodup, nodup_singleton _, disjoint_singleton.mpr hnew⟩
  · exact nodup_cons.mpr ⟨fun hmem => hnew (hinv.worklist hmem), hinv.nodupWorklist⟩
  · exact cons_subset.mpr ⟨mem_append_right _ (mem_singleton_self _),
      List.Subset.trans hinv.worklist (subset_append_left _ _)⟩
  · have hold : b ∈ search.reversePostOrder := (mem_append.mp hblock).resolve_right fun hmem =>
        hnot (mem_singleton.mp hmem ▸ mem_cons_self)
    exact hcounted.complete _ hold fun hmem => hnot (mem_cons_of_mem _ hmem)
  · change (search.reversePostOrder ++ [successor]).idxOf pred <
      (search.reversePostOrder ++ [successor]).idxOf b ∧ _
    have hblock : b ∈ search.reversePostOrder ++ [successor] := hblock
    rcases mem_append.mp hblock with hold | hlast
    · have hpred : pred ∈ search.reversePostOrder := hcounted.mem_of_forwardEdge hold hfwd
      rw [idxOf_append_of_mem hpred, idxOf_append_of_mem hold]
      exact hcounted.pushed _ hold _ hfwd
    obtain rfl := mem_singleton.mp hlast
    have hcount := hfull pred
    rw [forwardCount, if_neg hfwd.2] at hcount
    have hpred : pred ∈ search.reversePostOrder := by
      by_contra hnot
      have hzero : (search.visitEdge cur b found).exploredCount graph pred b = 0 := by
        rw [exploredCount, hcounted.unvisited _ hnot]
        rfl
      rw [hzero] at hcount
      exact count_eq_zero.mp hcount hfwd.1
    refine ⟨?_, hcount.symm⟩
    rw [idxOf_append_of_mem hpred, idxOf_append_of_notMem hnew]
    exact Nat.lt_add_right _ (List.idxOf_lt_length_iff.mpr hpred)
  · rcases hcounted.settled with hsettled | ⟨b, header, hmarked, hblock, hnot⟩
    · exact .inl hsettled
    · exact .inr ⟨b, header, hmarked, mem_append_left _ hblock, hnot⟩
  · obtain ⟨hblock, hne⟩ := hother _ hblock
    change update search.visits successor _ b < _
    rw [update_of_ne hne]
    exact hinv.waiting _ hblock

theorem Invariant.skip (hneeded : (search.visitEdge cur successor found).visits successor ≠
      neededVisits graph backEdges successor) :
    Invariant graph backEdges (search.visitEdge cur successor found) := by
  have hcounted := hinv.visitEdge hentry hwork hsucc hupdate
  refine ⟨hcounted, fun b hblock => ?_⟩
  by_cases heq : b = successor
  · refine lt_of_le_of_ne ?_ (heq ▸ hneeded)
    rw [neededVisits_eq hmarks, hcounted.visits]
    exact Finset.sum_le_sum fun pred _ => hcounted.exploredCount_le hmarks hblock pred
  · change update search.visits successor _ b < _
    rw [update_of_ne heq]
    exact hinv.waiting _ hblock

end

end Visit

variable (graph search) in
/-- The edges that are still to be visited, and the blocks of the worklist. -/
def remaining : ℕ := 2 * ∑ block, ((graph.succs block).length - search.successorsVisited block) +
    search.worklist.length

theorem remaining_countEdge
    (hsucc : (graph.succs cur)[search.successorsVisited cur]? = some successor)
    (dom : Dominators count) :
    (search.countEdge cur successor dom).remaining graph + 2 = search.remaining graph := by
  obtain ⟨hlt, -⟩ := List.getElem?_eq_some_iff.mp hsucc
  have hsum : ∑ b, ((graph.succs b).length - search.successorsVisited b) =
      (∑ b, ((graph.succs b).length - (search.countEdge cur successor dom).successorsVisited b)) +
          ∑ b, if b = cur then 1 else 0 := by
    rw [← Finset.sum_add_distrib]
    refine Finset.sum_congr rfl fun b _ => ?_
    change _ = (graph.succs b).length - update search.successorsVisited cur
      (search.successorsVisited cur + 1) b + _
    by_cases heq : b = cur
    · subst heq
      rw [update_self, if_pos rfl]
      omega
    · rw [update_of_ne heq, if_neg heq, add_zero]
  rw [Finset.sum_ite_eq', if_pos (Finset.mem_univ _)] at hsum
  rw [remaining, remaining, hsum]
  change 2 * _ + search.worklist.length + 2 = _
  omega

section

variable (hmarks : MarksBackEdges graph backEdges) (hentry : ∀ b, graph.entry ∉ graph.succs b)
  {fuel : ℕ} (hfuel : count ≤ fuel)

include hmarks hentry hfuel

theorem Invariant.exists_body (hinv : Invariant graph backEdges search)
    (hdone : search.isDone = false) :
    ∃ next, search.body graph backEdges fuel = some next ∧ Invariant graph backEdges next ∧
      next.remaining graph < search.remaining graph := by
  rcases hwork : search.worklist with _ | ⟨cur, rest⟩
  · simp [isDone, hwork] at hdone
  simp only [body, hwork]
  by_cases hall : search.successorsVisited cur = (graph.succs cur).length
  · refine ⟨search.pop, if_pos hall, hinv.pop hwork hall, ?_⟩
    change 2 * _ + search.worklist.tail.length < 2 * _ + search.worklist.length
    rw [hwork]
    exact lt_succ_self _
  · have hlt : search.successorsVisited cur < (graph.succs cur).length :=
      lt_of_le_of_ne (hinv.bound cur) hall
    obtain ⟨successor, hsucc⟩ :
        ∃ successor, (graph.succs cur)[search.successorsVisited cur]? = some successor :=
      ⟨_, getElem?_eq_getElem hlt⟩
    obtain ⟨found, hfound, hupdate⟩ := hinv.tree.exists_update hfuel
      (hinv.current_mem hwork) successor
    have hremaining := remaining_countEdge hsucc (update search.dominator successor (some found))
    rw [if_neg hall, hsucc]
    simp only [visitSuccessor, hfound, map_some]
    split_ifs with hneeded
    · refine ⟨_, rfl, hinv.push hentry hwork hsucc hupdate hmarks hneeded, ?_⟩
      have hpush : ∀ state : DominanceSearch count,
          (state.push successor).remaining graph = state.remaining graph + 1 := by
        intro state
        simp only [remaining, DominanceSearch.push, length_cons]
        omega
      rw [hpush]
      omega
    · exact ⟨_, rfl, hinv.skip hentry hwork hsucc hupdate hmarks hneeded, by omega⟩

/-- The first loop ends with all blocks in the reverse post order. -/
theorem exists_search :
    ∃ search, whileLoop isDone (body graph backEdges fuel) (2 * edgeCount graph + 1)
        (start graph) = some search ∧ Invariant graph backEdges search ∧
      (∀ b, b ∈ search.reversePostOrder) ∧
      ∀ b, search.successorsVisited b = (graph.succs b).length := by
  obtain ⟨search, hsearch, hinv, hdone⟩ := exists_whileLoop (Invariant graph backEdges)
    (remaining graph) (fun state hstate hopen => hstate.exists_body hmarks hentry hfuel hopen)
    (2 * edgeCount graph + 1) (start graph) (invariant_start hmarks hentry)
    (by simp [remaining, start, edgeCount])
  have hwork : search.worklist = [] := isEmpty_iff.mp hdone
  have hcompl : ∀ b ∈ search.reversePostOrder,
      search.successorsVisited b = (graph.succs b).length := fun b hblock =>
    hinv.complete _ hblock (by rw [hwork]; exact not_mem_nil)
  obtain ⟨rank, hrank⟩ := hmarks.acyclic
  -- A block that waits has a predecessor that waits, and these have no cycle.
  have hall : ∀ bound b, (∑ other, rank other) - rank b < bound → b ∈ search.reversePostOrder := by
    intro bound
    induction bound with
    | zero => exact fun b hlt => absurd hlt (not_lt_zero _)
    | succ bound ih =>
      intro b hlt
      by_contra hblock
      have hwaiting := hinv.waiting _ hblock
      rw [neededVisits_eq hmarks, hinv.visits] at hwaiting
      obtain ⟨pred, -, hless⟩ := Finset.exists_lt_of_sum_lt hwaiting
      rw [forwardCount] at hless
      split_ifs at hless with hmarked
      · exact absurd hless (not_lt_zero _)
      · have hedge : b ∈ graph.succs pred := count_pos_iff.mp (zero_lt_of_lt hless)
        have hlower := hrank _ _ ⟨hedge, hmarked⟩
        have hle : rank pred ≤ ∑ other, rank other :=
          Finset.single_le_sum (fun _ _ => zero_le _) (Finset.mem_univ pred)
        have hvis := ih pred (by omega)
        rw [exploredCount, hcompl _ hvis, take_length] at hless
        exact absurd hless (lt_irrefl _)
  exact ⟨search, hsearch, hinv, fun b => hall _ b (lt_succ_self _),
    fun b => hcompl b (hall _ b (lt_succ_self _))⟩

end

end DominanceSearch

/-! ## The fix-point iteration -/

section FixPoint

variable {graph : FlowGraph (Fin count)} {dom : Dominators count}

variable {b : Fin count} {fuel : ℕ} {chain : List (Fin count)}

theorem dominatesBlock_eq {start : Fin count}
    (hchain : ParentChain dom start chain) (hfuel : chain.length ≤ fuel) :
    dominatesBlock dom b fuel (some start) = some (decide (b ∈ chain)) := by
  induction hchain generalizing fuel with
  | @root start hnone =>
    obtain ⟨fuel, rfl⟩ : ∃ rest, fuel = rest + 1 := ⟨fuel - 1, by simp at hfuel; omega⟩
    rw [dominatesBlock, hnone, dominatesBlock.eq_def]
    by_cases heq : start = b
    · simp [heq]
    · simp [heq, Ne.symm heq]
  | @step start next rest hsome hrest ih =>
    obtain ⟨fuel, rfl⟩ : ∃ rest, fuel = rest + 1 := ⟨fuel - 1, by simp at hfuel; omega⟩
    rw [dominatesBlock, hsome, ih (le_of_succ_le_succ hfuel)]
    by_cases heq : start = b
    · simp [heq]
    · simp [heq, Ne.symm heq]

/-- The check finds a back edge that its header does not dominate. -/
theorem hasBackEdgeNotDominatedByHeader_eq (hfuel : count ≤ fuel)
    (hchain : ∀ b, ∃ chain, ParentChain dom b chain) (edges : List (Fin count × Fin count)) :
    ∃ result, hasBackEdgeNotDominatedByHeader fuel dom edges = some result ∧
      (result ↔ ∃ edge ∈ edges, ¬ IsAncestor dom edge.1 edge.2) := by
  induction edges with
  | nil => exact ⟨false, rfl, by simp⟩
  | cons edge rest ih =>
    obtain ⟨header, backEdge⟩ := edge
    obtain ⟨result, hres, hiff⟩ := ih
    obtain ⟨chain, hchain⟩ := hchain backEdge
    have hlen := hchain.length_le_card.trans ((Fintype.card_fin count).le.trans hfuel)
    rw [hasBackEdgeNotDominatedByHeader, dominatesBlock_eq hchain hlen, bind_some]
    by_cases hmem : header ∈ chain
    · have hancestor : IsAncestor dom header backEdge := ⟨chain, hchain, hmem⟩
      refine ⟨result, by simpa [hmem] using hres, ?_⟩
      simpa [hancestor] using hiff
    · have hancestor : ¬ IsAncestor dom header backEdge := by
        rintro ⟨chain', hchain', hmem'⟩
        exact hmem (hchain'.unique hchain ▸ hmem')
      exact ⟨true, by simp [hmem], by simp [hancestor]⟩

/-- The sum of the lengths of all chains, which the fix-point iteration decreases. -/
def chainTotal (dominator : Dominators count) : ℕ :=
  ∑ block, (chainLength dominator count (some block)).getD 0

theorem chainLength_getD (hchain : ParentChain dom b chain) :
    (chainLength dom count (some b)).getD 0 = chain.length := by
  rw [chainLength_eq hchain (hchain.length_le_card.trans (Fintype.card_fin count).le), getD_some]

variable {visited : List (Fin count)} (htree : DominatorTree graph dom visited)
  (hvis : ∀ b, b ∈ visited)

include htree hvis

theorem chainTotal_le : chainTotal dom ≤ count * count := by
  calc chainTotal dom ≤ ∑ _block : Fin count, count := by
        refine Finset.sum_le_sum fun b _ => ?_
        obtain ⟨chain, hchain, -, -⟩ := htree.chain b (hvis b)
        rw [chainLength_getD hchain]
        exact hchain.length_le_card.trans (Fintype.card_fin count).le
    _ = count * count := by simp

/-- Every update that changes a dominator shortens a chain. -/
theorem chainTotal_update {successor found : Fin count}
    (hupdate : DominatorTree.IsUpdate dom visited b successor found)
    (hne : successor ≠ graph.entry) (hchanged : dom successor ≠ some found) :
    chainTotal (update dom successor (some found)) < chainTotal dom := by
  refine Finset.sum_lt_sum (fun start _ => ?_) ⟨successor, Finset.mem_univ _, ?_⟩
  · obtain ⟨chain, hchain, -, -⟩ := htree.chain start (hvis start)
    obtain ⟨chain', hchain', -, hsubset, -⟩ :=
      htree.exists_chain_update hupdate hne (hvis start) hchain
    rw [chainLength_getD hchain, chainLength_getD hchain']
    exact (subperm_of_subset hchain'.nodup hsubset).length_le
  · obtain ⟨old, chainOld, above, hold, hchainOld, habove, -, hless, hnot⟩ :=
      htree.exists_above hupdate (hvis successor) hne
    have hnew : ParentChain (update dom successor (some found)) successor (successor :: above) :=
      .step (update_self _ _ _) (habove.update_of_notMem (fun hmem => hnot (hless hmem)) _)
    rw [chainLength_getD (.step hold hchainOld), chainLength_getD hnew, length_cons, length_cons]
    have hle := hchainOld.length_le_of_mem (hless habove.head_mem) habove
    have hlen : above.length ≠ chainOld.length := by
      intro heq
      rw [hchainOld.eq_of_length (hless habove.head_mem) habove heq] at hchanged
      exact hchanged hold
    omega

theorem exists_foldlM_updateEdge (hfuel : count ≤ fuel)
    (hentry : ∀ b, graph.entry ∉ graph.succs b) (occurred : Bool)
    (edges : List (Fin count × Fin count)) (hedges : ∀ edge ∈ edges, edge.2 ∈ graph.succs edge.1) :
    ∃ result, edges.foldlM (updateEdge fuel) (occurred, dom) = some result ∧
      DominatorTree graph result.2 visited ∧ chainTotal result.2 ≤ chainTotal dom ∧
      (result.1 → occurred ∨ chainTotal result.2 < chainTotal dom) ∧
      (result.1 = false → occurred = false ∧ result.2 = dom ∧
        ∀ edge ∈ edges, Settled dom edge.1 edge.2) := by
  induction edges generalizing occurred dom with
  | nil => exact ⟨(occurred, dom), rfl, htree, le_rfl, .inl, fun hfalse => ⟨hfalse, rfl, by simp⟩⟩
  | cons edge rest ih =>
    obtain ⟨hedge, hrest⟩ := forall_mem_cons.mp hedges
    have hne : edge.2 ≠ graph.entry := fun heq => hentry edge.1 (heq ▸ hedge)
    obtain ⟨found, hfound, hupdate⟩ := htree.exists_update hfuel (hvis edge.1) edge.2
    obtain ⟨result, hres, htree', hle, hoccurred, hsettled⟩ :=
      ih (htree.update hupdate (hvis edge.1) hedge hne)
        (occurred || decide (dom edge.2 ≠ some found)) hrest
    refine ⟨result, ?_, htree', ?_⟩
    · rw [foldlM_cons, updateEdge, hfound]
      exact hres
    · by_cases hsame : dom edge.2 = some found
      · have hself : update dom edge.2 (some found) = dom := by
          rw [← hsame, update_eq_self]
        have hhead := htree.settled_update hupdate hne (hvis edge.1)
        rw [hself] at hle hoccurred hsettled hhead
        rw [decide_eq_false (not_not.mpr hsame), Bool.or_false] at hoccurred hsettled
        refine ⟨hle, hoccurred, fun hfalse => ?_⟩
        obtain ⟨hfirst, heq, hlater⟩ := hsettled hfalse
        exact ⟨hfirst, heq, forall_mem_cons.mpr ⟨hhead, hlater⟩⟩
      · have hless := chainTotal_update htree hvis hupdate hne hsame
        refine ⟨hle.trans hless.le, fun _ => .inr (hle.trans_lt hless), fun hfalse => ?_⟩
        have hfirst := (hsettled hfalse).1
        rw [decide_eq_true hsame, Bool.or_true] at hfirst
        cases hfirst

/-- The fix-point iteration ends when all edges are settled. -/
theorem exists_fixPoint (hfuel : count * count + count + 1 ≤ fuel)
    (hentry : ∀ b, graph.entry ∉ graph.succs b) (edges : List (Fin count × Fin count))
    (hedges : ∀ edge ∈ edges, edge.2 ∈ graph.succs edge.1) :
    ∃ last, whileLoop (fun state => !state.1) (updateEdges fuel edges) fuel (true, dom) =
        some last ∧
      DominatorTree graph last.2 visited ∧ ∀ edge ∈ edges, Settled last.2 edge.1 edge.2 := by
  have hbody : ∀ state : Bool × Dominators count, DominatorTree graph state.2 visited ∧
        (state.1 = false → ∀ edge ∈ edges, Settled state.2 edge.1 edge.2) →
      (!state.1) = false → ∃ next, updateEdges fuel edges state = some next ∧
        (DominatorTree graph next.2 visited ∧
          (next.1 = false → ∀ edge ∈ edges, Settled next.2 edge.1 edge.2)) ∧
        (if next.1 then chainTotal next.2 + 1 else 0) <
          if state.1 then chainTotal state.2 + 1 else 0 := by
    have hcount : count ≤ fuel := by omega
    rintro ⟨occurred, cur⟩ ⟨hcur, -⟩ hopen
    obtain rfl : occurred = true := by simpa using hopen
    obtain ⟨result, hres, htree', -, hoccurred, hsettled⟩ :=
      exists_foldlM_updateEdge hcur hvis hcount hentry _ _ hedges
    refine ⟨result, hres, ⟨htree', fun hfalse => ?_⟩, ?_⟩
    · obtain ⟨-, heq, hall⟩ := hsettled hfalse
      rwa [heq]
    · cases hcase : result.1 with
      | false => simp
      | true =>
        have hless := (hoccurred hcase).resolve_left Bool.false_ne_true
        simpa using hless
  have htotal := chainTotal_le htree hvis
  obtain ⟨last, hlast, ⟨htree', hsettled⟩, hdone⟩ := exists_whileLoop _ _ hbody fuel
    (true, dom) ⟨htree, nofun⟩ (by simp; omega)
  exact ⟨last, hlast, htree', hsettled (by simpa using hdone)⟩

end FixPoint

/-! ## The dominators that are found -/

theorem IsImmediateDominator.unique (hreach : ∀ b, graph.Reachable b) {first second b : Fin count}
    (hfirst : IsImmediateDominator graph first b)
    (hsnd : IsImmediateDominator graph second b) : first = second :=
  (hsnd.2 _ hfirst.1.1 hfirst.1.2).antisymm (hreach second) (hfirst.2 _ hsnd.1.1 hsnd.1.2)

/-- The dominators are found for every set of back edges whose removal leaves a graph without
cycles. -/
theorem exists_dominanceInformation
    {backEdges : Fin count → List (Fin count)} (hmarks : MarksBackEdges graph backEdges)
    (hentry : ∀ b, graph.entry ∉ graph.succs b) {fuel : ℕ}
    (hfuel : count * count + count + 1 ≤ fuel) : ∃ reversePostOrder dom,
      computeDominanceInformation fuel graph backEdges = some (reversePostOrder, dom) ∧
      reversePostOrder.Nodup ∧ (∀ b, b ∈ reversePostOrder) ∧
      (∀ b successor, ForwardEdge graph backEdges b successor →
        reversePostOrder.idxOf b < reversePostOrder.idxOf successor) ∧
      DominatorTree graph dom reversePostOrder ∧
      ∀ b successor, successor ∈ graph.succs b → Settled dom b successor := by
  have hcount : count ≤ fuel := by omega
  obtain ⟨search, hsearch, hinv, hall, hcompl⟩ := DominanceSearch.exists_search hmarks hentry hcount
  obtain ⟨mustRun, hmustRun, hiff⟩ := hasBackEdgeNotDominatedByHeader_eq hcount
    (fun b => (hinv.tree.chain b (hall b)).imp fun _ hchain => hchain.1)
    (allBackEdges backEdges)
  have hedges : ∀ edge, edge ∈ edgesFrom graph search.reversePostOrder ↔
      edge.2 ∈ graph.succs edge.1 := by
    rintro ⟨b, successor⟩
    simp [edgesFrom, hall]
  have hordered : ∀ b successor, ForwardEdge graph backEdges b successor →
      search.reversePostOrder.idxOf b < search.reversePostOrder.idxOf successor :=
    fun b successor hedge => (hinv.pushed _ (hall successor) _ hedge).1
  cases mustRun with
  | true =>
    obtain ⟨last, hlast, htree, hsettled⟩ := exists_fixPoint hinv.tree hall hfuel hentry
      (edgesFrom graph search.reversePostOrder) fun edge hedge => (hedges edge).mp hedge
    refine ⟨search.reversePostOrder, last.2, ?_, hinv.nodup, hall, hordered, htree,
      fun b successor hedge => hsettled (b, successor) ((hedges _).mpr hedge)⟩
    simp only [computeDominanceInformation, hsearch, hmustRun, bind_eq_bind,
      Option.bind_some, if_true, hlast, Option.pure_def]
  | false =>
    refine ⟨search.reversePostOrder, search.dominator, ?_, hinv.nodup, hall, hordered,
      hinv.tree, fun b successor hedge => ?_⟩
    · simp only [computeDominanceInformation, hsearch, hmustRun, Option.bind_eq_bind,
        Option.bind_some, Bool.false_eq_true, if_false, Option.pure_def]
    · -- No back edge was found, so all visited edges are settled.
      have hnone : ¬ ∃ edge ∈ allBackEdges backEdges,
          ¬ IsAncestor search.dominator edge.1 edge.2 := fun hsome => nomatch hiff.mpr hsome
      rcases hinv.settled with hsettled | ⟨src, header, hmarked, -, hnot⟩
      · refine hsettled b successor ?_
        rw [DominanceSearch.exploredCount, hcompl, List.take_length]
        exact (count_pos_iff.mpr hedge).ne'
      · refine absurd ⟨(header, src), ?_, hnot⟩ hnone
        simp [allBackEdges, hmarked]

/-- If no edge leads to the entry block, `FindBackEdges` and `ComputeDominanceInformation` come to
their end. Every block is in the reverse post order once and after the sources of its edges other
than back edges, and the dominator of every other block is its immediate dominator. -/
theorem computeDominanceInformation_correct (graph : FlowGraph (Fin count))
    (hreachable : ∀ block, graph.Reachable block)
    (hentry : ∀ block, graph.entry ∉ graph.succs block) :
    ∃ backEdges, findBackEdges graph = some backEdges ∧
      ∀ fuel, count * count + count + 1 ≤ fuel → ∃ reversePostOrder dominator,
        computeDominanceInformation fuel graph backEdges = some (reversePostOrder, dominator) ∧
        reversePostOrder.Nodup ∧ (∀ block, block ∈ reversePostOrder) ∧
        (∀ block successor, ForwardEdge graph backEdges block successor →
          reversePostOrder.idxOf block < reversePostOrder.idxOf successor) ∧
        dominator graph.entry = none ∧
        ∀ block, block ≠ graph.entry → ∃ found, dominator block = some found ∧
          IsImmediateDominator graph found block ∧
          ∀ other, IsImmediateDominator graph other block → other = found := by
  obtain ⟨backEdges, hback, hmarks⟩ := exists_findBackEdges _ hreachable
  refine ⟨backEdges, hback, fun fuel hfuel => ?_⟩
  obtain ⟨reversePostOrder, dominator, hresult, hnodup, hall, hordered, htree, hsettled⟩ :=
    exists_dominanceInformation hmarks hentry hfuel
  refine ⟨reversePostOrder, dominator, hresult, hnodup, hall, hordered, htree.root,
    fun block hne => ?_⟩
  obtain ⟨found, hfound⟩ := htree.exists_old (hall block) hne
  have himmediate := isImmediateDominator_of_settled htree hsettled hfound
  exact ⟨found, hfound, himmediate, fun other hother => hother.unique hreachable himmediate⟩

/-- A loop that is entered at both of its blocks. -/
def irreducible : FlowGraph (Fin 4) where
  entry := 0
  succs := ![[1, 2], [2], [1, 3], []]

theorem irreducible_dominance : ∃ backEdges, findBackEdges irreducible = some backEdges ∧
      ∀ fuel, 4 * 4 + 4 + 1 ≤ fuel → ∃ reversePostOrder dominator,
        computeDominanceInformation fuel irreducible backEdges =
          some (reversePostOrder, dominator) ∧
        reversePostOrder.Nodup ∧ (∀ block, block ∈ reversePostOrder) ∧
        (∀ block successor, ForwardEdge irreducible backEdges block successor →
          reversePostOrder.idxOf block < reversePostOrder.idxOf successor) ∧
        dominator irreducible.entry = none ∧
        ∀ block, block ≠ irreducible.entry → ∃ found, dominator block = some found ∧
          IsImmediateDominator irreducible found block ∧
          ∀ other, IsImmediateDominator irreducible other block → other = found :=
  computeDominanceInformation_correct irreducible
    (FlowGraph.reachable_of_earlier (by decide)) (by decide)

/-- With the dominators that `ComputeDominanceInformation` leaves, `Dominates` answers for the paths
of the graph, and `ForPair` gives the nearest block that dominates both blocks. -/
theorem dominanceQueries_correct (graph : FlowGraph (Fin count))
    (hreachable : ∀ block, graph.Reachable block)
    (hentry : ∀ block, graph.entry ∉ graph.succs block) :
    ∃ backEdges, findBackEdges graph = some backEdges ∧
      ∀ fuel, count * count + count + 1 ≤ fuel → ∃ reversePostOrder dominator,
        computeDominanceInformation fuel graph backEdges = some (reversePostOrder, dominator) ∧
        ∀ block1 block2,
          (∃ result, dominatesBlock dominator block1 fuel (some block2) = some result ∧
            (result ↔ graph.Dominates block1 block2)) ∧
          ∃ found, forPair dominator fuel block1 block2 = some found ∧ ∀ other,
            graph.Dominates other found ↔
              graph.Dominates other block1 ∧ graph.Dominates other block2 := by
  obtain ⟨backEdges, hback, hmarks⟩ := exists_findBackEdges _ hreachable
  refine ⟨backEdges, hback, fun fuel hfuel => ?_⟩
  obtain ⟨reversePostOrder, dominator, hresult, -, hall, -, htree, hsettled⟩ :=
    exists_dominanceInformation hmarks hentry hfuel
  have hchains : ∀ block, ∃ chain, ParentChain dominator block chain ∧ chain.length ≤ fuel ∧
      graph.entry ∈ chain ∧ ∀ other, other ∈ chain ↔ graph.Dominates other block := by
    intro block
    obtain ⟨chain, hchain, hentry, -⟩ := htree.chain block (hall block)
    have hlen := hchain.length_le_card
    rw [Fintype.card_fin] at hlen
    refine ⟨chain, hchain, by omega, hentry, fun other => ⟨fun hmem => ?_, fun hdom => ?_⟩⟩
    · exact dominates_of_settled htree.root hsettled ⟨chain, hchain, hmem⟩
    · exact htree.mem_of_dominates hchain hentry hdom
  refine ⟨reversePostOrder, dominator, hresult, fun block1 block2 => ?_⟩
  obtain ⟨chain1, hchain1, hlen1, hentry1, hiff1⟩ := hchains block1
  obtain ⟨chain2, hchain2, hlen2, hentry2, hiff2⟩ := hchains block2
  constructor
  · exact ⟨_, dominatesBlock_eq hchain2 hlen2, by rw [decide_eq_true_iff, hiff2]⟩
  · obtain ⟨found, common, hfound, hcommon, hmem⟩ :=
      exists_forPair hchain1 hchain2 hentry1 hentry2 hlen1 hlen2
    refine ⟨found, hfound, fun other => ?_⟩
    obtain ⟨chain, hchain, -, -, hiff⟩ := hchains found
    rw [← hiff, hchain.unique hcommon, hmem, hiff1, hiff2]

theorem irreducible_queries : ∃ backEdges, findBackEdges irreducible = some backEdges ∧
      ∀ fuel, 4 * 4 + 4 + 1 ≤ fuel → ∃ reversePostOrder dominator,
        computeDominanceInformation fuel irreducible backEdges =
          some (reversePostOrder, dominator) ∧
        ∀ block1 block2,
          (∃ result, dominatesBlock dominator block1 fuel (some block2) = some result ∧
            (result ↔ irreducible.Dominates block1 block2)) ∧
          ∃ found, forPair dominator fuel block1 block2 = some found ∧ ∀ other,
            irreducible.Dominates other found ↔
              irreducible.Dominates other block1 ∧ irreducible.Dominates other block2 :=
  dominanceQueries_correct irreducible (FlowGraph.reachable_of_earlier (by decide)) (by decide)

/-- A loop whose header is the entry block. -/
def entryLoop : FlowGraph (Fin 3) where
  entry := 0
  succs := ![[1, 2], [0, 2], []]

/-- The walk up the dominators of blocks that are dominators of each other. -/
theorem chainLength_cycle {dom : Dominators 3} (hzero : dom 0 = some 1)
    (hone : dom 1 = some 0) (fuel : ℕ) :
    chainLength dom fuel (some 0) = none ∧ chainLength dom fuel (some 1) = none := by
  induction fuel with
  | zero => exact ⟨rfl, rfl⟩
  | succ fuel ih => simp only [chainLength, hzero, hone, ih, map_none, and_self]

/-- The first loop before the last edge of the entry block is visited. -/
def entryLoopSearch : DominanceSearch 3 :=
  let first : DominanceSearch 3 := ((DominanceSearch.start entryLoop).countEdge 0 1
    (Function.update (fun _ => none) 1 (some 0))).push 1
  let second := first.countEdge 1 0 (Function.update first.dominator 0 (some 1))
  (second.countEdge 1 2 (Function.update second.dominator 2 (some 1))).pop

/-- With an edge to the entry block the entry gets a dominator, and the next walk up the
dominators never ends. -/
theorem entryLoop_not_computed : (∀ block, entryLoop.Reachable block) ∧
      ∃ backEdges, findBackEdges entryLoop = some backEdges ∧
        ∀ fuel, computeDominanceInformation fuel entryLoop backEdges = none := by
  refine ⟨FlowGraph.reachable_of_earlier (by decide), ![[1], [], []], by decide +kernel,
    fun fuel => ?_⟩
  have hpair : forPair entryLoopSearch.dominator fuel 1 0 = none := by
    rw [forPair, (chainLength_cycle rfl rfl fuel).2]
    rfl
  have hlast : entryLoopSearch.visitSuccessor entryLoop ![[1], [], []] fuel 0 2 = none := by
    change (Option.map _ (Option.map _ (forPair entryLoopSearch.dominator fuel 1 0))) = none
    rw [hpair]
    rfl
  have hrun : whileLoop DominanceSearch.isDone
      (DominanceSearch.body entryLoop ![[1], [], []] fuel) 9 (DominanceSearch.start entryLoop) =
        (entryLoopSearch.visitSuccessor entryLoop ![[1], [], []] fuel 0 2).bind
          (whileLoop DominanceSearch.isDone
            (DominanceSearch.body entryLoop ![[1], [], []] fuel) 4) := rfl
  have hcount : 2 * edgeCount entryLoop + 1 = 9 := by decide
  rw [computeDominanceInformation, hcount, hrun, hlast]
  rfl

end NougatArt.Graphs
