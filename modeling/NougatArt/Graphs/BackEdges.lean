import NougatArt.Core.FlowGraph
import NougatArt.Core.WhileLoop

/-!
# Back edges

`FindBackEdges` marks the edges that lead to a block on the stack of a depth-first
search. Without the marked edges the graph has no cycles and all blocks stay
reachable, and every marked edge leads back along unmarked ones.
-/

namespace NougatArt.Graphs

open Function

open List

variable {count : ℕ}

/-- The variables of `FindBackEdges`, and the back edges of the loop headers. The last block of
the worklist comes first. -/
structure BackEdgeSearch (count : ℕ) where
  visited : Fin count → Bool
  visiting : Fin count → Bool
  successorsVisited : Fin count → ℕ
  worklist : List (Fin count)
  backEdges : Fin count → List (Fin count)

namespace BackEdgeSearch

variable (graph : FlowGraph (Fin count))

def start : BackEdgeSearch count where
  visited := update (fun _ => false) graph.entry true
  visiting := update (fun _ => false) graph.entry true
  successorsVisited := fun _ => 0
  worklist := [graph.entry]
  backEdges := fun _ => []

variable (search : BackEdgeSearch count)

def isDone : Bool := search.worklist.isEmpty

/-- The end of the visit of a block. -/
def pop (current : Fin count) : BackEdgeSearch count := { search with
    visiting := update search.visiting current false
    worklist := search.worklist.tail }

def countSuccessor (current : Fin count) : BackEdgeSearch count := { search with
    successorsVisited := update search.successorsVisited current
      (search.successorsVisited current + 1) }

def addBackEdge (current successor : Fin count) : BackEdgeSearch count := { search with
    backEdges := update search.backEdges successor (search.backEdges successor ++ [current]) }

def push (successor : Fin count) : BackEdgeSearch count := { search with
    visited := update search.visited successor true
    visiting := update search.visiting successor true
    worklist := successor :: search.worklist }

def visitSuccessor (current successor : Fin count) : BackEdgeSearch count :=
  let search := search.countSuccessor current
  if search.visiting successor then
    search.addBackEdge current successor
  else if !search.visited successor then
    search.push successor
  else
    search

def body : Option (BackEdgeSearch count) :=
  match search.worklist with
  | [] => none
  | current :: _ =>
    if search.successorsVisited current = (graph.succs current).length then
      some (search.pop current)
    else
      match (graph.succs current)[search.successorsVisited current]? with
      | none => none
      | some successor => some (search.visitSuccessor current successor)

end BackEdgeSearch

variable (graph : FlowGraph (Fin count))

def edgeCount : ℕ := ∑ block, (graph.succs block).length

/-- `FindBackEdges`, with the back edges of every block. -/
def findBackEdges : Option (Fin count → List (Fin count)) :=
  (whileLoop BackEdgeSearch.isDone (BackEdgeSearch.body graph) (2 * edgeCount graph + count + 1)
    (BackEdgeSearch.start graph)).map BackEdgeSearch.backEdges

/-! ## The invariant of the search -/

namespace BackEdgeSearch

variable {graph : FlowGraph (Fin count)}

def Explored (graph : FlowGraph (Fin count)) (search : BackEdgeSearch count)
    (block successor : Fin count) : Prop :=
  successor ∈ (graph.succs block).take (search.successorsVisited block)

def Forward (graph : FlowGraph (Fin count)) (search : BackEdgeSearch count)
    (block successor : Fin count) : Prop :=
  search.Explored graph block successor ∧ block ∉ search.backEdges successor

/-- The state of the search; `finished` are the blocks whose visit is over, the last one first. -/
structure Invariant (graph : FlowGraph (Fin count)) (search : BackEdgeSearch count)
    (finished : List (Fin count)) : Prop where
  nodup : (search.worklist ++ finished).Nodup
  visiting : ∀ block, search.visiting block = true ↔ block ∈ search.worklist
  visited : ∀ block, search.visited block = true ↔ block ∈ search.worklist ++ finished
  entry : graph.entry ∈ search.worklist ++ finished
  bound : ∀ block, search.successorsVisited block ≤ (graph.succs block).length
  unvisited : ∀ block, block ∉ search.worklist ++ finished → search.successorsVisited block = 0
  complete : ∀ block ∈ finished, search.successorsVisited block = (graph.succs block).length
  -- A successor of a block is marked or its visit ends before that of the block.
  ordered : ∀ later block earlier, finished = later ++ block :: earlier →
    ∀ successor, search.Forward graph block successor → successor ∈ earlier
  above : ∀ later block below, search.worklist = later ++ block :: below →
    ∀ successor, search.Forward graph block successor → successor ∈ finished ∨ successor ∈ later
  chain : search.worklist.IsChain fun child block => search.Forward graph block child
  parent : ∀ block ∈ search.worklist ++ finished, block = graph.entry ∨
    ∃ predecessor, search.Forward graph predecessor block
  -- A marked edge of a block on the stack leads down the stack.
  marked : ∀ later block below, search.worklist = later ++ block :: below →
    ∀ successor, block ∈ search.backEdges successor → successor ∈ block :: below
  back : ∀ block successor, block ∈ search.backEdges successor →
    search.Explored graph block successor ∧ successor ∈ search.worklist ++ finished ∧
      Relation.ReflTransGen (search.Forward graph) successor block
  countBack : ∀ block successor, block ∈ search.backEdges successor →
    (search.backEdges successor).count block =
      ((graph.succs block).take (search.successorsVisited block)).count successor

theorem invariant_start (graph : FlowGraph (Fin count)) : Invariant graph (start graph) [] := by
  have hnot : ∀ b succ, ¬ (start graph).Explored graph b succ := by
    intro b succ hexplored
    simp [Explored, start] at hexplored
  refine ⟨by simp [start], fun b => ?_, fun b => ?_, by simp [start], fun _ => Nat.zero_le _,
    fun _ _ => rfl, by simp, by simp, fun _ _ _ _ _ hfwd => absurd hfwd.1 (hnot _ _),
    .singleton _, fun b hblock => .inl (by simpa [start] using hblock),
    fun _ _ _ _ _ hmem => by simp [start] at hmem, fun _ _ hmem => by simp [start] at hmem,
    fun _ _ hmem => by simp [start] at hmem⟩
  all_goals by_cases heq : b = graph.entry <;> simp [start, heq]

variable {search : BackEdgeSearch count} {finished rest : List (Fin count)} {cur succ : Fin count}

theorem reflTransGen_of_isChain {relation : Fin count → Fin count → Prop}
    (hchain : (cur :: rest).IsChain fun child b => relation b child)
    (hmem : succ ∈ cur :: rest) : Relation.ReflTransGen relation succ cur := by
  induction rest generalizing cur with
  | nil =>
    rw [mem_singleton.mp hmem]
  | cons next below ih =>
    rcases mem_cons.mp hmem with rfl | hlater
    · exact .refl
    · obtain ⟨hedge, hrest⟩ := isChain_cons_cons.mp hchain
      exact .tail (ih hrest hlater) hedge

section Pop

variable (hinv : Invariant graph search finished) (hwork : search.worklist = cur :: rest)

include hinv hwork

theorem Invariant.current_notMem : cur ∉ rest ∧ cur ∉ finished := by
  have hnodup := hinv.nodup
  rw [hwork, cons_append, nodup_cons, mem_append, not_or] at hnodup
  exact hnodup.1

theorem Invariant.pop (hall : search.successorsVisited cur = (graph.succs cur).length) :
    Invariant graph (search.pop cur) (cur :: finished) := by
  obtain ⟨hrest, hfinished⟩ := hinv.current_notMem hwork
  have htail : (search.pop cur).worklist = rest := by
    simp [BackEdgeSearch.pop, hwork]
  have hperm : (search.worklist ++ finished).Perm (rest ++ cur :: finished) := by
    rw [hwork]
    exact perm_middle.symm
  have hmem : ∀ b, b ∈ rest ++ cur :: finished ↔
      b ∈ search.worklist ++ finished := fun b => hperm.mem_iff.symm
  refine ⟨?_, fun b => ?_, fun b => ?_, ?_, hinv.bound, fun b hblock => ?_,
    fun b hblock => ?_, fun later b earlier heq next hfwd => ?_,
    fun later b below heq next hfwd => ?_, ?_, fun b hblock => ?_,
    fun later b below heq next hmarked => ?_, fun b next hmarked => ?_,
    hinv.countBack⟩
  · rw [htail]
    exact hperm.nodup_iff.mp hinv.nodup
  · by_cases heq : b = cur <;> simp [BackEdgeSearch.pop, heq, hrest, hinv.visiting, hwork]
  · rw [htail, hmem]
    exact hinv.visited b
  · rw [htail, hmem]
    exact hinv.entry
  · rw [htail, hmem] at hblock
    exact hinv.unvisited _ hblock
  · rcases mem_cons.mp hblock with rfl | hlater
    · exact hall
    · exact hinv.complete _ hlater
  · cases later with
    | nil =>
      cases heq
      exact (hinv.above [] cur _ hwork next hfwd).resolve_right not_mem_nil
    | cons head later =>
      cases heq
      exact hinv.ordered later b earlier rfl next hfwd
  · rw [htail] at heq
    rcases hinv.above (cur :: later) b below (by rw [hwork, heq]; rfl) next
      hfwd with hbefore | habove
    · exact .inl (mem_cons_of_mem _ hbefore)
    · rcases mem_cons.mp habove with rfl | hlater
      · exact .inl mem_cons_self
      · exact .inr hlater
  · rw [htail]
    have hchain := hinv.chain
    rw [hwork] at hchain
    exact hchain.tail
  · rw [htail, hmem] at hblock
    exact hinv.parent _ hblock
  · rw [htail] at heq
    exact hinv.marked (cur :: later) b below (by rw [hwork, heq]; rfl) next hmarked
  · rw [htail, hmem]
    exact hinv.back b next hmarked

end Pop

section Visit

variable (hinv : Invariant graph search finished) (hwork : search.worklist = cur :: rest)
  (hsucc : (graph.succs cur)[search.successorsVisited cur]? = some succ)

section

include hsucc

theorem take_countSuccessor (b : Fin count) :
    (graph.succs b).take ((search.countSuccessor cur).successorsVisited b) =
      (graph.succs b).take (search.successorsVisited b) ++ if b = cur then [succ] else [] := by
  by_cases heq : b = cur
  · subst heq
    simp [countSuccessor, take_add_one, hsucc]
  · simp [countSuccessor, heq]

theorem explored_countSuccessor (b next : Fin count) :
    (search.countSuccessor cur).Explored graph b next ↔
      search.Explored graph b next ∨ b = cur ∧ next = succ := by
  rw [Explored, take_countSuccessor hsucc, mem_append]
  by_cases heq : b = cur <;> simp [Explored, heq]

theorem count_take_countSuccessor (b next : Fin count) :
    ((graph.succs b).take ((search.countSuccessor cur).successorsVisited b)).count next =
      ((graph.succs b).take (search.successorsVisited b)).count next +
        if b = cur ∧ next = succ then 1 else 0 := by
  rw [take_countSuccessor hsucc, count_append]
  by_cases heq : b = cur <;> simp [heq, count_singleton, @eq_comm _ succ]

end

include hinv

theorem Invariant.explored_nil {b : Fin count} (hblock : b ∉ search.worklist ++ finished)
    (next : Fin count) : ¬ search.Explored graph b next := by
  rw [Explored, hinv.unvisited _ hblock, take_zero]
  exact not_mem_nil

include hwork

omit hinv in
theorem current_mem (finished : List (Fin count)) : cur ∈ search.worklist ++ finished := by
  rw [hwork]
  exact mem_append_left _ mem_cons_self

include hsucc

/-- The fields that count the successors. -/
theorem Invariant.countSuccessor : (∀ b, (search.countSuccessor cur).successorsVisited b ≤
      (graph.succs b).length) ∧
    (∀ b, b ∉ search.worklist ++ finished → (search.countSuccessor cur).successorsVisited b = 0) ∧
    ∀ b ∈ finished, (search.countSuccessor cur).successorsVisited b = (graph.succs b).length := by
  have hmem := current_mem hwork finished
  have hfinished := (hinv.current_notMem hwork).2
  have hother : ∀ b, b ≠ cur →
      (search.countSuccessor cur).successorsVisited b = search.successorsVisited b :=
    fun b hne => update_of_ne hne _ _
  refine ⟨fun b => ?_, fun b hblock => ?_, fun b hblock => ?_⟩
  · by_cases heq : b = cur
    · subst heq
      obtain ⟨hlt, -⟩ := List.getElem?_eq_some_iff.mp hsucc
      exact (update_self b _ search.successorsVisited).trans_le hlt
    · rw [hother _ heq]
      exact hinv.bound b
  · rw [hother b fun heq => hblock (heq ▸ hmem)]
    exact hinv.unvisited _ hblock
  · rw [hother b fun heq => hfinished (heq ▸ hblock)]
    exact hinv.complete _ hblock

theorem Invariant.addBackEdge (hvisiting : search.visiting succ) :
    Invariant graph ((search.countSuccessor cur).addBackEdge cur succ) finished := by
  obtain ⟨hbound, hunvisited, hcompl⟩ := hinv.countSuccessor hwork hsucc
  have hstack := (hinv.visiting succ).mp hvisiting
  have hnotFinished : succ ∉ finished := fun hmem =>
    (disjoint_of_nodup_append hinv.nodup) hstack hmem
  -- The edge was not visited before without being marked.
  have hnotForward : ¬ search.Forward graph cur succ := fun hfwd =>
    (hinv.above [] cur _ hwork _ hfwd).elim hnotFinished not_mem_nil
  have hmarked : ∀ b next, b ∈ ((search.countSuccessor cur).addBackEdge cur succ).backEdges next ↔
        b ∈ search.backEdges next ∨ b = cur ∧ next = succ := by
    intro b next
    by_cases heq : next = succ <;>
      simp [BackEdgeSearch.addBackEdge, BackEdgeSearch.countSuccessor, heq]
  have hexplored : ∀ b next,
      ((search.countSuccessor cur).addBackEdge cur succ).Explored graph b next ↔
        search.Explored graph b next ∨ b = cur ∧ next = succ :=
    explored_countSuccessor hsucc
  have hfwd : ∀ b next, ((search.countSuccessor cur).addBackEdge cur succ).Forward graph b next ↔
        search.Forward graph b next := by
    intro b next
    rw [Forward, Forward, hexplored, hmarked]
    by_cases hsame : b = cur ∧ next = succ
    · obtain ⟨rfl, rfl⟩ := hsame
      simpa [Forward] using hnotForward
    · simp [hsame]
  refine ⟨hinv.nodup, hinv.visiting, hinv.visited, hinv.entry, hbound,
    hunvisited, hcompl, fun later b earlier heq next hnext => ?_,
    fun later b below heq next hnext => ?_, ?_, fun b hblock => ?_,
    fun later b below heq next hnext => ?_, fun b next hnext => ?_,
    fun b next hnext => ?_⟩
  · exact hinv.ordered _ _ _ heq next ((hfwd _ _).mp hnext)
  · exact hinv.above _ _ _ heq next ((hfwd _ _).mp hnext)
  · exact hinv.chain.imp fun child b hchild => (hfwd _ _).mpr hchild
  · exact (hinv.parent _ hblock).imp_right fun ⟨pred, hpred⟩ => ⟨pred, (hfwd _ _).mpr hpred⟩
  · rcases (hmarked _ _).mp hnext with hold | ⟨rfl, rfl⟩
    · exact hinv.marked _ _ _ heq next hold
    · -- The current block is the first one of the stack.
      change search.worklist = _ at heq
      have hnodup := hinv.nodup.of_append_left
      cases later with
      | nil => rwa [heq] at hstack
      | cons head later =>
        rw [hwork, nodup_cons] at hnodup
        rw [hwork] at heq
        cases heq
        exact absurd (mem_append_right _ mem_cons_self) hnodup.1
  · rw [hexplored]
    rcases (hmarked _ _).mp hnext with hold | ⟨rfl, rfl⟩
    · obtain ⟨hold, hmem, hpath⟩ := hinv.back b next hold
      exact ⟨.inl hold, hmem,
        Relation.ReflTransGen.mono (fun _ _ hedge => (hfwd _ _).mpr hedge) _ _ hpath⟩
    · refine ⟨.inr ⟨rfl, rfl⟩, mem_append_left _ hstack, ?_⟩
      have hchain := hinv.chain
      rw [hwork] at hchain hstack
      exact Relation.ReflTransGen.mono (fun _ _ hedge => (hfwd _ _).mpr hedge) _ _
        (reflTransGen_of_isChain hchain hstack)
  · have hcount : (((search.countSuccessor cur).addBackEdge cur succ).backEdges
        next).count b =
        (search.backEdges next).count b + if b = cur ∧ next = succ then 1 else 0 := by
      by_cases hsame : next = succ <;> simp [BackEdgeSearch.addBackEdge,
        BackEdgeSearch.countSuccessor, hsame, count_singleton, @eq_comm _ cur]
    rw [hcount]
    refine Eq.trans ?_ (count_take_countSuccessor hsucc b next).symm
    congr 1
    by_cases hold : b ∈ search.backEdges next
    · exact hinv.countBack b next hold
    · -- The first copy of the edge that is visited.
      obtain ⟨rfl, rfl⟩ := ((hmarked _ _).mp hnext).resolve_left hold
      rw [count_eq_zero_of_not_mem hold, count_eq_zero_of_not_mem]
      exact fun hmem => hnotForward ⟨hmem, hold⟩

/-- What holds of an edge that is not marked. -/
theorem Invariant.forward_countSuccessor (hunmarked : cur ∉ search.backEdges succ) :
    (∀ b next, (search.countSuccessor cur).Forward graph b next ↔
      search.Forward graph b next ∨ b = cur ∧ next = succ) ∧
    ∀ b next, b ∈ search.backEdges next → (search.backEdges next).count b = ((graph.succs b).take
        ((search.countSuccessor cur).successorsVisited b)).count next := by
  refine ⟨fun b next => ?_, fun b next hmarked => ?_⟩
  · rw [Forward, Forward, explored_countSuccessor hsucc]
    change _ ∧ b ∉ search.backEdges next ↔ _
    by_cases hsame : b = cur ∧ next = succ
    · obtain ⟨rfl, rfl⟩ := hsame
      simp [hunmarked]
    · simp [hsame]
  · have hsame : ¬ (b = cur ∧ next = succ) := by
      rintro ⟨rfl, rfl⟩
      exact hunmarked hmarked
    rw [count_take_countSuccessor hsucc, if_neg hsame, Nat.add_zero]
    exact hinv.countBack b next hmarked

theorem Invariant.skip (hvisiting : search.visiting succ = false) (hvis : search.visited succ) :
    Invariant graph (search.countSuccessor cur) finished := by
  obtain ⟨hbound, hunvisited, hcompl⟩ := hinv.countSuccessor hwork hsucc
  have hstack : succ ∉ search.worklist := by
    rw [← hinv.visiting, hvisiting]
    exact Bool.false_ne_true
  have hfinished : succ ∈ finished :=
    (mem_append.mp ((hinv.visited succ).mp hvis)).resolve_left hstack
  have hunmarked : cur ∉ search.backEdges succ := by
    intro hmarked
    have hmem := hinv.marked [] cur _ hwork _ hmarked
    rw [hwork] at hstack
    exact hstack hmem
  obtain ⟨hfwd, hcount⟩ := hinv.forward_countSuccessor hwork hsucc hunmarked
  have hcur := (hinv.current_notMem hwork).2
  refine ⟨hinv.nodup, hinv.visiting, hinv.visited, hinv.entry, hbound,
    hunvisited, hcompl, fun later b earlier heq next hnext => ?_,
    fun later b below heq next hnext => ?_, ?_, fun b hblock => ?_, hinv.marked,
    fun b next hnext => ?_, hcount⟩
  · rcases (hfwd _ _).mp hnext with hold | ⟨rfl, -⟩
    · exact hinv.ordered _ _ _ heq next hold
    · refine absurd ?_ hcur
      rw [heq]
      exact mem_append_right _ mem_cons_self
  · rcases (hfwd _ _).mp hnext with hold | ⟨-, rfl⟩
    · exact hinv.above _ _ _ heq next hold
    · exact .inl hfinished
  · exact hinv.chain.imp fun child b hchild => (hfwd _ _).mpr (.inl hchild)
  · exact (hinv.parent _ hblock).imp_right fun ⟨pred, hpred⟩ => ⟨pred, (hfwd _ _).mpr (.inl hpred)⟩
  · obtain ⟨hold, hmem, hpath⟩ := hinv.back b next hnext
    exact ⟨(explored_countSuccessor hsucc _ _).mpr (.inl hold), hmem,
      Relation.ReflTransGen.mono (fun _ _ hedge => (hfwd _ _).mpr (.inl hedge)) _ _ hpath⟩

theorem Invariant.push (hvis : search.visited succ = false) :
    Invariant graph ((search.countSuccessor cur).push succ) finished := by
  obtain ⟨hbound, hunvisited, hcompl⟩ := hinv.countSuccessor hwork hsucc
  have hnew : succ ∉ search.worklist ++ finished := by
    rw [← hinv.visited, hvis]
    exact Bool.false_ne_true
  have hnil := hinv.explored_nil hnew
  have hne : succ ≠ cur := fun heq => hnew (heq ▸ current_mem hwork finished)
  have hunmarked : cur ∉ search.backEdges succ := fun hmarked => hnew (hinv.back cur _ hmarked).2.1
  obtain ⟨hfwd, hcount⟩ := hinv.forward_countSuccessor hwork hsucc hunmarked
  have hcur := (hinv.current_notMem hwork).2
  have hmemCons : ∀ b, b ∈ (succ :: search.worklist) ++ finished ↔
      b = succ ∨ b ∈ search.worklist ++ finished := by
    intro b
    rw [cons_append, mem_cons]
  refine ⟨?_, fun b => ?_, fun b => ?_, ?_, hbound, fun b hblock => ?_, hcompl,
    fun later b earlier heq next hnext => ?_, fun later b below heq next hnext => ?_, ?_,
    fun b hblock => ?_, fun later b below heq next hnext => ?_,
    fun b next hnext => ?_, hcount⟩
  · exact nodup_cons.mpr ⟨hnew, hinv.nodup⟩
  · by_cases heq : b = succ <;>
      simp [BackEdgeSearch.push, BackEdgeSearch.countSuccessor, heq, hinv.visiting]
  · by_cases heq : b = succ <;>
      simp [BackEdgeSearch.push, BackEdgeSearch.countSuccessor, heq, hinv.visited]
  · exact (hmemCons _).mpr (.inr hinv.entry)
  · exact hunvisited b fun hold => hblock ((hmemCons _).mpr (.inr hold))
  · rcases (hfwd _ _).mp hnext with hold | ⟨rfl, -⟩
    · exact hinv.ordered _ _ _ heq next hold
    · refine absurd ?_ hcur
      rw [heq]
      exact mem_append_right _ mem_cons_self
  · change succ :: search.worklist = _ at heq
    cases later with
    | nil =>
      cases heq
      rcases (hfwd _ _).mp hnext with hold | ⟨rfl, -⟩
      · exact absurd hold.1 (hnil next)
      · exact absurd rfl hne
    | cons head later =>
      obtain ⟨rfl, hrest⟩ := cons.inj heq
      rcases (hfwd _ _).mp hnext with hold | ⟨-, rfl⟩
      · exact (hinv.above _ _ _ hrest next hold).imp_right (mem_cons_of_mem _)
      · exact .inr mem_cons_self
  · change (succ :: search.worklist).IsChain _
    have hchain := hinv.chain.imp fun child b hchild => (hfwd b child).mpr (.inl hchild)
    rw [hwork] at hchain ⊢
    exact .cons_cons ((hfwd _ _).mpr (.inr ⟨rfl, rfl⟩)) hchain
  · rcases (hmemCons _).mp hblock with rfl | hold
    · exact .inr ⟨cur, (hfwd _ _).mpr (.inr ⟨rfl, rfl⟩)⟩
    · exact (hinv.parent _ hold).imp_right fun ⟨pred, hpred⟩ => ⟨pred, (hfwd _ _).mpr (.inl hpred)⟩
  · change succ :: search.worklist = _ at heq
    cases later with
    | nil =>
      cases heq
      exact absurd (hinv.back succ next hnext).1 (hnil next)
    | cons head later =>
      obtain ⟨rfl, hrest⟩ := cons.inj heq
      exact hinv.marked _ _ _ hrest next hnext
  · obtain ⟨hold, hmem, hpath⟩ := hinv.back b next hnext
    exact ⟨(explored_countSuccessor hsucc _ _).mpr (.inl hold),
      (hmemCons _).mpr (.inr hmem),
      Relation.ReflTransGen.mono (fun _ _ hedge => (hfwd _ _).mpr (.inl hedge)) _ _ hpath⟩

end Visit

variable (graph search) in
/-- The edges that were not visited, and the blocks on the stack. -/
def measure : ℕ := 2 * ∑ block, ((graph.succs block).length - search.successorsVisited block) +
    search.worklist.length

theorem sum_countSuccessor (hsucc : (graph.succs cur)[search.successorsVisited cur]? = some succ) :
    ∑ b, ((graph.succs b).length - (search.countSuccessor cur).successorsVisited b) <
      ∑ b, ((graph.succs b).length - search.successorsVisited b) := by
  obtain ⟨hlt, -⟩ := List.getElem?_eq_some_iff.mp hsucc
  have hself : (search.countSuccessor cur).successorsVisited cur =
      search.successorsVisited cur + 1 := update_self _ _ _
  refine Finset.sum_lt_sum (fun b _ => ?_) ⟨cur, Finset.mem_univ _, by omega⟩
  by_cases heq : b = cur
  · rw [heq]
    omega
  · rw [show (search.countSuccessor cur).successorsVisited b =
      search.successorsVisited b from update_of_ne heq _ _]

theorem exists_body (hinv : Invariant graph search finished) (hdone : search.isDone = false) :
    ∃ next, search.body graph = some next ∧ (∃ finished, Invariant graph next finished) ∧
      measure graph next < measure graph search := by
  rcases hwork : search.worklist with _ | ⟨cur, rest⟩
  · rw [isDone, hwork] at hdone
    cases hdone
  rw [body, hwork]
  dsimp only
  split
  next hall =>
    refine ⟨_, rfl, ⟨_, hinv.pop hwork hall⟩, ?_⟩
    simp only [measure, pop, hwork, tail_cons, length_cons]
    omega
  next hnot =>
    have hlt : search.successorsVisited cur < (graph.succs cur).length :=
      lt_of_le_of_ne (hinv.bound cur) hnot
    have hsucc := getElem?_eq_getElem hlt
    generalize (graph.succs cur)[search.successorsVisited cur] = succ
      at hsucc
    have hsum := sum_countSuccessor hsucc
    rw [hsucc]
    refine ⟨_, rfl, ?_⟩
    rw [visitSuccessor]
    split
    next hvisiting =>
      refine ⟨⟨_, hinv.addBackEdge hwork hsucc hvisiting⟩, ?_⟩
      simp only [measure]
      change 2 * _ + search.worklist.length < _
      change 2 * ∑ b, ((graph.succs b).length -
        (search.countSuccessor cur).successorsVisited b) + _ < _
      omega
    next hvisiting =>
      rw [Bool.not_eq_true] at hvisiting
      split
      next hvis =>
        rw [Bool.not_eq_true'] at hvis
        refine ⟨⟨_, hinv.push hwork hsucc hvis⟩, ?_⟩
        simp only [measure]
        change 2 * ∑ b, ((graph.succs b).length -
          (search.countSuccessor cur).successorsVisited b) + (succ :: search.worklist).length < _
        rw [length_cons]
        omega
      next hvis =>
        rw [Bool.not_eq_true', Bool.not_eq_false] at hvis
        refine ⟨⟨_, hinv.skip hwork hsucc hvisiting hvis⟩, ?_⟩
        simp only [measure]
        change 2 * _ + search.worklist.length < _
        omega

end BackEdgeSearch

def ForwardEdge (backEdges : Fin count → List (Fin count)) (block successor : Fin count) : Prop :=
  successor ∈ graph.succs block ∧ block ∉ backEdges successor

/-- What the traversal of the graph needs to know about the back edges. -/
structure MarksBackEdges (backEdges : Fin count → List (Fin count)) : Prop where
  acyclic : ∃ rank : Fin count → ℕ, ∀ block successor,
    ForwardEdge graph backEdges block successor → rank successor < rank block
  parent : ∀ block, block ≠ graph.entry → ∃ predecessor,
    ForwardEdge graph backEdges predecessor block
  path : ∀ block successor, block ∈ backEdges successor →
    Relation.ReflTransGen (ForwardEdge graph backEdges) successor block
  countBack : ∀ block successor, block ∈ backEdges successor →
    (backEdges successor).count block = (graph.succs block).count successor

theorem exists_findBackEdges (hreach : ∀ b, graph.Reachable b) :
    ∃ backEdges, findBackEdges graph = some backEdges ∧ MarksBackEdges graph backEdges := by
  obtain ⟨last, hlast, ⟨finished, hinv⟩, hdone⟩ := exists_whileLoop
    (fun search => ∃ finished, BackEdgeSearch.Invariant graph search finished)
    (BackEdgeSearch.measure graph)
    (fun search ⟨_, hinv⟩ hdone => BackEdgeSearch.exists_body hinv hdone)
    (2 * edgeCount graph + count + 1) (BackEdgeSearch.start graph)
    ⟨[], BackEdgeSearch.invariant_start graph⟩ (by
      have hsum : BackEdgeSearch.measure graph (BackEdgeSearch.start graph) =
          2 * edgeCount graph + 1 := rfl
      omega)
  refine ⟨last.backEdges, by rw [findBackEdges, hlast]; rfl, ?_⟩
  have hempty : last.worklist = [] := isEmpty_iff.mp hdone
  have hfinished : ∀ b, b ∈ last.worklist ++ finished ↔ b ∈ finished := by
    intro b
    rw [hempty, nil_append]
  -- All blocks were visited.
  have hall : ∀ b, b ∈ finished := by
    intro b
    obtain ⟨past, htrace⟩ := hreach _
    generalize hlist : b :: past = list at htrace
    induction htrace generalizing b past with
    | entry =>
      obtain ⟨rfl, -⟩ := cons.inj hlist
      exact (hfinished _).mp hinv.entry
    | @step src t past' _ hedge ih =>
      obtain ⟨rfl, -⟩ := cons.inj hlist
      have hsrc := ih _ _ rfl
      by_cases hmarked : src ∈ last.backEdges b
      · exact (hfinished _).mp (hinv.back _ _ hmarked).2.1
      · obtain ⟨later, earlier, heq⟩ := append_of_mem hsrc
        have hexplored : last.Explored graph src b := by
          rw [BackEdgeSearch.Explored, hinv.complete _ hsrc, take_length]
          exact hedge
        have hmem := hinv.ordered _ _ _ heq b ⟨hexplored, hmarked⟩
        rw [heq]
        exact mem_append_right _ (mem_cons_of_mem _ hmem)
  have hfwd : ∀ b succ, ForwardEdge graph last.backEdges b succ ↔ last.Forward graph b succ := by
    intro b succ
    rw [ForwardEdge, BackEdgeSearch.Forward, BackEdgeSearch.Explored,
      hinv.complete b (hall b), take_length]
  refine ⟨⟨fun b => finished.length - finished.idxOf b, fun b succ hedge => ?_⟩,
    fun b hne => ?_, fun b succ hmarked => ?_, fun b succ hmarked => ?_⟩
  · -- The visit of the successor ends before that of the block.
    obtain ⟨later, earlier, heq⟩ := append_of_mem (hall b)
    have hmem := hinv.ordered _ _ _ heq _ ((hfwd _ _).mp hedge)
    have hnodup := hinv.nodup
    rw [hempty, nil_append, heq] at hnodup
    have hblock : b ∉ later := fun hlater => (disjoint_of_nodup_append hnodup) hlater mem_cons_self
    have hsucc : succ ∉ later := fun hlater =>
      (disjoint_of_nodup_append hnodup) hlater (mem_cons_of_mem _ hmem)
    have hne : b ≠ succ := fun hsame => (nodup_cons.mp hnodup.of_append_right).1 (hsame ▸ hmem)
    have hlt := idxOf_lt_length_iff.mpr (hall succ)
    have hindex : finished.idxOf b < finished.idxOf succ := by
      rw [heq, idxOf_append_of_notMem hblock, idxOf_append_of_notMem hsucc,
        idxOf_cons_self, idxOf_cons_ne _ hne]
      omega
    change finished.length - _ < finished.length - _
    omega
  · obtain ⟨pred, hpred⟩ := (hinv.parent b ((hfinished _).mpr (hall b))).resolve_left hne
    exact ⟨pred, (hfwd _ _).mpr hpred⟩
  · exact Relation.ReflTransGen.mono (fun _ _ hedge => (hfwd _ _).mpr hedge) _ _
      (hinv.back _ _ hmarked).2.2
  · rw [hinv.countBack _ _ hmarked, hinv.complete b (hall b), take_length]

end NougatArt.Graphs
