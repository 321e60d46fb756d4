import NougatArt.Core.NaturalLoop
import NougatArt.Heap.Replacement

/-!
# Value propagation through the heap

This is `HValuePropagationThroughHeap`. For each loop the preheader is searched
backwards for field setters; a getter in the loop that must alias one of them is
replaced by the stored value, unless a write in the loop may alias the setter.
-/

namespace NougatArt.Heap

open List

variable {Class : Type} {insns : ℕ}

/-- A loop and its preheader, the block from which alone the loop is entered. -/
structure HLoopInformation (flow : FlowGraph (Fin insns)) extends NaturalLoop flow where
  numberOfBlocks : ℕ
  preHeader : List (Fin insns)
  preHeader_nodup : preHeader.Nodup
  preHeader_notMem : ∀ insn ∈ preHeader, insn ∉ body
  entered_from_preHeader : ∀ source, source ∉ body → header ∈ flow.succs source →
    preHeader.getLast? = some source
  falls_through : preHeader.IsChain fun first second =>
    second ≠ flow.entry ∧ ∀ source, second ∈ flow.succs source → source = first

namespace HLoopInformation

variable {flow : FlowGraph (Fin insns)} {loop : HLoopInformation flow}

variable {before after : List (Fin insns)}

theorem falls_through_of_eq {first second : Fin insns}
    (hsplit : loop.preHeader = before ++ first :: second :: after) :
    second ≠ flow.entry ∧ ∀ src, second ∈ flow.succs src → src = first := by
  have hchain := loop.falls_through
  rw [hsplit] at hchain
  exact (isChain_append_cons_cons.mp hchain).2.1

variable {setter insn : Fin insns} {past : List (Fin insns)}

/-- Inside of the preheader control comes from the instructions before. -/
theorem exists_setter_of_mem_after {later : List (Fin insns)}
    (hsplit : loop.preHeader = before ++ setter :: (after ++ insn :: later))
    (htrace : flow.Trace (insn :: past)) :
    ∃ inside earlier, past = inside ++ setter :: earlier ∧ ∀ other ∈ inside, other ∈ after := by
  induction after using reverseRecOn generalizing insn later past with
  | nil =>
    obtain ⟨hentry, hsrc⟩ := falls_through_of_eq hsplit
    cases past with
    | nil => exact absurd htrace.eq_entry hentry
    | cons src past =>
      exact ⟨[], past, by rw [hsrc _ htrace.edge, nil_append], by simp⟩
  | append_singleton after previous ih =>
    have hsplit' : loop.preHeader = (before ++ setter :: after) ++ previous :: insn :: later := by
      simpa using hsplit
    obtain ⟨hentry, hsrc⟩ := falls_through_of_eq hsplit'
    rcases past with _ | ⟨src, past⟩
    · exact absurd htrace.eq_entry hentry
    obtain rfl := hsrc _ htrace.edge
    have hpast := htrace.tail
    obtain ⟨inside, earlier, rfl, hinside⟩ := ih (by simpa using hsplit) hpast
    refine ⟨src :: inside, earlier, rfl, ?_⟩
    simp only [mem_cons, mem_append, not_mem_nil, or_false]
    rintro other (rfl | hother)
    · exact .inr rfl
    · exact .inl (hinside _ hother)

/-- An execution that is in the loop has executed every instruction of the preheader,
and after it only the later ones and instructions of the loop. -/
theorem exists_setter_of_mem_body (hsplit : loop.preHeader = before ++ setter :: after)
    (hbody : insn ∈ loop.body) (htrace : flow.Trace (insn :: past)) :
    ∃ inside earlier, past = inside ++ setter :: earlier ∧
      ∀ other ∈ inside, other ∈ after ∨ other ∈ loop.body := by
  induction past generalizing insn with
  | nil =>
    rw [htrace.eq_entry] at hbody
    exact absurd hbody loop.entry_notMem
  | cons src past ih =>
    have hpast := htrace.tail
    by_cases hsrc : src ∈ loop.body
    · obtain ⟨inside, earlier, rfl, hinside⟩ := ih hsrc hpast
      refine ⟨src :: inside, earlier, rfl, ?_⟩
      rintro other hother
      rcases mem_cons.mp hother with rfl | hother
      · exact .inr hsrc
      · exact hinside _ hother
    · -- The loop is entered from the last instruction of the preheader.
      have hheader : insn = loop.header := by
        by_contra hne
        exact hsrc (loop.entered_at_header _ _ htrace.edge hbody hne)
      have hlast := loop.entered_from_preHeader _ hsrc (hheader ▸ htrace.edge)
      rw [hsplit] at hlast
      rcases eq_nil_or_concat' after with rfl | ⟨after, last, rfl⟩
      · obtain rfl : setter = src := by simpa using hlast
        exact ⟨[], past, rfl, by simp⟩
      · rw [← cons_append, ← append_assoc, getLast?_concat] at hlast
        obtain rfl := Option.some.inj hlast
        obtain ⟨inside, earlier, rfl, hinside⟩ := exists_setter_of_mem_after hsplit hpast
        refine ⟨last :: inside, earlier, rfl, ?_⟩
        rintro other hother
        rcases mem_cons.mp hother with rfl | hother
        · exact .inl (by simp)
        · exact .inl (by simp [hinside _ hother])

theorem dominates_of_mem_preHeader (hsetter : setter ∈ loop.preHeader) (hbody : insn ∈ loop.body) :
    flow.Dominates setter insn := by
  intro past htrace
  obtain ⟨before, after, hsplit⟩ := append_of_mem hsetter
  obtain ⟨inside, earlier, rfl, -⟩ := exists_setter_of_mem_body hsplit hbody htrace
  simp

theorem dominates_of_mem_after (hsplit : loop.preHeader = before ++ setter :: after)
    (hafter : insn ∈ after) : flow.Dominates setter insn := by
  intro past htrace
  obtain ⟨middle, later, rfl⟩ := append_of_mem hafter
  obtain ⟨inside, earlier, rfl, -⟩ := exists_setter_of_mem_after hsplit htrace
  simp

end HLoopInformation

def Kind.isNotSafeForVPThroughHeap : Kind → Bool
  | .instanceFieldGet field | .instanceFieldSet field
  | .staticFieldGet field | .staticFieldSet field => field.isVolatile
  | .other _ isMonitorOperation isInvoke => isInvoke || isMonitorOperation
  | _ => false

def Kind.isFieldSet : Kind → Bool
  | .instanceFieldSet _ | .staticFieldSet _ => true
  | _ => false

def Kind.isFieldGet : Kind → Bool
  | .instanceFieldGet _ | .staticFieldGet _ => true
  | _ => false

theorem arity_of_isFieldSet {kind : Kind} (hset : kind.isFieldSet) : 1 < kind.arity := by
  cases kind with
  | instanceFieldSet | staticFieldSet => exact Nat.lt_succ_self 1
  | instanceFieldGet | staticFieldGet | arrayGet | arraySet | addLHSMemory | nullCheck
  | boundsCheck | clinitCheck | loadClass | intConstant | phi | other => cases hset

namespace HGraph

variable [DecidableEq Class] (graph : HGraph Class insns) (loop : HLoopInformation graph.flow)
  (isAssignableFrom : Class → Class → Bool)

def Setter : Type :=
  {insn : Fin insns // insn ∈ loop.preHeader ∧ (graph.kind insn).isFieldSet = true}

/-- The search of `GetCandidateSetters` through the instructions of the preheader,
the last one first. -/
def candidateSettersFrom (setters : List (graph.Setter loop)) :
    List {insn // insn ∈ loop.preHeader} → List (graph.Setter loop)
  | [] => setters
  | insn :: rest =>
    if (graph.kind insn.1).isNotSafeForVPThroughHeap then
      setters
    else if hset : (graph.kind insn.1).isFieldSet = true then
      -- There must be no already found setter to the same location.
      if setters.all fun setter => graph.aliasCheck isAssignableFrom setter.1 insn.1 = .noAlias then
        candidateSettersFrom (⟨insn.1, insn.2, hset⟩ :: setters) rest
      else
        candidateSettersFrom setters rest
    else
      candidateSettersFrom setters rest

def getCandidateSetters : List (graph.Setter loop) :=
  graph.candidateSettersFrom loop isAssignableFrom [] loop.preHeader.attach.reverse

/-- The writes `PropagateValueToGetters` records in the loop. -/
def loopSetters : Finset (Fin insns) := loop.body.filter fun insn =>
    (graph.kind insn).isFieldSet || (graph.kind insn).hasWriteSideEffects

def loopGetters : Finset (Fin insns) := loop.body.filter fun insn =>
    !((graph.kind insn).isFieldSet || (graph.kind insn).hasWriteSideEffects) &&
      (graph.kind insn).isFieldGet

variable {graph loop} in
/-- The value of the setter replaces the getters that must alias it. -/
def replaceGetters (replacement : Replacement graph) (setter : graph.Setter loop)
    (getters : Finset (Fin insns)) (hgetters : getters ⊆ graph.loopGetters loop) :
    Replacement graph where
  target insn :=
    -- A getter that has been replaced before has no uses left.
    if insn ∈ getters ∧ replacement.target insn = insn then
      (graph.replaceUses replacement).inputAt setter.1 1
    else
      replacement.target insn
  dominates insn := by
    split
    next hgetter =>
      have harity : 1 < (graph.kind setter.1).arity := arity_of_isFieldSet setter.2.2
      have hvalue := (graph.replaceUses replacement).operands_dominate setter.1
        (kind_ne_phi harity) _ (inputAt_mem harity)
      exact hvalue.trans (HLoopInformation.dominates_of_mem_preHeader setter.2.1
        (Finset.mem_filter.mp (hgetters hgetter.1)).1)
    · exact replacement.dominates insn
  produces insn hproduces := by
    split
    · have harity : 1 < (graph.kind setter.1).arity := arity_of_isFieldSet setter.2.2
      exact (graph.replaceUses replacement).operands_produce setter.1 _ (inputAt_mem harity)
    · exact replacement.produces insn hproduces

/-- The body of the loop of `PropagateValueToGetters` over the setters. Aliasing is
asked about the graph as rewritten so far. -/
def propagateValue (replacement : Replacement graph) (setter : graph.Setter loop) :
    Replacement graph :=
  let current := graph.replaceUses replacement
  if ∀ loopSetter ∈ graph.loopSetters loop,
      current.aliasCheck isAssignableFrom setter.1 loopSetter = .noAlias then
    replaceGetters replacement setter ((graph.loopGetters loop).filter fun getter =>
        current.aliasCheck isAssignableFrom setter.1 getter = .mustAlias)
      (Finset.filter_subset _ _)
  else
    replacement

/-- `PropagateValueToGetters`; the setters are a set, visited in some order. -/
def propagateValueToGetters (setters : List (graph.Setter loop)) : Replacement graph :=
  setters.foldl (graph.propagateValue loop isAssignableFrom) (.identity graph)

def gate (maxBasicBlockNumber : ℕ) : Bool := loop.numberOfBlocks ≤ maxBasicBlockNumber &&
    decide (∀ insn ∈ loop.body, (graph.kind insn).isNotSafeForVPThroughHeap = false)

/-- What `Run` does to one loop. -/
def runOnLoop (maxBasicBlockNumber : ℕ)
    (order : List (graph.Setter loop) → List (graph.Setter loop)) : Replacement graph :=
  if graph.gate loop maxBasicBlockNumber then
    graph.propagateValueToGetters loop isAssignableFrom
      (order (graph.getCandidateSetters loop isAssignableFrom))
  else
    .identity graph

end HGraph

end NougatArt.Heap
