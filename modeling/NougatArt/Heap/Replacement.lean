import NougatArt.Heap.MustAlias

/-!
# Replacing the uses of instructions

`ReplaceWith` redirects the uses of an instruction to another one that dominates
it. If the value of the instruction is always that of its replacement, every
execution of the graph is an execution of the rewritten graph.
-/

namespace NougatArt.Heap

open List HGraph

variable {Class : Type} {insns : ℕ}

/-- What the uses of every instruction are redirected to. -/
structure Replacement (graph : HGraph Class insns) where
  target : Fin insns → Fin insns
  dominates : ∀ insn, graph.flow.Dominates (target insn) insn
  produces : ∀ insn, (graph.kind insn).producesValue = true →
    (graph.kind (target insn)).producesValue = true

def Replacement.identity (graph : HGraph Class insns) : Replacement graph where
  target := id
  dominates insn := FlowGraph.dominates_refl insn
  produces _ := id

/-- The graph after `ReplaceWith`. A replaced instruction has no uses left. -/
def HGraph.replaceUses (graph : HGraph Class insns) (replacement : Replacement graph) :
    HGraph Class insns where
  kind := graph.kind
  inputs insn := (graph.inputs insn).map replacement.target
  referenceTypeInfo := graph.referenceTypeInfo
  flow := graph.flow
  rank := graph.flow.dominatorCount
  reachable := graph.reachable
  arity_le insn := by
    rw [length_map]
    exact graph.arity_le insn
  rank_lt insn hphi input hinput := by
    obtain ⟨input, hmem, rfl⟩ := mem_map.mp hinput
    have hdominates := graph.operands_dominate insn hphi input hmem
    refine FlowGraph.dominatorCount_lt (graph.reachable insn)
      ((replacement.dominates input).trans hdominates) fun heq => ?_
    have hback := replacement.dominates input
    rw [heq] at hback
    exact input_ne hphi hmem (hdominates.antisymm (graph.reachable insn) hback)
  operands_dominate insn hphi input hinput := by
    obtain ⟨input, hmem, rfl⟩ := mem_map.mp hinput
    exact (replacement.dominates input).trans (graph.operands_dominate insn hphi input hmem)
  operands_produce insn input hinput := by
    obtain ⟨input, hmem, rfl⟩ := mem_map.mp hinput
    exact replacement.produces input (graph.operands_produce insn input hmem)

variable {graph : HGraph Class insns} {world : World Class} {replacement : Replacement graph}

@[simp]
theorem kind_replaceUses : (graph.replaceUses replacement).kind = graph.kind :=
  rfl

variable {insn : Fin insns} {i : ℕ}

theorem inputAt_replaceUses (hindex : i < (graph.kind insn).arity) :
    (graph.replaceUses replacement).inputAt insn i = replacement.target (graph.inputAt insn i) := by
  have hlen := Nat.lt_of_lt_of_le hindex (graph.arity_le insn)
  simp [inputAt, replaceUses, getD_eq_getElem?_getD, hlen]

variable (graph replacement) in
/-- The operands of the instruction have the values of their replacements. -/
def OperandsAgree (env : Fin insns → Value) (insn : Fin insns) : Prop :=
  graph.kind insn ≠ .phi → ∀ input ∈ graph.inputs insn, env (replacement.target input) = env input

variable {env : Fin insns → Value}

section

variable (hagree : OperandsAgree graph replacement env insn)

include hagree

theorem OperandsAgree.env_inputAt (hindex : i < (graph.kind insn).arity) :
    env ((graph.replaceUses replacement).inputAt insn i) = env (graph.inputAt insn i) := by
  rw [inputAt_replaceUses hindex]
  exact hagree (kind_ne_phi hindex) _ (inputAt_mem hindex)

theorem location_replaceUses :
    (graph.replaceUses replacement).location env insn = graph.location env insn :=
  location_congr kind_replaceUses (length_map _) fun _ hindex => hagree.env_inputAt hindex

theorem result_replaceUses {heap : Location → Value} :
    (graph.replaceUses replacement).result world env heap insn = graph.result world env heap insn :=
  result_congr kind_replaceUses (length_map _) fun _ hindex => hagree.env_inputAt hindex

theorem storedValue_replaceUses :
    (graph.replaceUses replacement).storedValue env insn = graph.storedValue env insn := by
  rw [storedValue, storedValue, kind_replaceUses]
  cases hkind : graph.kind insn with
  | instanceFieldSet | staticFieldSet | arraySet =>
    exact congrArg (fun v => some (narrow _ v))
      (hagree.env_inputAt (by rw [hkind]; exact Nat.lt_succ_self _))
  | instanceFieldGet | staticFieldGet | arrayGet | addLHSMemory | nullCheck | boundsCheck
  | clinitCheck | loadClass | intConstant | phi | other => rfl

end

variable {before after : State insns}

/-- Executing an instruction whose operands agree with their replacements. -/
theorem Step.replaceUses (hstep : Step graph world before insn after)
    (hagree : OperandsAgree graph replacement before.env insn) :
    Step (graph.replaceUses replacement) world before insn after where
  flows := hstep.flows
  trace_eq := hstep.trace_eq
  env_result v hvalue := hstep.env_result v (result_replaceUses hagree ▸ hvalue)
  env_other := hstep.env_other
  has_type := hstep.has_type
  seen_insn := hstep.seen_insn
  seen_other := hstep.seen_other
  touched_other := hstep.touched_other
  access hkind := by
    rw [location_replaceUses hagree, storedValue_replaceUses hagree]
    exact hstep.access hkind
  frame := hstep.frame
  no_write := hstep.no_write
  no_touch := hstep.no_touch

/-! ## Replacements that keep the values -/

/-- Whenever a replaced instruction is executed, its value is that of its replacement. -/
def Agrees (world : World Class) (replacement : Replacement graph) : Prop :=
  ∀ before insn after, Reachable graph world before → Step graph world before insn after →
    replacement.target insn ≠ insn → after.env insn = before.env (replacement.target insn)

variable {s : State insns}

section

variable (hagrees : Agrees world replacement) (hreach : Reachable graph world s)

include hagrees hreach

/-- As long as neither is executed again, an instruction has the value of its
replacement. -/
theorem Agrees.env_eq {later past : List (Fin insns)}
    (hsplit : s.trace = later ++ insn :: past) (hne : replacement.target insn ≠ insn)
    (hlatest : insn ∉ later) (htarget : replacement.target insn ∉ later) :
    s.env (replacement.target insn) = s.env insn := by
  refine hreach.of_latest hsplit (fun s => s.env (replacement.target insn) = s.env insn) ?_ ?_
  · intro before after hbefore hstep
    rw [hstep.env_other _ hne]
    exact (hagrees _ _ _ hbefore hstep hne).symm
  · intro before executed after _ hstep hmem hcur
    rw [hstep.env_other insn fun heq => hlatest (heq ▸ hmem),
      hstep.env_other (replacement.target insn) fun heq => htarget (heq ▸ hmem)]
    exact hcur

theorem Agrees.env_of_available (havail : Available graph s insn) :
    s.env (replacement.target insn) = s.env insn := by
  by_cases hne : replacement.target insn = insn
  · rw [hne]
  obtain ⟨point, rest, hpoint, hdom⟩ := havail
  have htrace := hreach.trace_cons hpoint
  obtain ⟨later, past, hsplit, hlatest⟩ := eq_append_cons_of_mem (hdom _ htrace)
  exact hagrees.env_eq hreach (hpoint.trans hsplit) hne hlatest
    (FlowGraph.notMem_later_of_dominates (replacement.dominates insn) hdom htrace hne
      hsplit hlatest)

end

/-- The operands of an instruction that is executed next are available. -/
theorem Step.available {input : Fin insns} (hstep : Step graph world before insn after)
    (hphi : graph.kind insn ≠ .phi) (hinput : input ∈ graph.inputs insn) :
    Available graph before input := by
  have hdom := graph.operands_dominate _ hphi _ hinput
  rcases hstep.flows with ⟨-, rfl⟩ | ⟨previous, past, hpast, hedge⟩
  · have hmem := hdom [] .entry
    exact absurd (mem_singleton.mp hmem) (input_ne hphi hinput)
  · exact ⟨previous, past, hpast, hdom.of_edge (input_ne hphi hinput) hedge⟩

theorem Agrees.operandsAgree (hagrees : Agrees world replacement)
    (hbefore : Reachable graph world before) (hstep : Step graph world before insn after) :
    OperandsAgree graph replacement before.env insn :=
  fun hphi _ hinput => hagrees.env_of_available hbefore (hstep.available hphi hinput)

/-- Every execution of the graph is one of the rewritten graph. -/
theorem Agrees.reachable (hagrees : Agrees world replacement) (hreach : Reachable graph world s) :
    Reachable (graph.replaceUses replacement) world s := by
  induction hreach with
  | start htrace htouched => exact .start htrace htouched
  | step hbefore hstep ih =>
    exact .step ih (hstep.replaceUses (hagrees.operandsAgree hbefore hstep))

end NougatArt.Heap
