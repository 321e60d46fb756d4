import NougatArt.Loops.BoundInformation

/-!
# Executions of a loop

The execution of a loop is followed block by block, together with the value of
one header phi in the current iteration. Every instruction that is computed
from this phi and from constants has a value that is a function of it; an `HIf`
on such an instruction goes to the successor its value selects. Any other block
goes where an arbitrary choice, made on the blocks visited so far, sends it. For
some choice this is the execution of the compiled method that enters the loop and
does not throw.
-/

namespace NougatArt.LoopBound

open Option Nat

variable {blocks insns : ℕ}

/-- The result of an instruction that is computed from its operands alone. -/
def Kind.compute (kind : Kind) (type : PrimitiveType) (operand : ℕ → Option ℤ) : Option ℤ :=
  match kind with
  | .intConstant constant => some constant.toInt
  | .longConstant constant => some constant.toInt
  | .add => (operand 0).bind fun left => (operand 1).map fun right => type.convert (left + right)
  | .typeConversion => (operand 0).map type.convert
  | .compare => (operand 0).bind fun left => (operand 1).map fun right =>
      IfCondition.compareValue left right
  | .condition comparison => (operand 0).bind fun left => (operand 1).map fun right =>
      if comparison.holds left right then 1 else 0
  | _ => none

namespace HGraph

variable (graph : HGraph blocks insns) (phi : Fin insns) (value : ℤ)

/-- The value of an instruction in an iteration where `phi` has the given value,
computed to a bounded depth of operands. -/
def evaluate : ℕ → Fin insns → Option ℤ
  | 0, _ => none
  | depth + 1, insn =>
    if insn = phi then
      some value
    else
      (graph.kind insn).compute (graph.type insn) fun index =>
        (graph.inputAt insn index).bind (evaluate depth)

/-- The instruction is determined by the phi, and this is its value. -/
def HasValue (insn : Fin insns) (result : ℤ) : Prop :=
  ∃ depth, graph.evaluate phi value depth insn = some result

/-- The successor an `HIf` selects: the first one if its input is not zero. -/
def ifSuccessor (block : Fin blocks) (condition : ℤ) : Option (Fin blocks) :=
  if condition ≠ 0 then (graph.flow.succs block)[0]? else (graph.flow.succs block)[1]?

def MayGo (source target : Fin blocks) : Prop :=
  target ∈ graph.flow.succs source ∧ (graph.kind (graph.lastInstruction source) = .ifInsn →
      ∀ condition result, graph.inputAt (graph.lastInstruction source) 0 = some condition →
        graph.HasValue phi value condition result →
        graph.ifSuccessor source result = some target)

/-- The block ends with an `HIf` on an instruction that the phi determines. -/
def Decided (source : Fin blocks) : Prop :=
  graph.kind (graph.lastInstruction source) = .ifInsn ∧
    ∃ condition result, graph.inputAt (graph.lastInstruction source) 0 = some condition ∧
      graph.HasValue phi value condition result

end HGraph

/-- Where control goes at the branches that the phi does not decide, after each history. -/
structure Choice (graph : HGraph blocks insns) where
  choose : Fin blocks → List (Fin blocks) → Fin blocks
  choose_mem : ∀ source past, graph.flow.succs source ≠ [] →
    choose source past ∈ graph.flow.succs source

/-- The blocks an execution has visited since it entered the loop, the latest
one first, and the value of `phi` in the current iteration. -/
inductive LoopRun {graph : HGraph blocks insns} (loop : HLoopInformation graph)
    (choice : Choice graph) (phi : Fin insns) : List (Fin blocks) → ℤ → Prop
  | enter {value : ℤ} (hvalue : ∀ input constant, graph.inputAt phi 0 = some input →
        graph.getIntConstantValue input = some constant → value = constant) :
      LoopRun loop choice phi [loop.header] value
  | forward {source target : Fin blocks} {past : List (Fin blocks)} {value : ℤ}
      (hrun : LoopRun loop choice phi (source :: past) value) (hsource : source ∈ loop.body)
      (hgo : graph.MayGo phi value source target)
      (hchosen : ¬ graph.Decided phi value source → target = choice.choose source past)
      (hne : target ≠ loop.header) :
      LoopRun loop choice phi (target :: source :: past) value
  | back {source : Fin blocks} {past : List (Fin blocks)} {value next : ℤ}
      (hrun : LoopRun loop choice phi (source :: past) value) (hsource : source ∈ loop.body)
      (hgo : graph.MayGo phi value source loop.header)
      (hchosen : ¬ graph.Decided phi value source → loop.header = choice.choose source past)
      (hnext : ∀ input result, graph.inputAt phi 1 = some input →
        graph.HasValue phi value input result → next = result) :
      LoopRun loop choice phi (loop.header :: source :: past) next

section

variable {graph : HGraph blocks insns} (loop : HLoopInformation graph) (choice : Choice graph)
  (phi : Fin insns)

/-- The execution leaves the loop: it is of bounded length, and while it is in the loop it goes
on. -/
def IsLeft : Prop :=
  (∃ bound, ∀ visited value, LoopRun loop choice phi visited value → visited.length ≤ bound) ∧
    ∀ block past value, LoopRun loop choice phi (block :: past) value → block ∈ loop.body →
      ∃ next value', LoopRun loop choice phi (next :: block :: past) value'

/-- The inner loops are left: the execution is never away from the header for longer than some
bound. -/
def InnerLoopsLeft : Prop :=
  ∃ limit, ∀ visited value, LoopRun loop choice phi visited value →
    (visited.takeWhile (· ≠ loop.header)).length ≤ limit

end

/-- Operands that are known keep the result of an instruction known. -/
theorem Kind.compute_mono {kind : Kind} {type : PrimitiveType}
    {operand operand' : ℕ → Option ℤ} {result : ℤ}
    (hop : ∀ i known, operand i = some known → operand' i = some known)
    (hres : kind.compute type operand = some result) :
    kind.compute type operand' = some result := by
  cases kind with
  | intConstant constant | longConstant constant | phi | ifInsn | other => exact hres
  | typeConversion =>
    obtain ⟨src, hsrc, hres⟩ := map_eq_some_iff.mp hres
    exact map_eq_some_iff.mpr ⟨src, hop 0 src hsrc, hres⟩
  | add | compare | condition =>
    obtain ⟨left, hleft, hres⟩ := bind_eq_some_iff.mp hres
    obtain ⟨right, hright, hres⟩ := map_eq_some_iff.mp hres
    exact bind_eq_some_iff.mpr ⟨left, hop 0 left hleft,
      map_eq_some_iff.mpr ⟨right, hop 1 right hright, hres⟩⟩

namespace HGraph

variable {graph : HGraph blocks insns} {phi : Fin insns} {value : ℤ}

variable {insn : Fin insns} {result left right : ℤ}

/-- A value found at some depth is found at every larger depth. -/
theorem evaluate_mono {depth depth' : ℕ} (hle : depth ≤ depth')
    (hres : graph.evaluate phi value depth insn = some result) :
    graph.evaluate phi value depth' insn = some result := by
  induction depth generalizing depth' insn result with
  | zero => simp [evaluate] at hres
  | succ depth ih =>
    obtain ⟨larger, rfl⟩ : ∃ larger, depth' = larger + 1 := ⟨depth' - 1, by omega⟩
    rw [evaluate] at hres ⊢
    by_cases hphi : insn = phi
    · simpa only [hphi, if_true] using hres
    · simp only [hphi, if_false] at hres ⊢
      refine Kind.compute_mono (fun i known hknown => ?_) hres
      rw [bind_eq_some_iff] at hknown ⊢
      obtain ⟨input, hinput, heval⟩ := hknown
      exact ⟨input, hinput, ih (le_of_succ_le_succ hle) heval⟩

theorem HasValue.unique (hleft : graph.HasValue phi value insn left)
    (hright : graph.HasValue phi value insn right) : left = right := by
  obtain ⟨depth, hleft⟩ := hleft
  obtain ⟨depth', hright⟩ := hright
  have hleft := evaluate_mono (le_max_left depth depth') hleft
  have hright := evaluate_mono (le_max_right depth depth') hright
  exact some.inj (hleft.symm.trans hright)

@[simp]
theorem hasValue_phi : graph.HasValue phi value phi result ↔ result = value := by
  have hself : graph.HasValue phi value phi value := ⟨1, by simp [evaluate]⟩
  exact ⟨fun hres => hres.unique hself, fun heq => heq ▸ hself⟩

/-- A branch on an instruction of known value goes where this value selects. -/
theorem mayGo_of_evaluate {src t : Fin blocks} (condition : Fin insns) (depth : ℕ)
    (result : ℤ) (hedge : t ∈ graph.flow.succs src)
    (hinput : graph.inputAt (graph.lastInstruction src) 0 = some condition)
    (hres : graph.evaluate phi value depth condition = some result)
    (htarget : graph.ifSuccessor src result = some t) : graph.MayGo phi value src t := by
  refine ⟨hedge, fun _ condition' result' hinput' hvalue => ?_⟩
  rw [hinput, some.injEq] at hinput'
  subst hinput'
  rwa [hvalue.unique ⟨depth, hres⟩]

/-- The operands of an instruction with two inputs of known values. -/
def knownOperands (left right : ℤ) : ℕ → Option ℤ
  | 0 => some left
  | 1 => some right
  | _ => none

theorem hasValue_of_compute {first second : Fin insns} (hphi : insn ≠ phi)
    (hfirst : graph.inputAt insn 0 = some first) (hsnd : graph.inputAt insn 1 = some second)
    (hleft : graph.HasValue phi value first left) (hright : graph.HasValue phi value second right)
    (hres : (graph.kind insn).compute (graph.type insn) (knownOperands left right) =
      some result) : graph.HasValue phi value insn result := by
  obtain ⟨depth, hleft⟩ := hleft
  obtain ⟨depth', hright⟩ := hright
  refine ⟨max depth depth' + 1, ?_⟩
  rw [evaluate, if_neg hphi]
  refine Kind.compute_mono (fun i known hknown => ?_) hres
  match i with
  | 0 =>
    rw [hfirst, bind_some, ← hknown]
    exact evaluate_mono (le_max_left depth depth') hleft
  | 1 =>
    rw [hsnd, bind_some, ← hknown]
    exact evaluate_mono (le_max_right depth depth') hright
  | _ + 2 => simp [knownOperands] at hknown

theorem hasValue_constant (value : ℤ) {constant : ℤ} (hphi : insn ≠ phi)
    (hconst : graph.getIntConstantValue insn = some constant) :
    graph.HasValue phi value insn constant := by
  refine ⟨1, ?_⟩
  rw [evaluate, if_neg hphi]
  unfold getIntConstantValue at hconst
  cases hkind : graph.kind insn <;> simp only [hkind, reduceCtorEq] at hconst <;>
    exact hconst

theorem hasValue_typeConversion {input : Fin insns} (hphi : insn ≠ phi)
    (hkind : graph.kind insn = .typeConversion) (hinput : graph.inputAt insn 0 = some input)
    {src : ℤ} (hsrc : graph.HasValue phi value input src) :
    graph.HasValue phi value insn ((graph.type insn).convert src) := by
  obtain ⟨depth, hsrc⟩ := hsrc
  refine ⟨depth + 1, ?_⟩
  rw [evaluate, if_neg hphi, hkind]
  change Option.map _ (Option.bind _ _) = _
  rw [hinput, bind_some, hsrc, map_some]

end HGraph

end NougatArt.LoopBound
