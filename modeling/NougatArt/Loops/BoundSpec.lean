import NougatArt.Loops.LoopRun

/-!
# What the loop analyses have found

One specification for each analysis of the bound information: what is known of
a basic induction variable once it was detected, of the exit test once it was
recognized, and of the borders once they were accepted. Later arguments use
these and do not look into the analyses again.
-/

namespace NougatArt.LoopBound

open List Option HGraph PrimitiveType

variable {blocks insns : ℕ} {graph : HGraph blocks insns} {insn input : Fin insns}

theorem HGraph.mem_inputs_of_inputAt {i : ℕ}
    (hinput : graph.inputAt insn i = some input) : input ∈ (graph.instruction insn).inputs :=
  mem_of_getElem? hinput

theorem HGraph.ne_of_getIntConstantValue {phi : Fin insns} {constant : ℤ}
    (hphi : graph.kind phi = .phi)
    (hconst : graph.getIntConstantValue insn = some constant) : insn ≠ phi := by
  rintro rfl
  simp [getIntConstantValue, hphi] at hconst

namespace HLoopInformation

variable (loop : HLoopInformation graph)

theorem executedPerIteration_iff {b : Fin blocks} :
    loop.executedPerIteration b ↔ loop.PerIteration b := by
  simp only [executedPerIteration, NaturalLoop.PerIteration, NaturalLoop.BackEdge,
    decide_eq_true_eq, loop.mem_backEdges]

/-! ## Basic induction variables -/

/-- What the detection of a basic induction variable has established. -/
structure IsBasicIV (iv : HInductionVariable insns) : Prop where
  phi_mem : iv.phiInsn ∈ graph.phis loop.header
  increment_nonneg : 0 ≤ iv.increment
  increment_eq : (graph.getConstantRight iv.linearInsn).bind graph.getIntConstantValue =
    some iv.increment
  kind_linear : graph.kind iv.linearInsn = .add
  type_linear : graph.type iv.linearInsn = graph.type iv.phiInsn
  linear_value : ∀ value, graph.HasValue iv.phiInsn value iv.linearInsn
    ((graph.type iv.linearInsn).convert (value + iv.increment))
  inputs : ∃ entryInput backInput, (graph.instruction iv.phiInsn).inputs = [entryInput, backInput] ∧
      (backInput = iv.linearInsn ∨ graph.kind backInput = .typeConversion ∧
          graph.inputAt backInput 0 = some iv.linearInsn)

variable {loop}

variable {iv : HInductionVariable insns}

theorem IsBasicIV.kind_phi (hiv : loop.IsBasicIV iv) : graph.kind iv.phiInsn = .phi :=
  graph.kind_phis loop.header iv.phiInsn hiv.phi_mem

theorem IsBasicIV.linear_ne_phi (hiv : loop.IsBasicIV iv) : iv.linearInsn ≠ iv.phiInsn := by
  intro heq
  have hkind := hiv.kind_linear
  rw [heq, hiv.kind_phi] at hkind
  cases hkind

variable {constant : Fin insns}

theorem HGraph.getConstantRight_eq_some (hconst : graph.getConstantRight insn = some constant) :
    ∃ left right, graph.inputAt insn 0 = some left ∧ graph.inputAt insn 1 = some right ∧
      (graph.getIntConstantValue constant).isSome ∧
      (constant = right ∨ constant = left ∧ (graph.getIntConstantValue right).isSome = false) := by
  unfold getConstantRight at hconst
  simp only [bind_eq_bind, bind_eq_some_iff] at hconst
  obtain ⟨left, hleft, right, hright, hconst⟩ := hconst
  refine ⟨left, right, hleft, hright, ?_⟩
  split at hconst
  next hisSome =>
    cases hconst
    exact ⟨hisSome, .inl rfl⟩
  next hnone =>
    split at hconst
    next hisSome =>
      cases hconst
      exact ⟨hisSome, .inr ⟨rfl, by simpa using hnone⟩⟩
    · cases hconst

variable {phi backInput : Fin insns} {increment : ℤ} {exitBlock src : Fin blocks}

/-- The linear operation adds the constant increment to the phi. -/
theorem HGraph.hasValue_linear {linear : Fin insns}
    (hphi : graph.kind phi = .phi) (hkind : graph.kind linear = .add)
    (hop : graph.inputAt linear 1 = some phi ∨ graph.inputAt linear 0 = some phi)
    (hconst : graph.getConstantRight linear = some constant)
    (hincrement : graph.getIntConstantValue constant = some increment) (v : ℤ) :
    graph.HasValue phi v linear ((graph.type linear).convert (v + increment)) := by
  obtain ⟨left, right, hleft, hright, -, hside⟩ := getConstantRight_eq_some hconst
  have hne : linear ≠ phi := by
    rintro rfl
    rw [hphi] at hkind
    cases hkind
  have hphiConstant : graph.getIntConstantValue phi = none := by
    simp [getIntConstantValue, hphi]
  have hvalue := hasValue_constant v (ne_of_getIntConstantValue hphi hincrement) hincrement
  have hself : graph.HasValue phi v phi v := hasValue_phi.mpr rfl
  rw [hleft, hright, some.injEq, some.injEq] at hop
  rcases hside with rfl | ⟨rfl, hrightNone⟩
  · -- The constant is the right operand, so the phi is the left one.
    have hleftPhi : left = phi := by
      rcases hop with heq | heq
      · exact absurd hincrement (by rw [heq, hphiConstant]; simp)
      · exact heq
    subst hleftPhi
    apply hasValue_of_compute hne hleft hright hself hvalue
    rw [hkind]
    rfl
  · have hrightPhi : right = phi := by
      rcases hop with heq | heq
      · exact heq
      · exact absurd hincrement (by rw [heq, hphiConstant]; simp)
    subst hrightPhi
    apply hasValue_of_compute hne hleft hright hvalue hself
    rw [hkind, Int.add_comm v increment]
    rfl

theorem trimCast_eq_some {candidate trimmed : Fin insns}
    (htrimmed : loop.trimCast candidate = some trimmed) : candidate = trimmed ∨
      graph.kind candidate = .typeConversion ∧ graph.inputAt candidate 0 = some trimmed := by
  unfold trimCast at htrimmed
  split at htrimmed
  next hkind =>
    split at htrimmed
    · exact .inr ⟨hkind, htrimmed⟩
    · cases htrimmed
  · exact .inl (some.inj htrimmed)

/-- The input that is executed in every iteration is the one of the back edge. -/
theorem find_executedPerIteration {entryInput : Fin insns} (hphi : phi ∈ graph.phis loop.header)
    (hinputs : (graph.instruction phi).inputs = [entryInput, backInput])
    (hfind : (graph.instruction phi).inputs.find?
      (fun insn => loop.executedPerIteration (graph.block insn)) = some input) :
    input = backInput := by
  have hentry : graph.block entryInput ∉ loop.body := by
    apply loop.phi_entry_outside phi hphi entryInput
    rw [inputAt, hinputs]
    rfl
  have hnot : loop.executedPerIteration (graph.block entryInput) = false := by
    simp [executedPerIteration, hentry]
  rw [hinputs, find?_cons_of_neg (by simp [hnot])] at hfind
  have hmem := mem_of_find?_eq_some hfind
  simpa using hmem

theorem isBasicIV_of_detectBasicIV (hphi : phi ∈ graph.phis loop.header)
    (hiv : loop.detectBasicIV phi = some iv) : loop.IsBasicIV iv := by
  simp only [detectBasicIV, bind_eq_bind, bind_eq_some_iff,
    Option.guard_eq_some', Option.pure_def, Option.some.injEq] at hiv
  obtain ⟨_, hlen, input, hfind, candidate, htrim, _, hkind, _, hop,
    constant, hconst, increment, hincrement, _, hnonneg, rfl⟩ := hiv
  obtain ⟨entryInput, backInput, hinputs⟩ := length_eq_two.mp hlen
  have hinput := find_executedPerIteration hphi hinputs hfind
  subst hinput
  have hphiKind := graph.kind_phis loop.header phi hphi
  have hmem : phi ∈ (graph.instruction candidate).inputs :=
    hop.elim mem_inputs_of_inputAt mem_inputs_of_inputAt
  refine
    { phi_mem := hphi
      increment_nonneg := hnonneg
      increment_eq := by rw [hconst, bind_some, hincrement]
      kind_linear := hkind
      type_linear := ?_
      linear_value := fun v => HGraph.hasValue_linear hphiKind hkind hop hconst hincrement v
      inputs := ⟨entryInput, input, hinputs, trimCast_eq_some htrim⟩ }
  have hphiTyped := graph.operand_types _ (.inr hkind) phi hmem
  have hbackTyped := graph.operand_types phi (.inl hphiKind) input (by rw [hinputs]; simp)
  calc graph.type candidate = (graph.type phi).kind := hphiTyped.symm
    _ = graph.type phi := by rw [type, ← hbackTyped, kind_kind]

theorem isBasicIV_of_getInductionVariable (hiv : loop.getInductionVariable insn = some iv) :
    loop.IsBasicIV iv ∧ (insn = iv.linearInsn ∨ insn = iv.phiInsn) := by
  have hmem := mem_of_find?_eq_some hiv
  obtain ⟨phi, hphi, hdetect⟩ := mem_filterMap.mp hmem
  refine ⟨isBasicIV_of_detectBasicIV hphi hdetect, ?_⟩
  have hfound : iv.linearInsn = insn ∨ iv.phiInsn = insn := by
    simpa only [decide_eq_true_eq] using find?_some hiv
  exact hfound.imp Eq.symm Eq.symm

/-! ## The exit test -/

/-- What is known of a loop whose only exit edge is guarded by an `HIf`. -/
structure IsExitTest (loop : HLoopInformation graph) (test : ExitTest blocks insns) :
    Prop where
  exitBlock_eq : loop.getExitBlock = some test.exitBlock
  exit_notMem : test.exitBlock ∉ loop.body
  test_mem : test.testBlock ∈ loop.body
  exit_mem_succs : test.exitBlock ∈ graph.flow.succs test.testBlock
  only_exit : ∀ source ∈ loop.body, ∀ target ∈ graph.flow.succs source,
    target ∉ loop.body → source = test.testBlock ∧ target = test.exitBlock
  kind_branch : graph.kind (graph.lastInstruction test.testBlock) = .ifInsn
  branch_input : graph.inputAt (graph.lastInstruction test.testBlock) 0 = some test.condition
  kind_condition : graph.kind test.condition = .condition test.comparison
  successors : ∃ inside ∈ loop.body, graph.flow.succs test.testBlock = [test.exitBlock, inside] ∨
      graph.flow.succs test.testBlock = [inside, test.exitBlock]

theorem mem_exitTargets {t : Fin blocks} : t ∈ loop.exitTargets ↔
      ∃ src ∈ loop.body, t ∈ graph.flow.succs src ∧ t ∉ loop.body := by
  simp [exitTargets]

theorem exitTargets_of_getExitBlock
    (hexit : loop.getExitBlock = some exitBlock) : loop.exitTargets = [exitBlock] := by
  unfold getExitBlock at hexit
  split at hexit
  next heq =>
    cases hexit
    exact heq
  · cases hexit

/-- A block has at most as many exit edges as the loop. -/
theorem filter_succs_length_le (hsrc : src ∈ loop.body) :
    ((graph.flow.succs src).filter (· ∉ loop.body)).length ≤ loop.exitTargets.length := by
  have hmem : src ∈ (finRange blocks).filter (· ∈ loop.body) := by
    simpa using hsrc
  obtain ⟨front, back, hsplit⟩ := append_of_mem hmem
  rw [exitTargets, hsplit, flatMap_append, flatMap_cons, length_append, length_append]
  omega

/-- Of the two successors of the exit test one is the exit block and the other
one stays in the loop. -/
theorem exists_inside_successor (htargets : loop.exitTargets = [exitBlock]) (hsrc : src ∈ loop.body)
    (hout : exitBlock ∉ loop.body) (hedge : exitBlock ∈ graph.flow.succs src)
    (hlen : (graph.flow.succs src).length = 2) :
    ∃ inside ∈ loop.body, graph.flow.succs src = [exitBlock, inside] ∨
      graph.flow.succs src = [inside, exitBlock] := by
  have hfew := filter_succs_length_le hsrc
  rw [htargets, length_singleton] at hfew
  obtain ⟨first, second, hsuccs⟩ := length_eq_two.mp hlen
  rw [hsuccs] at hedge hfew ⊢
  rcases mem_pair.mp hedge with rfl | rfl
  · refine ⟨second, ?_, .inl rfl⟩
    by_contra hsnd
    simp [hout, hsnd] at hfew
  · refine ⟨first, ?_, .inr rfl⟩
    by_contra hfirst
    simp [hout, hfirst] at hfew

theorem isExitTest_of_exitTest {test : ExitTest blocks insns}
    (htest : loop.exitTest = some test) : loop.IsExitTest test := by
  simp only [exitTest, bind_eq_bind, bind_eq_some_iff, guard_eq_some'] at htest
  obtain ⟨exitBlock, hexit, testBlock, hpred, _, hbranch, condition, hinput, htest⟩ := htest
  have hkind : graph.kind condition = .condition test.comparison ∧
      test = { exitBlock, testBlock, condition, comparison := test.comparison } := by
    split at htest
    next comparison heq =>
      cases htest
      exact ⟨heq, rfl⟩
    · cases htest
  obtain ⟨hkind, htest⟩ := hkind
  have htargets := exitTargets_of_getExitBlock hexit
  have hmemExit : exitBlock ∈ loop.exitTargets := by rw [htargets]; simp
  obtain ⟨src, hsrc, hedge, hout⟩ := mem_exitTargets.mp hmemExit
  have hpreds := loop.exit_predecessors _ hsrc _ hedge hout
  have hsourceTest : src = testBlock := by
    rw [hpreds] at hpred
    simpa using hpred
  subst hsourceTest
  rw [htest]
  refine
    { exitBlock_eq := hexit
      exit_notMem := hout
      test_mem := hsrc
      exit_mem_succs := hedge
      only_exit := ?_
      kind_branch := hbranch
      branch_input := hinput
      kind_condition := hkind
      successors := ?_ }
  · intro other hother t htarget hnotMem
    have hmem : t ∈ loop.exitTargets := mem_exitTargets.mpr ⟨other, hother, htarget, hnotMem⟩
    have htargetExit : t = exitBlock := by
      rw [htargets] at hmem
      simpa using hmem
    subst htargetExit
    have hotherPreds := loop.exit_predecessors _ hother _ htarget hnotMem
    rw [hpreds] at hotherPreds
    exact ⟨by simpa using hotherPreds.symm, rfl⟩
  · exact exists_inside_successor htargets hsrc hout hedge (graph.if_successors _ hbranch)

/-! ## The tested induction variable and the borders -/

/-- The compared instructions on either side of the test. -/
structure IsTestedIV (loop : HLoopInformation graph) (condition : Fin insns)
    (tested : TestedIV insns) : Prop where
  basic : loop.IsBasicIV tested.iv
  element_eq : tested.element = tested.iv.linearInsn ∨ tested.element = tested.iv.phiInsn
  compare_eq : graph.getCompareInstruction condition = some tested.compareInsn
  operand_skip : graph.skipTypeConversion tested.operand = some tested.element
  constant_skip : tested.otherOperand = tested.constant ∨
    graph.skipTypeConversion tested.otherOperand = some tested.constant
  operands :
    tested.isIVSecondUse = false ∧ graph.inputAt tested.compareInsn 0 = some tested.operand ∧
        graph.inputAt tested.compareInsn 1 = some tested.otherOperand ∧
        isWideType (graph.type tested.element) = some tested.isWide ∨
      tested.isIVSecondUse = true ∧ graph.inputAt tested.compareInsn 1 = some tested.operand ∧
        graph.inputAt tested.compareInsn 0 = some tested.otherOperand ∧
        isWideType (graph.type tested.constant) = some tested.isWide

theorem isTestedIV_of_testedIV {condition : Fin insns} {tested : TestedIV insns}
    (htested : loop.testedIV condition = some tested) : loop.IsTestedIV condition tested := by
  simp only [testedIV, bind_eq_bind, bind_eq_some_iff] at htested
  obtain ⟨compareInsn, hcompare, first, hfirst, second, hsnd, element, helement,
    isWide, hwide, htested⟩ := htested
  split at htested
  next iv hiv =>
    cases htested
    obtain ⟨hbasic, heq⟩ := isBasicIV_of_getInductionVariable hiv
    exact
      { basic := hbasic
        element_eq := heq
        compare_eq := hcompare
        operand_skip := helement
        constant_skip := .inl rfl
        operands := .inl ⟨rfl, hfirst, hsnd, hwide⟩ }
  · simp only [bind_eq_some_iff, some.injEq] at htested
    obtain ⟨secondElement, hsecondElement, iv, hiv, rfl⟩ := htested
    obtain ⟨hbasic, heq⟩ := isBasicIV_of_getInductionVariable hiv
    exact
      { basic := hbasic
        element_eq := heq
        compare_eq := hcompare
        operand_skip := hsecondElement
        constant_skip := .inr helement
        operands := .inr ⟨rfl, hsnd, hfirst, hwide⟩ }

variable {constant : ℤ}

theorem fits_long_of_getIntConstantValue (hconst : graph.getIntConstantValue insn = some constant) :
    long.Fits constant := by
  unfold getIntConstantValue at hconst
  rw [fits_long_iff]
  split at hconst
  next v _ =>
    cases hconst
    have hlower := v.le_toInt
    have hupper := v.toInt_lt
    omega
  next v _ =>
    cases hconst
    have hlower := v.le_toInt
    have hupper := v.toInt_lt
    omega
  · cases hconst

variable {isWide : Bool} {comparison : IfCondition} {endValue : ℤ}

section

variable (hnormal : normalizeBound isWide comparison constant = some (.condLT, endValue))

include hnormal

/-- A bound that was normalized to `<` decides like the original comparison. -/
theorem holds_of_normalizeBound (hconst : long.Fits constant) (hend : -2 ^ 63 < endValue) (v : ℤ) :
    comparison.holds v constant = decide (v < endValue) := by
  cases comparison <;> simp only [normalizeBound, some.injEq, Prod.mk.injEq,
    reduceCtorEq, false_and, ite_none_left_eq_some, and_false] at hnormal
  case condLT =>
    rw [← hnormal.2]
    rfl
  case condLE =>
    obtain ⟨-, -, hwrap⟩ := hnormal
    have hne : constant ≠ 2 ^ 63 - 1 := by
      rintro rfl
      rw [← hwrap] at hend
      revert hend
      decide
    have hfits : long.Fits (constant + 1) := by
      rw [fits_long_iff] at hconst ⊢
      omega
    rw [wrap64, convert_of_fits hfits] at hwrap
    rw [← hwrap, IfCondition.holds, decide_eq_decide]
    omega

theorem negateCondition_isSome_of_normalizeBound : comparison.negateCondition.isSome := by
  cases comparison <;> simp [normalizeBound] at hnormal <;> rfl

end

/-- The numbers that the loop counts with, as its instructions have them. -/
structure LoopConstants where
  start : ℤ
  increment : ℤ
  bound : ℤ
  deriving DecidableEq

def loopConstants (graph : HGraph blocks insns) (tested : TestedIV insns) :
    Option LoopConstants := do
  let entry ← graph.inputAt tested.iv.phiInsn 0
  let start ← graph.getIntConstantValue entry
  let increment ← (graph.getConstantRight tested.iv.linearInsn).bind graph.getIntConstantValue
  let bound ← graph.getIntConstantValue tested.constant
  return { start, increment, bound }

/-- What is known once bound information was computed. -/
structure IsBounded (loop : HLoopInformation graph) (test : ExitTest blocks insns)
    (tested : TestedIV insns) (constants : LoopConstants) (bound : HLoopBoundInformation insns) :
    Prop where
  exitTest : loop.IsExitTest test
  testedIV : loop.IsTestedIV test.condition tested
  loopBIV_eq : bound.loopBIV = tested.iv
  constant_eq : graph.getIntConstantValue tested.constant = some constants.bound
  decides : ∃ comparison, continueCondition graph test tested = some comparison ∧
    comparison.negateCondition.isSome ∧
    ∀ value, comparison.holds value constants.bound = decide (value < bound.endValue)
  entry : ∃ input, graph.inputAt tested.iv.phiInsn 0 = some input ∧
    graph.getIntConstantValue input = some constants.start
  startValue_eq : bound.startValue = constants.start
  increment_eq : tested.iv.increment = constants.increment
  increment_pos : 0 < constants.increment
  start_lt_end : constants.start < bound.endValue
  end_le : bound.endValue ≤ maxValue tested.isWide - constants.increment + 1
  numIterations_eq : incrementCount constants.increment constants.start bound.endValue =
    some bound.numIterations

theorem IsBasicIV.back_not_constant (hiv : loop.IsBasicIV iv)
    (hback : backInput = iv.linearInsn ∨ graph.kind backInput = .typeConversion ∧
        graph.inputAt backInput 0 = some iv.linearInsn) :
    graph.getIntConstantValue backInput = none := by
  rcases hback with rfl | ⟨hkind, -⟩
  · simp [getIntConstantValue, hiv.kind_linear]
  · simp [getIntConstantValue, hkind]

/-- The entry value is the input of the preheader edge. -/
theorem IsBasicIV.inputAt_zero_of_findBIVEntrySSA (hiv : loop.IsBasicIV iv) {entryValue : Fin insns}
    (hentry : findBIVEntrySSA graph iv.phiInsn = some entryValue) :
    graph.inputAt iv.phiInsn 0 = some entryValue := by
  obtain ⟨entryInput, backInput, hinputs, hback⟩ := hiv.inputs
  have hmem := mem_of_find?_eq_some hentry
  have hsome := find?_some hentry
  rw [hinputs] at hmem
  rcases mem_pair.mp hmem with rfl | rfl
  · rw [inputAt, hinputs]
    rfl
  · rw [hiv.back_not_constant hback] at hsome
    cases hsome

theorem bordersAccepted_iff {startValue : ℤ} (hincrement : 0 ≤ increment) :
    bordersAccepted isWide increment comparison startValue endValue ↔
      0 < increment ∧ comparison = .condLT ∧ startValue < endValue ∧
        endValue ≤ maxValue isWide - increment + 1 := by
  unfold bordersAccepted
  split
  next hpos => simp [hpos]
  next hnot =>
    rw [if_neg (by omega)]
    simp [hnot]

theorem exists_isBounded {bound : HLoopBoundInformation insns}
    (hbound : loop.computeBoundInformation = some bound) :
    ∃ test tested constants, loop.exitTest = some test ∧
      loop.testedIV test.condition = some tested ∧ loopConstants graph tested = some constants ∧
      loop.IsBounded test tested constants bound := by
  simp only [computeBoundInformation, bind_eq_bind, bind_eq_some_iff,
    Option.guard_eq_some', Option.pure_def, Option.some.injEq] at hbound
  obtain ⟨test, htest, tested, htested, constant, hconst, comparison, hcmp,
    entryValue, hentry, startValue, hstart, ⟨normalized, endValue⟩, hnormal, _,
    haccepted, count, hcount, rfl⟩ := hbound
  have hspec := isTestedIV_of_testedIV htested
  have hinput := hspec.basic.inputAt_zero_of_findBIVEntrySSA hentry
  obtain ⟨hpos, rfl, hlt, hle⟩ := (bordersAccepted_iff hspec.basic.increment_nonneg).mp haccepted
  have hstartFits := fits_long_iff.mp (fits_long_of_getIntConstantValue hstart)
  refine ⟨test, tested, ⟨startValue, tested.iv.increment, constant⟩, htest, htested, ?_,
    { exitTest := isExitTest_of_exitTest htest
      testedIV := hspec
      loopBIV_eq := rfl
      constant_eq := hconst
      decides := ⟨comparison, hcmp, negateCondition_isSome_of_normalizeBound hnormal, ?_⟩
      entry := ⟨entryValue, hinput, hstart⟩
      startValue_eq := rfl
      increment_eq := rfl
      increment_pos := hpos
      start_lt_end := hlt
      end_le := hle
      numIterations_eq := hcount }⟩
  · simp only [loopConstants, hinput, hstart, hspec.basic.increment_eq, hconst, bind_eq_bind,
      bind_some, Option.pure_def]
  · apply holds_of_normalizeBound hnormal (fits_long_of_getIntConstantValue hconst)
    exact lt_of_le_of_lt hstartFits.1 hlt

end HLoopInformation

end NougatArt.LoopBound
