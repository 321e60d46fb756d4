import NougatArt.Loops.BoundArithmetic
import NougatArt.Loops.BoundSpec

/-!
# The number of iterations is the number of executions

`GetNumIterations` is compared with the executions of the loop. The formula
counts the values below the end value, so it is right when the exit test sees,
once in every iteration, the value the formula speaks about. `CountIsExact`
collects what this takes beyond what the compiler has checked; the main result
says that then every execution leaves the loop and visits each block that
dominates the back edges exactly as often as predicted.
-/

namespace NougatArt.LoopBound.HLoopInformation

open List Option Nat Int PrimitiveType IfCondition

variable {blocks insns : ℕ} {graph : HGraph blocks insns}

/-- The value of the induction variable at the start of an iteration. -/
def ivValue (constants : LoopConstants) (iteration : ℕ) : ℤ :=
  constants.start + iteration * constants.increment

/-- The value the exit test of an iteration is about: the next one if the linear
operation is tested. -/
def testedValue (tested : TestedIV insns) (constants : LoopConstants) (iteration : ℕ) : ℤ :=
  ivValue constants (if tested.element = tested.iv.linearInsn then iteration + 1 else iteration)

/-- The comparison of the exit test on a value of the induction variable, with
the operands in the order of the source. -/
def testHolds (test : ExitTest blocks insns) (tested : TestedIV insns) (value constant : ℤ) :
    Bool :=
  if tested.isIVSecondUse then test.comparison.holds constant value
  else test.comparison.holds value constant

section

variable (graph) (test : ExitTest blocks insns) (tested : TestedIV insns)
  (constants : LoopConstants)

/-- The exit test keeps control in the loop when it compares this value. -/
def Continues (value : ℤ) : Prop :=
  testHolds test tested value constants.bound = true ↔
    (graph.flow.succs test.testBlock)[0]? ≠ some test.exitBlock

def Passes (iteration : ℕ) : Prop :=
  Continues graph test tested constants (testedValue tested constants iteration)

/-- The exit test lets control enter the iteration. -/
def Entered (iteration : ℕ) : Prop :=
  ∀ earlier < iteration, Passes graph test tested constants earlier

end

/-- What the formula relies on and the compiler does not check. The inner loops are left, and none
of their blocks dominates all back edges; the test is executed in every iteration; a test on the phi
is not preceded by the increment; the conversions that were skipped, and the width of the variable,
leave every value of the loop unchanged; an `HCompare` is compared with zero and stands first; the
distance of the borders fits an `int64_t`. -/
structure CountIsExact (loop : HLoopInformation graph) (choice : Choice graph)
    (test : ExitTest blocks insns) (tested : TestedIV insns) (constants : LoopConstants) :
    Prop where
  inner_left : InnerLoopsLeft loop choice tested.iv.phiInsn
  once : loop.PerIterationOnce
  test_per_iteration : loop.executedPerIteration test.testBlock = true
  increment_below_test : tested.element = tested.iv.phiInsn →
    ¬ graph.flow.Dominates (graph.block tested.iv.linearInsn) test.exitBlock
  compare_with_zero : tested.compareInsn = test.condition ∨
    graph.inputAt test.condition 0 = some tested.compareInsn ∧
      graph.kind tested.compareInsn = .compare ∧
      ∃ zero, graph.inputAt test.condition 1 = some zero ∧ graph.getIntConstantValue zero = some 0
  constant_conversion : tested.otherOperand = tested.constant ∨
    (graph.type tested.otherOperand).Fits constants.bound
  tested_conversion : tested.operand = tested.element ∨
    ∀ iteration, Entered graph test tested constants iteration →
      (graph.type tested.operand).Fits (testedValue tested constants iteration)
  back_conversion : ∀ input, graph.inputAt tested.iv.phiInsn 1 = some input →
    input = tested.iv.linearInsn ∨
      ∀ iteration, Entered graph test tested constants (iteration + 1) →
        (graph.type input).Fits (ivValue constants (iteration + 1))
  width : tested.isIVSecondUse = true → graph.type tested.constant = graph.type tested.iv.phiInsn ∨
      ∀ iteration, Continues graph test tested constants (ivValue constants iteration) →
        (graph.type tested.iv.phiInsn).Fits (ivValue constants (iteration + 1))
  distance : ∀ value, Continues graph test tested constants value →
    value - constants.start < 2 ^ 63 - 1

variable {loop : HLoopInformation graph} {test : ExitTest blocks insns} {choice : Choice graph}
  {tested : TestedIV insns} {constants : LoopConstants} {bound : HLoopBoundInformation insns}

theorem ivValue_succ (constants : LoopConstants) (iteration : ℕ) :
    ivValue constants (iteration + 1) = ivValue constants iteration + constants.increment := by
  unfold ivValue
  push_cast
  ring

theorem ivValue_mono (hincrement : 0 < constants.increment) {first second : ℕ}
    (hle : first ≤ second) : ivValue constants first ≤ ivValue constants second := by
  unfold ivValue
  have hcast : (first : ℤ) ≤ second := by exact_mod_cast hle
  nlinarith

/-- Only one number of steps is the least one that reaches the end value. -/
theorem eq_of_reaches {increment startValue endValue first second : ℤ} (hincrement : 0 < increment)
    (hfirst : startValue + (first - 1) * increment < endValue)
    (hfirst' : endValue ≤ startValue + first * increment)
    (hsnd : startValue + (second - 1) * increment < endValue)
    (hsnd' : endValue ≤ startValue + second * increment) : first = second := by
  have hle : first - 1 < second := by
    by_contra hnot
    nlinarith
  have hge : second - 1 < first := by
    by_contra hnot
    nlinarith
  omega

/-! ## The values of an iteration -/

variable {iteration : ℕ} {phi input operand element : Fin insns} {constant v : ℤ} {isWide : Bool}

theorem maxValue_of_isWideType {type : PrimitiveType}
    (hwide : isWideType type = some isWide) : type.maxValue = maxValue isWide := by
  cases type <;> simp only [isWideType, some.injEq, reduceCtorEq] at hwide <;>
    subst hwide <;> rfl

/-- A phi of an integral type starts with a value of that type. -/
theorem fits_startValue (hkind : graph.kind phi = .phi)
    (hwide : isWideType (graph.type phi) = some isWide) (hinput : graph.inputAt phi 0 = some input)
    (hconst : graph.getIntConstantValue input = some constant) :
    (graph.type phi).Fits constant := by
  have htyped := graph.operand_types phi (.inl hkind) _ (HGraph.mem_inputs_of_inputAt hinput)
  have hlong := fits_long_of_getIntConstantValue hconst
  cases htype : graph.type phi <;> simp only [htype, isWideType, reduceCtorEq] at hwide
  case long => exact hlong
  case int =>
    unfold HGraph.getIntConstantValue at hconst
    split at hconst
    next v _ =>
      cases hconst
      have hlower := v.le_toInt
      have hupper := v.toInt_lt
      rw [fits_int_iff]
      omega
    next v hvalue =>
      -- A `long` constant cannot be the input of an `int` phi.
      have hkind : (graph.instruction input).kind = .longConstant v := hvalue
      have hlongType : (graph.instruction input).type = .long := by
        simpa [hkind, Kind.constantType, eq_comm] using graph.constant_types input
      rw [hlongType] at htyped
      exact absurd (htyped.trans htype) (by decide)
    · cases hconst

/-- A skipped conversion that keeps a value can be ignored. -/
theorem hasValue_of_skipTypeConversion {result : ℤ}
    (hphi : graph.kind phi = .phi) (hskip : graph.skipTypeConversion operand = some element)
    (hfits : operand = element ∨ (graph.type operand).Fits result)
    (hres : graph.HasValue phi v element result) : graph.HasValue phi v operand result := by
  rcases hfits with rfl | hfits
  · exact hres
  unfold HGraph.skipTypeConversion at hskip
  split at hskip
  next hkind =>
    have hne : operand ≠ phi := by
      rintro rfl
      rw [hphi] at hkind
      cases hkind
    have hconverted := HGraph.hasValue_typeConversion hne hkind hskip hres
    rwa [convert_of_fits hfits] at hconverted
  · cases hskip
    exact hres

theorem entered_succ (hentered : Entered graph test tested constants iteration)
    (hpassed : Passes graph test tested constants iteration) :
    Entered graph test tested constants (iteration + 1) := by
  intro earlier hearlier
  rcases Nat.lt_succ_iff_lt_or_eq.mp hearlier with hlt | rfl
  · exact hentered _ hlt
  · exact hpassed

/-! ## The decision of the exit test -/

section

variable {comparison : IfCondition} (hcmp : continueCondition graph test tested = some comparison)

include hcmp

/-- Flipping and negating the condition accounts for the order of the operands
and for the branch that leaves. -/
theorem holds_continueCondition (v constant : ℤ) : comparison.holds v constant =
      if (graph.flow.succs test.testBlock)[0]? = some test.exitBlock then
        !testHolds test tested v constant
      else testHolds test tested v constant := by
  simp only [continueCondition, bind_eq_bind, bind_eq_some_iff] at hcmp
  obtain ⟨flipped, hflipped, hcmp⟩ := hcmp
  have hflip : flipped.holds v constant = testHolds test tested v constant := by
    unfold testHolds
    unfold flippedCondition at hflipped
    split at hflipped
    next hsnd =>
      rw [if_pos hsnd]
      exact holds_of_flipConditionForOperandSwap hflipped constant v
    next hfirst =>
      rw [if_neg hfirst, some.inj hflipped]
  split at hcmp
  next hexit =>
    rw [if_pos hexit, ← hflip]
    exact holds_of_negateCondition hcmp v constant
  next hinside =>
    rw [if_neg hinside, ← hflip, some.inj hcmp]

/-- Neither rewriting turns an unsigned condition into a signed one. -/
theorem signed_of_continueCondition
    (hsigned : comparison.negateCondition.isSome) : test.comparison.negateCondition.isSome := by
  simp only [continueCondition, bind_eq_bind, bind_eq_some_iff] at hcmp
  obtain ⟨flipped, hflipped, hcmp⟩ := hcmp
  have hflippedSigned : flipped.negateCondition.isSome := by
    split at hcmp
    · simp [hcmp]
    · rwa [some.inj hcmp]
  unfold flippedCondition at hflipped
  split at hflipped
  · cases hcondition : test.comparison <;>
      simp [hcondition, flipConditionForOperandSwap] at hflipped <;> rfl
  · rwa [some.inj hflipped]

end

theorem getCompareInstruction_eq_some {condition compareInsn : Fin insns}
    (hcompare : graph.getCompareInstruction condition = some compareInsn) :
    compareInsn = condition ∨ graph.kind compareInsn = .compare ∧
      ∃ i, graph.inputAt condition i = some compareInsn := by
  simp only [HGraph.getCompareInstruction, bind_eq_bind, bind_eq_some_iff] at hcompare
  obtain ⟨first, hfirst, second, hsnd, hcompare⟩ := hcompare
  split at hcompare
  next hkind =>
    cases hcompare
    exact .inr ⟨hkind, 0, hfirst⟩
  · split at hcompare
    next hkind =>
      cases hcompare
      exact .inr ⟨hkind, 1, hsnd⟩
    · exact .inl (some.inj hcompare).symm

theorem dominates_of_inputAt {insn : Fin insns} {i : ℕ} (hkind : graph.kind insn ≠ .phi)
    (hinput : graph.inputAt insn i = some input) :
    graph.flow.Dominates (graph.block input) (graph.block insn) :=
  graph.operands_dominate _ hkind input (HGraph.mem_inputs_of_inputAt hinput)

theorem dominates_of_skipTypeConversion (hskip : graph.skipTypeConversion operand = some element) :
    graph.flow.Dominates (graph.block element) (graph.block operand) := by
  unfold HGraph.skipTypeConversion at hskip
  split at hskip
  next hkind => exact dominates_of_inputAt (by rw [hkind]; decide) hskip
  · cases hskip
    exact FlowGraph.dominates_refl _

section

variable (hspec : loop.IsExitTest test)

include hspec

theorem IsExitTest.only_predecessor (src : Fin blocks)
    (hedge : test.exitBlock ∈ graph.flow.succs src) : src = test.testBlock := by
  have hpreds := loop.exit_predecessors test.testBlock hspec.test_mem test.exitBlock
    hspec.exit_mem_succs hspec.exit_notMem
  have hmem := (graph.mem_predecessors src test.exitBlock).mpr hedge
  rw [hpreds] at hmem
  simpa using hmem

theorem IsExitTest.exit_ne_entry : test.exitBlock ≠ graph.flow.entry := by
  intro heq
  have hmem := (graph.mem_predecessors test.testBlock test.exitBlock).mpr hspec.exit_mem_succs
  rw [heq, graph.predecessors_entry] at hmem
  cases hmem

theorem IsExitTest.test_dominates_exit : graph.flow.Dominates test.testBlock test.exitBlock := by
  intro past htrace
  cases past with
  | nil => exact absurd htrace.eq_entry hspec.exit_ne_entry
  | cons src past => simp [hspec.only_predecessor _ htrace.edge]

end

variable (loop test tested constants) in
/-- Where an execution inside the loop stands: the value of the variable is that
of the iteration in progress, and all tests so far have passed. -/
structure Progress (visited current completed : List (Fin blocks)) (value : ℤ) :
    Prop where
  cut : loop.CutAt visited current completed
  value_eq : value = ivValue constants (completed.count loop.header)
  entered : Entered graph test tested constants (completed.count loop.header)
  passed : ∀ head rest, current = head :: rest → test.testBlock ∈ rest →
    Passes graph test tested constants (completed.count loop.header)

variable {visited completed : List (Fin blocks)} {src b : Fin blocks}

theorem LoopRun.past_mem_body (hrun : LoopRun loop choice phi visited v) :
    ∀ b ∈ visited.tail, b ∈ loop.body := by
  induction hrun with
  | enter => simp
  | forward hrun hsrc _ _ _ ih | back hrun hsrc _ _ _ ih =>
    intro b hblock
    rcases mem_cons.mp hblock with rfl | hpast
    · exact hsrc
    · exact ih _ hpast

theorem Progress.exists_cons {cur : List (Fin blocks)}
    (hprog : Progress loop test tested constants visited cur completed v) :
    ∃ head rest, cur = head :: rest ∧ visited = head :: (rest ++ completed) := by
  have happend := hprog.cut.append
  cases hiteration : hprog.cut.iteration with
  | start | step => exact ⟨_, _, rfl, happend⟩

/-- Control goes on from every block of the loop. -/
theorem exists_mayGo (choice : Choice graph) (phi : Fin insns) (v : ℤ) (hsrc : src ∈ loop.body)
    (past : List (Fin blocks)) :
    ∃ t, graph.MayGo phi v src t ∧ (¬ graph.Decided phi v src → t = choice.choose src past) := by
  by_cases hdecided : graph.Decided phi v src
  · obtain ⟨hbranch, condition, result, hinput, hvalue⟩ := hdecided
    obtain ⟨first, second, hsuccs⟩ := length_eq_two.mp (graph.if_successors _ hbranch)
    refine ⟨if result ≠ 0 then first else second, ⟨?_, ?_⟩,
      fun hnot => absurd ⟨hbranch, condition, result, hinput, hvalue⟩ hnot⟩
    · rw [hsuccs]
      split <;> simp
    · intro _ condition' result' hinput' hvalue'
      rw [hinput, some.injEq] at hinput'
      subst hinput'
      obtain rfl := hvalue.unique hvalue'
      unfold HGraph.ifSuccessor
      rw [hsuccs]
      split <;> rfl
  · refine ⟨choice.choose src past, ⟨choice.choose_mem _ _ (loop.has_successor _ hsrc), ?_⟩,
      fun _ => rfl⟩
    exact fun hbranch condition result hinput hvalue =>
      absurd ⟨hbranch, condition, result, hinput, hvalue⟩ hdecided

theorem exists_next_run {past : List (Fin blocks)}
    (hrun : LoopRun loop choice phi (b :: past) v) (hblock : b ∈ loop.body) :
    ∃ next value', LoopRun loop choice phi (next :: b :: past) value' := by
  obtain ⟨t, hgo, hchosen⟩ := exists_mayGo choice phi v hblock past
  by_cases hheader : t = loop.header
  · subst hheader
    by_cases hknown : ∃ input result, graph.inputAt phi 1 = some input ∧
        graph.HasValue phi v input result
    · obtain ⟨input, result, hinput, hvalue⟩ := hknown
      refine ⟨loop.header, result,
        .back hrun hblock hgo hchosen fun input' result' hinput' hvalue' => ?_⟩
      rw [hinput, some.injEq] at hinput'
      subst hinput'
      exact hvalue.unique hvalue'
    · exact ⟨loop.header, 0, .back hrun hblock hgo hchosen fun input result hinput hvalue =>
        absurd ⟨input, result, hinput, hvalue⟩ hknown⟩
  · exact ⟨t, v, .forward hrun hblock hgo hchosen hheader⟩

/-- An execution is as long as its visits of the header and the limit of the inner loops allow. -/
theorem LoopRun.length_le {limit : ℕ} (hlimit : ∀ visited value,
      LoopRun loop choice phi visited value →
        (visited.takeWhile (· ≠ loop.header)).length ≤ limit)
    (hrun : LoopRun loop choice phi visited v) :
    visited.length ≤ visited.count loop.header * (limit + 1) := by
  suffices hle : visited.length + limit ≤ visited.count loop.header * (limit + 1) +
      (visited.takeWhile (· ≠ loop.header)).length by
    have := hlimit _ _ hrun
    omega
  induction hrun with
  | enter => simp [Nat.add_comm]
  | forward _ _ _ _ hne ih =>
    rw [count_cons_of_ne hne, takeWhile_cons_of_pos (by simpa using hne)]
    simp only [length_cons] at ih ⊢
    omega
  | back hrun _ _ _ _ ih =>
    have := hlimit _ _ hrun
    rw [count_cons_self, takeWhile_cons_of_neg (by simp), length_cons, length_nil, succ_mul]
    omega

/-- In the loop, the blocks since the header are an iteration. -/
theorem LoopRun.isIteration (hrun : LoopRun loop choice phi visited v)
    (hbody : ∀ b ∈ visited, b ∈ loop.body) :
    loop.Iteration (visited.takeWhile (· ≠ loop.header) ++ [loop.header]) := by
  induction hrun with
  | enter => simpa using .start
  | @forward src t past v hrun _ hgo _ hne ih =>
    have hpath := ih fun b hblock => hbody b (mem_cons_of_mem _ hblock)
    rw [takeWhile_cons_of_pos (by simpa using hne), cons_append]
    by_cases hheader : src = loop.header
    · rw [takeWhile_cons_of_neg (by simpa using hheader), nil_append] at hpath ⊢
      exact .step hpath (hheader ▸ hgo.1) (hbody t mem_cons_self) hne
    · rw [takeWhile_cons_of_pos (by simpa using hheader), cons_append] at hpath ⊢
      exact .step hpath hgo.1 (hbody t mem_cons_self) hne
  | back => simpa using .start

/-- A loop without inner loops has none to leave. -/
theorem innerLoopsLeft_of_innermost (choice : Choice graph) (phi : Fin insns)
    (hinner : loop.Innermost) : InnerLoopsLeft loop choice phi := by
  have hinside : ∀ visited v, LoopRun loop choice phi visited v →
      (∀ b ∈ visited, b ∈ loop.body) →
      (visited.takeWhile (· ≠ loop.header)).length + 1 ≤ blocks := by
    intro visited v hrun hbody
    simpa using (hinner _ (LoopRun.isIteration hrun hbody)).length_le_card
  refine ⟨blocks, fun visited v hrun => ?_⟩
  have hpast := LoopRun.past_mem_body hrun
  cases hrun with
  | enter | back => simp
  | forward hprevious _ _ _ hne =>
    have := hinside _ _ hprevious hpast
    rw [takeWhile_cons_of_pos (by simpa using hne), length_cons]
    exact this

/-! ## The count of a bounded loop -/

section Bounded

variable (hbd : loop.IsBounded test tested constants bound)

include hbd

theorem IsBounded.continues_iff (value : ℤ) :
    Continues graph test tested constants value ↔ value < bound.endValue := by
  obtain ⟨comparison, hcmp, -, hdecides⟩ := hbd.decides
  have hcontinue := holds_continueCondition hcmp value constants.bound
  rw [hdecides] at hcontinue
  unfold Continues
  by_cases hexit : (graph.flow.succs test.testBlock)[0]? = some test.exitBlock
  · rw [if_pos hexit] at hcontinue
    rw [← decide_eq_true_iff (p := value < bound.endValue), hcontinue]
    simp [hexit]
  · rw [if_neg hexit] at hcontinue
    rw [← decide_eq_true_iff (p := value < bound.endValue), hcontinue]
    simp [hexit]

theorem testedValue_of_phi (helement : tested.element = tested.iv.phiInsn) (iteration : ℕ) :
    testedValue tested constants iteration = ivValue constants iteration := by
  rw [testedValue, if_neg]
  rw [helement]
  exact hbd.testedIV.basic.linear_ne_phi.symm

/-- The value of an entered iteration whose test passes, or that the test reads
through the linear operation, is below the end value. -/
theorem IsBounded.ivValue_lt_of_entered (helement : tested.element = tested.iv.linearInsn)
    (hentered : Entered graph test tested constants iteration) :
    ivValue constants iteration < bound.endValue := by
  cases iteration with
  | zero => simpa [ivValue] using hbd.start_lt_end
  | succ previous =>
    have hprevious := hentered previous (lt_succ_self previous)
    rwa [Passes, testedValue, if_pos helement, hbd.continues_iff] at hprevious

/-- What the exit test compares is computed above it. -/
theorem IsBounded.element_dominates_exit :
    graph.flow.Dominates (graph.block tested.element) test.exitBlock := by
  have hspec := hbd.testedIV
  have hexit := hbd.exitTest
  have hconditionKind : graph.kind test.condition ≠ .phi := by
    simp [hexit.kind_condition]
  have hbranchKind : graph.kind (graph.lastInstruction test.testBlock) ≠ .phi := by
    simp [hexit.kind_branch]
  have hbranch : graph.block (graph.lastInstruction test.testBlock) = test.testBlock :=
    graph.block_lastInstruction test.testBlock
  have hcondition := dominates_of_inputAt hbranchKind hexit.branch_input
  rw [hbranch] at hcondition
  have hoperandAt : ∃ i, graph.inputAt tested.compareInsn i = some tested.operand := by
    rcases hspec.operands with ⟨-, hoperand, -, -⟩ | ⟨-, hoperand, -, -⟩
    · exact ⟨0, hoperand⟩
    · exact ⟨1, hoperand⟩
  obtain ⟨i, hoperandAt⟩ := hoperandAt
  have helement := dominates_of_skipTypeConversion hspec.operand_skip
  have hchain : graph.flow.Dominates (graph.block tested.operand) (graph.block test.condition) := by
    rcases getCompareInstruction_eq_some hspec.compare_eq with heq | ⟨hkind, at_, hinput⟩
    · rw [heq] at hoperandAt
      exact dominates_of_inputAt hconditionKind hoperandAt
    · have hcompareKind : graph.kind tested.compareInsn ≠ .phi := by
        rw [hkind]
        decide
      exact (dominates_of_inputAt hcompareKind hoperandAt).trans
        (dominates_of_inputAt hconditionKind hinput)
  exact ((helement.trans hchain).trans hcondition).trans hexit.test_dominates_exit

variable {t : Fin blocks} {rest : List (Fin blocks)}
variable (hexact : loop.CountIsExact choice test tested constants)

include hexact

theorem IsBounded.numIterations_spec :
    constants.start + (bound.numIterations - 1) * constants.increment < bound.endValue ∧
      bound.endValue ≤ constants.start + bound.numIterations * constants.increment := by
  have hlast := hexact.distance (bound.endValue - 1) ((hbd.continues_iff _).mpr (by omega))
  obtain ⟨count, hcount, hspec⟩ :=
    exists_incrementCount hbd.increment_pos hbd.start_lt_end (by omega)
  rw [hbd.numIterations_eq, some.injEq] at hcount
  rwa [hcount]

/-- The iteration in which the test first fails is the one the formula gives. -/
theorem IsBounded.numIterations_eq_of_first_failure
    (hentered : Entered graph test tested constants iteration)
    (hfailed : ¬ Passes graph test tested constants iteration) : bound.numIterations =
      if tested.element = tested.iv.linearInsn then (iteration : ℤ) + 1 else iteration := by
  have hspec := hbd.numIterations_spec hexact
  rw [Passes, hbd.continues_iff, testedValue, ivValue] at hfailed
  refine eq_of_reaches hbd.increment_pos hspec.1 hspec.2 ?_ ?_
  · -- The value before the failing one is below the end value.
    cases iteration with
    | zero =>
      have hlt := hbd.start_lt_end
      have hpos := hbd.increment_pos
      split <;> simp <;> linarith
    | succ previous =>
      have hprevious := hentered previous (lt_succ_self previous)
      rw [Passes, hbd.continues_iff, testedValue, ivValue] at hprevious
      split_ifs at hprevious ⊢ <;> push_cast at hprevious ⊢ <;> linarith
  · split_ifs at hfailed ⊢ <;> push_cast at hfailed ⊢ <;> linarith

/-- The linear operation does not wrap around while the loop goes on. -/
theorem IsBounded.hasValue_linear (hlt : ivValue constants iteration < bound.endValue) :
    graph.HasValue tested.iv.phiInsn (ivValue constants iteration) tested.iv.linearInsn
      (ivValue constants (iteration + 1)) := by
  have hbasic := hbd.testedIV.basic
  have hvalue := hbasic.linear_value (ivValue constants iteration)
  rw [hbd.increment_eq, ← ivValue_succ, hbasic.type_linear] at hvalue
  suffices hfits : (graph.type tested.iv.phiInsn).Fits (ivValue constants (iteration + 1)) by
    rwa [convert_of_fits hfits] at hvalue
  -- Either the width is the one the overflow check was made for, or it is assumed.
  have hcases : isWideType (graph.type tested.iv.phiInsn) = some tested.isWide ∨
      (graph.type tested.iv.phiInsn).Fits (ivValue constants (iteration + 1)) := by
    rcases hbd.testedIV.operands with ⟨-, -, -, hwide⟩ | ⟨hsnd, -, -, hwide⟩
    · rcases hbd.testedIV.element_eq with heq | heq
      · rw [heq, hbasic.type_linear] at hwide
        exact .inl hwide
      · rw [heq] at hwide
        exact .inl hwide
    · rcases hexact.width hsnd with heq | hfits
      · exact .inl (heq ▸ hwide)
      · exact .inr (hfits _ ((hbd.continues_iff _).mpr hlt))
  rcases hcases with hwide | hfits
  · obtain ⟨input, hinput, hstart⟩ := hbd.entry
    have hstartFits := fits_startValue hbasic.kind_phi hwide hinput hstart
    have hmono := ivValue_mono hbd.increment_pos (zero_le (iteration + 1))
    have hend := hbd.end_le
    rw [← maxValue_of_isWideType hwide] at hend
    rw [ivValue_succ] at hmono ⊢
    have hzero : ivValue constants 0 = constants.start := by simp [ivValue]
    constructor <;> linarith [hstartFits.1]
  · exact hfits

theorem IsBounded.hasValue_operand (hentered : Entered graph test tested constants iteration) :
    graph.HasValue tested.iv.phiInsn (ivValue constants iteration) tested.operand
      (testedValue tested constants iteration) := by
  have hspec := hbd.testedIV
  refine hasValue_of_skipTypeConversion hspec.basic.kind_phi hspec.operand_skip
    (hexact.tested_conversion.imp_right fun hfits => hfits _ hentered) ?_
  rcases hspec.element_eq with helement | helement
  · rw [testedValue, if_pos helement, helement]
    exact hbd.hasValue_linear hexact (hbd.ivValue_lt_of_entered helement hentered)
  · rw [testedValue_of_phi hbd helement, helement, HGraph.hasValue_phi]

/-- The phi takes the next value on the back edge. -/
theorem IsBounded.hasValue_back (hentered : Entered graph test tested constants (iteration + 1))
    (hinput : graph.inputAt tested.iv.phiInsn 1 = some input) :
    graph.HasValue tested.iv.phiInsn (ivValue constants iteration) input
      (ivValue constants (iteration + 1)) := by
  have hbasic := hbd.testedIV.basic
  have hlt : ivValue constants iteration < bound.endValue := by
    have htest := hentered _ (lt_succ_self iteration)
    rw [Passes, hbd.continues_iff] at htest
    have hmono := ivValue_mono hbd.increment_pos (le_succ iteration)
    rcases hbd.testedIV.element_eq with helement | helement
    · rw [testedValue, if_pos helement] at htest
      exact lt_of_le_of_lt hmono htest
    · rwa [testedValue_of_phi hbd helement] at htest
  obtain ⟨entryInput, backInput, hinputs, hback⟩ := hbasic.inputs
  obtain rfl : backInput = input := by
    rw [HGraph.inputAt, hinputs] at hinput
    simpa using hinput
  refine hasValue_of_skipTypeConversion hbasic.kind_phi ?_
    ((hexact.back_conversion _ hinput).imp_right fun hfits => hfits _ hentered)
    (hbd.hasValue_linear hexact hlt)
  unfold HGraph.skipTypeConversion
  rcases hback with rfl | ⟨hkind, hlinear⟩
  · rw [if_neg (by rw [hbasic.kind_linear]; decide)]
  · rw [if_pos hkind, hlinear]

theorem IsBounded.hasValue_otherOperand :
    graph.HasValue tested.iv.phiInsn v tested.otherOperand constants.bound := by
  have hphi := hbd.testedIV.basic.kind_phi
  have hvalue := HGraph.hasValue_constant v
    (HGraph.ne_of_getIntConstantValue hphi hbd.constant_eq) hbd.constant_eq
  rcases hbd.testedIV.constant_skip with heq | hskip
  · rwa [heq]
  · exact hasValue_of_skipTypeConversion hphi hskip hexact.constant_conversion hvalue

theorem IsBounded.hasValue_condition (hentered : Entered graph test tested constants iteration)
    (hsigned : test.comparison.negateCondition.isSome) :
    graph.HasValue tested.iv.phiInsn (ivValue constants iteration) test.condition
      (if testHolds test tested (testedValue tested constants iteration) constants.bound then 1
        else 0) := by
  have hphi := hbd.testedIV.basic.kind_phi
  have hoperand := hbd.hasValue_operand hexact hentered
  have hother : graph.HasValue tested.iv.phiInsn (ivValue constants iteration)
      tested.otherOperand constants.bound := hbd.hasValue_otherOperand hexact
  have hkind := hbd.exitTest.kind_condition
  have hne : test.condition ≠ tested.iv.phiInsn := by
    intro heq
    rw [heq, hphi] at hkind
    cases hkind
  -- The comparison of the two operands, in the order of the source.
  obtain ⟨first, second, left, right, hfirst, hsnd, hleft, hright, hholds⟩ :
      ∃ first second left right, graph.inputAt tested.compareInsn 0 = some first ∧
        graph.inputAt tested.compareInsn 1 = some second ∧
        graph.HasValue tested.iv.phiInsn (ivValue constants iteration) first left ∧
        graph.HasValue tested.iv.phiInsn (ivValue constants iteration) second right ∧
        testHolds test tested (testedValue tested constants iteration) constants.bound =
          test.comparison.holds left right := by
    rcases hbd.testedIV.operands with ⟨horder, hop, hot, -⟩ | ⟨horder, hop, hot, -⟩
    · exact ⟨_, _, _, _, hop, hot, hoperand, hother, by simp [testHolds, horder]⟩
    · exact ⟨_, _, _, _, hot, hop, hother, hoperand, by simp [testHolds, horder]⟩
  rw [hholds]
  rcases hexact.compare_with_zero with heq | ⟨hinput, hcompare, zero, hzeroInput, hzero⟩
  · rw [heq] at hfirst hsnd
    apply HGraph.hasValue_of_compute hne hfirst hsnd hleft hright
    rw [hkind]
    rfl
  · have hcompareNe : tested.compareInsn ≠ tested.iv.phiInsn := by
      intro heq
      rw [heq, hphi] at hcompare
      cases hcompare
    have hcompareValue : graph.HasValue tested.iv.phiInsn (ivValue constants iteration)
        tested.compareInsn (compareValue left right) := by
      apply HGraph.hasValue_of_compute hcompareNe hfirst hsnd hleft hright
      rw [hcompare]
      rfl
    have hzeroValue := HGraph.hasValue_constant (ivValue constants iteration)
      (HGraph.ne_of_getIntConstantValue hphi hzero) hzero
    rw [← holds_compareValue_zero hsigned]
    apply HGraph.hasValue_of_compute hne hinput hzeroInput hcompareValue hzeroValue
    rw [hkind]
    rfl

/-- In an iteration that is entered, the exit test leaves the loop exactly if it does not pass. -/
theorem IsBounded.go_exit_iff (hentered : Entered graph test tested constants iteration)
    (hgo : graph.MayGo tested.iv.phiInsn (ivValue constants iteration) test.testBlock t) :
    t = test.exitBlock ↔ ¬ Passes graph test tested constants iteration := by
  obtain ⟨comparison, hcmp, hsigned, -⟩ := hbd.decides
  have hspec := hbd.exitTest
  have hvalue := hbd.hasValue_condition hexact hentered (signed_of_continueCondition hcmp hsigned)
  have hsucc := hgo.2 hspec.kind_branch _ _ hspec.branch_input hvalue
  obtain ⟨inside, hinside, hsuccs⟩ := hspec.successors
  have hne : inside ≠ test.exitBlock := fun heq => hspec.exit_notMem (heq ▸ hinside)
  unfold HGraph.ifSuccessor at hsucc
  unfold Passes Continues
  cases hholds : testHolds test tested (testedValue tested constants iteration) constants.bound <;>
    rcases hsuccs with hsuccs | hsuccs <;>
    simp [hholds, hsuccs] at hsucc <;>
    subst hsucc <;> simp [hne, hsuccs]

/-- A step that stays in the loop shows that the test of this iteration, if it
was reached, has passed. -/
theorem Progress.passed_of_go
    (hprog : Progress loop test tested constants visited (src :: rest) completed v)
    (hgo : graph.MayGo tested.iv.phiInsn v src t) (htarget : t ∈ loop.body)
    (hmem : test.testBlock ∈ src :: rest) :
    Passes graph test tested constants (completed.count loop.header) := by
  rcases mem_cons.mp hmem with heq | hrest
  · rw [← heq, hprog.value_eq] at hgo
    by_contra hnot
    have hexit := (hbd.go_exit_iff hexact hprog.entered hgo).mpr hnot
    exact hbd.exitTest.exit_notMem (hexit ▸ htarget)
  · exact hprog.passed _ _ rfl hrest

/-- Every execution that is in the loop makes progress as the formula assumes. -/
theorem exists_progress (hrun : LoopRun loop choice tested.iv.phiInsn visited v)
    (hbody : ∀ b ∈ visited, b ∈ loop.body) : ∃ cur completed,
      Progress loop test tested constants visited cur completed v := by
  induction hrun with
  | @enter v hvalue =>
    obtain ⟨input, hinput, hstart⟩ := hbd.entry
    refine ⟨[loop.header], [],
      { cut := .enter
        value_eq := ?_
        entered := fun earlier hearlier => absurd hearlier (not_lt_zero earlier)
        passed := ?_ }⟩
    · simpa [ivValue] using hvalue _ _ hinput hstart
    · intro head rest hcur hmem
      obtain ⟨-, rfl⟩ := cons.inj hcur
      cases hmem
  | @forward src t past v hrun hsrc hgo _ hne ih =>
    obtain ⟨cur, completed, hprog⟩ := ih fun b hblock => hbody b (mem_cons_of_mem _ hblock)
    obtain ⟨head, rest, rfl, hvis⟩ := hprog.exists_cons
    obtain ⟨rfl, -⟩ := cons.inj hvis
    have htarget := hbody t mem_cons_self
    refine ⟨t :: src :: rest, completed,
      { cut := hprog.cut.step_inside hgo.1 htarget hne
        value_eq := hprog.value_eq
        entered := hprog.entered
        passed := ?_ }⟩
    intro head' rest' hcur hmem
    obtain ⟨-, rfl⟩ := cons.inj hcur
    exact hprog.passed_of_go hbd hexact hgo htarget hmem
  | @back src past v next hrun hsrc hgo _ hnext ih =>
    obtain ⟨cur, completed, hprog⟩ := ih fun b hblock => hbody b (mem_cons_of_mem _ hblock)
    obtain ⟨head, rest, rfl, hvis⟩ := hprog.exists_cons
    obtain ⟨rfl, -⟩ := cons.inj hvis
    -- The test lies in the completed iteration, because it dominates the back edge.
    have htestPer := loop.executedPerIteration_iff.mp hexact.test_per_iteration
    have hmem := hprog.cut.iteration.mem_of_dominates htestPer.1 (htestPer.2 src ⟨hsrc, hgo.1⟩)
    have hpassed := hprog.passed_of_go hbd hexact hgo loop.header_mem hmem
    have hentered := entered_succ hprog.entered hpassed
    obtain ⟨entryInput, backInput, hinputs, -⟩ := hbd.testedIV.basic.inputs
    have hinput : graph.inputAt tested.iv.phiInsn 1 = some backInput := by
      rw [HGraph.inputAt, hinputs]
      rfl
    have hvalue := hbd.hasValue_back hexact hentered hinput
    rw [← hprog.value_eq] at hvalue
    refine ⟨[loop.header], src :: past,
      { cut := hprog.cut.step_back hexact.once hgo.1
        value_eq := ?_
        entered := ?_
        passed := ?_ }⟩
    · rw [hprog.cut.count_header]
      exact hnext _ _ hinput hvalue
    · rw [hprog.cut.count_header]
      exact hentered
    · intro head' rest' hcur hmem
      obtain ⟨-, rfl⟩ := cons.inj hcur
      cases hmem

/-! ## Leaving the loop -/

/-- The number of entered iterations is bounded by the formula. -/
theorem IsBounded.entered_le (hentered : Entered graph test tested constants iteration) :
    iteration ≤ bound.numIterations.toNat := by
  by_contra hnot
  have htested := hentered bound.numIterations.toNat (Nat.lt_of_not_le hnot)
  rw [Passes, hbd.continues_iff] at htested
  have hmono : ivValue constants bound.numIterations.toNat ≤
      testedValue tested constants bound.numIterations.toNat := by
    apply ivValue_mono hbd.increment_pos
    split <;> omega
  have hpos := hbd.increment_pos
  have hcast : bound.numIterations ≤ (bound.numIterations.toNat : ℤ) := self_le_toNat _
  have hreached : bound.endValue ≤ ivValue constants bound.numIterations.toNat := by
    have hspec := (hbd.numIterations_spec hexact).2
    unfold ivValue
    nlinarith
  linarith

theorem IsBounded.isLeft : IsLeft loop choice tested.iv.phiInsn := by
  obtain ⟨limit, hlimit⟩ := hexact.inner_left
  refine ⟨⟨(bound.numIterations.toNat + 1) * (limit + 1) + 1, ?_⟩,
    fun _ _ _ hrun hblock => exists_next_run hrun hblock⟩
  -- A run inside the loop is bounded; leaving it adds one block.
  have hinside : ∀ visited v, LoopRun loop choice tested.iv.phiInsn visited v →
      (∀ b ∈ visited, b ∈ loop.body) →
      visited.length ≤ (bound.numIterations.toNat + 1) * (limit + 1) := by
    intro visited v hrun hbody
    obtain ⟨cur, completed, hprog⟩ := exists_progress hbd hexact hrun hbody
    have hlen := LoopRun.length_le hlimit hrun
    have hle := hbd.entered_le hexact hprog.entered
    rw [hprog.cut.count_header] at hlen
    exact hlen.trans (Nat.mul_le_mul_right _ (succ_le_succ hle))
  intro visited v hrun
  have hpast := LoopRun.past_mem_body hrun
  cases hrun with
  | enter hvalue =>
    have := hinside _ _ (.enter hvalue) (by simpa using loop.header_mem)
    omega
  | forward hprevious _ _ _ _ | back hprevious _ _ _ _ =>
    have := hinside _ _ hprevious hpast
    simpa using this

/-! ## Counting visits -/

/-- A block that dominates the back edges is visited once in each completed
iteration, and once more in the last one if it dominates the exit. -/
theorem Progress.count_of_left
    (hprog : Progress loop test tested constants visited (test.testBlock :: rest) completed v)
    (hblock : loop.executedPerIteration b) : visited.count b = completed.count loop.header +
      if graph.flow.Dominates b test.exitBlock then 1 else 0 := by
  have hexit := hbd.exitTest
  have hper := loop.executedPerIteration_iff.mp hblock
  have htestPer := loop.executedPerIteration_iff.mp hexact.test_per_iteration
  obtain ⟨backEdge, hbackEdge, hreach⟩ := loop.reachable_backEdge
  have hiff := hprog.cut.iteration.mem_iff_dominates_exit hexact.once
    hexit.exit_mem_succs hexit.exit_notMem hexit.exit_ne_entry hexit.only_predecessor
    ((loop.mem_backEdges backEdge).mp hbackEdge) hreach htestPer hper
  rw [hprog.cut.append, count_append, hprog.cut.counted _ hper, add_comm]
  congr 1
  split
  next hdom =>
    exact le_antisymm (hexact.once.count_le_one hprog.cut.iteration hper)
      (count_pos_iff.mpr (hiff.mpr hdom))
  next hnot => exact count_eq_zero_of_not_mem fun hmem => hnot (hiff.mp hmem)

theorem IsBounded.getNumIterations_eq (hentered : Entered graph test tested constants iteration)
    (hfailed : ¬ Passes graph test tested constants iteration) (b : Fin blocks) :
    loop.getNumIterations bound b =
      iteration + if graph.flow.Dominates b test.exitBlock then 1 else 0 := by
  have hcount := hbd.numIterations_eq_of_first_failure hexact hentered hfailed
  have hknown : bound.numIterations ≠ -1 := by
    rw [hcount]
    split <;> omega
  unfold getNumIterations
  rw [if_neg hknown, hbd.exitTest.exitBlock_eq, hbd.loopBIV_eq]
  rcases hbd.testedIV.element_eq with helement | helement
  · -- The increment stands above the test.
    have hdom := hbd.element_dominates_exit
    rw [helement] at hdom
    rw [if_pos helement] at hcount
    by_cases hblock : graph.flow.Dominates b test.exitBlock <;>
      simp [hdom, hblock, hcount]
  · have hnot := hexact.increment_below_test helement
    rw [helement, if_neg hbd.testedIV.basic.linear_ne_phi.symm] at hcount
    by_cases hblock : graph.flow.Dominates b test.exitBlock <;>
      simp [hnot, hblock, hcount]

end Bounded

variable (loop choice) in
/-- The execution leaves the loop, and has visited each block that dominates the back edges exactly
`GetNumIterations` times. -/
def CountsVisits (bound : HLoopBoundInformation insns) : Prop :=
  IsLeft loop choice bound.loopBIV.phiInsn ∧
    ∀ exit visited value, LoopRun loop choice bound.loopBIV.phiInsn (exit :: visited) value →
      exit ∉ loop.body → ∀ block, loop.executedPerIteration block = true →
        loop.getNumIterations bound block = visited.count block

/-- The bound information counts the visits of the blocks when the exit test is
what the formula takes it for. -/
theorem countsVisits_of_countIsExact {bound : HLoopBoundInformation insns}
    {test : ExitTest blocks insns} {tested : TestedIV insns} {constants : LoopConstants}
    {choice : Choice graph}
    (hbound : loop.computeBoundInformation = some bound) (htest : loop.exitTest = some test)
    (htested : loop.testedIV test.condition = some tested)
    (hconstants : loopConstants graph tested = some constants)
    (hexact : loop.CountIsExact choice test tested constants) : loop.CountsVisits choice bound := by
  obtain ⟨test', tested', constants', htest', htested', hconstants', hbounded⟩ :=
    exists_isBounded hbound
  obtain rfl : test = test' := some.inj (htest.symm.trans htest')
  obtain rfl : tested = tested' := some.inj (htested.symm.trans htested')
  obtain rfl : constants = constants' := some.inj (hconstants.symm.trans hconstants')
  unfold CountsVisits
  rw [hbounded.loopBIV_eq]
  refine ⟨hbounded.isLeft hexact, ?_⟩
  intro exit visited value hrun hexit block hblock
  have hpast := LoopRun.past_mem_body hrun
  cases hrun with
  | enter | back => exact absurd loop.header_mem hexit
  | @forward source _ past _ hprevious hsource hgo _ _ =>
    obtain ⟨current, completed, hprogress⟩ := exists_progress hbounded hexact hprevious hpast
    obtain ⟨head, rest, rfl, hvisited⟩ := hprogress.exists_cons
    obtain ⟨rfl, -⟩ := cons.inj hvisited
    obtain ⟨rfl, rfl⟩ := hbounded.exitTest.only_exit _ hsource _ hgo.1 hexit
    rw [hprogress.value_eq] at hgo
    have hfailed := (hbounded.go_exit_iff hexact hprogress.entered hgo).mp rfl
    rw [hbounded.getNumIterations_eq hexact hprogress.entered hfailed block,
      hprogress.count_of_left hbounded hexact hblock]
    push_cast
    rfl

/-! ## Two loops

Both loops count a phi from zero to one; they differ in the block of the
increment only. In `for (i = 0; i < 1; i++)` it follows the test, in
`do { } while (i++ < 1)` it precedes a test of the old value. -/

def countingInstruction (incrementBlock : Fin 4) : Fin 9 → HInstruction 4 9
  | 0 => ⟨.intConstant 0, .int, [], 0⟩
  | 1 => ⟨.intConstant 1, .int, [], 0⟩
  | 2 => ⟨.phi, .int, [0, 3], 1⟩
  | 3 => ⟨.add, .int, [2, 1], incrementBlock⟩
  | 4 => ⟨.condition .condGE, .boolean, [2, 1], 1⟩
  | 5 => ⟨.ifInsn, .void, [4], 1⟩
  | 6 => ⟨.other, .void, [], 0⟩
  | 7 => ⟨.other, .void, [], 2⟩
  | 8 => ⟨.other, .void, [], 3⟩

def countingGraph (incrementBlock : Fin 4)
    (hblock : incrementBlock = 1 ∨ incrementBlock = 3) : HGraph 4 9 where
  flow := { entry := 0, succs := ![[1], [2, 3], [], [1]] }
  predecessors := ![[], [0, 3], [1], [1]]
  instruction := countingInstruction incrementBlock
  phis := ![[], [2], [], []]
  lastInstruction := ![6, 5, 7, 8]
  mem_predecessors := by decide
  predecessors_entry := rfl
  block_lastInstruction := by rcases hblock with rfl | rfl <;> decide
  if_successors := by rcases hblock with rfl | rfl <;> decide
  kind_phis := by rcases hblock with rfl | rfl <;> decide
  operands_dominate := by rcases hblock with rfl | rfl <;> decide
  operand_types := by rcases hblock with rfl | rfl <;> decide
  constant_types := by rcases hblock with rfl | rfl <;> decide

def countingLoop (incrementBlock : Fin 4) (hblock : incrementBlock = 1 ∨ incrementBlock = 3) :
    HLoopInformation (countingGraph incrementBlock hblock) where
  header := 1
  body := {1, 3}
  header_mem := by decide
  entry_notMem := by rcases hblock with rfl | rfl <;> decide
  header_reachable := ⟨[0], .step .entry (by rcases hblock with rfl | rfl <;> decide)⟩
  entered_at_header := by rcases hblock with rfl | rfl <;> decide
  backEdges := [3]
  mem_backEdges := by rcases hblock with rfl | rfl <;> decide
  exit_predecessors := by rcases hblock with rfl | rfl <;> decide
  phi_entry_outside := by rcases hblock with rfl | rfl <;> decide
  has_successor := by rcases hblock with rfl | rfl <;> decide
  reachable_backEdge := by
    refine ⟨3, by decide, [1, 0], .step (.step .entry ?_) ?_⟩ <;>
      rcases hblock with rfl | rfl <;> decide

def forLoop : HLoopInformation (countingGraph 3 (.inr rfl)) := countingLoop 3 (.inr rfl)

def doWhileLoop : HLoopInformation (countingGraph 1 (.inl rfl)) := countingLoop 1 (.inl rfl)

def countingBound : HLoopBoundInformation 9 where
  loopBIV := { increment := 1, linearInsn := 3, phiInsn := 2 }
  constantBound := 1
  startValue := 0
  endValue := 1
  numIterations := 1

def countingConstants : LoopConstants where
  start := 0
  increment := 1
  bound := 1

def firstSuccessor (incrementBlock : Fin 4) (hblock : incrementBlock = 1 ∨ incrementBlock = 3) :
    Choice (countingGraph incrementBlock hblock) where
  choose block _ := ![1, 2, 2, 1] block
  choose_mem block _ := by
    revert block
    rcases hblock with rfl | rfl <;> decide

/-- `do { } while (i++ < 1)` runs its header twice; the formula says once. -/
theorem doWhileLoop_not_countsVisits : doWhileLoop.computeBoundInformation = some countingBound ∧
      ¬ doWhileLoop.CountsVisits (firstSuccessor 1 (.inl rfl)) countingBound := by
  refine ⟨by decide +kernel, fun hcounts => ?_⟩
  have henter : LoopRun doWhileLoop (firstSuccessor 1 (.inl rfl)) 2 [1] 0 := by
    refine .enter fun input constant hinput hconstant => ?_
    cases hinput
    exact some.inj hconstant
  have hdecided : ∀ value result, (countingGraph 1 (.inl rfl)).evaluate 2 value 2 4 = some result →
      (countingGraph 1 (.inl rfl)).Decided 2 value 1 :=
    fun _ result hres => ⟨rfl, 4, result, rfl, 2, hres⟩
  have hcontinue : LoopRun doWhileLoop (firstSuccessor 1 (.inl rfl)) 2 [3, 1] 0 :=
    .forward henter (by decide)
      (HGraph.mayGo_of_evaluate 4 2 0 (by decide) rfl (by decide) (by decide))
      (absurd (hdecided 0 0 (by decide))) (by decide)
  have hagain : LoopRun doWhileLoop (firstSuccessor 1 (.inl rfl)) 2 [1, 3, 1] 1 := by
    refine .back hcontinue (by decide) ⟨by decide, fun hbranch => ?_⟩ (fun _ => rfl) ?_
    · exact absurd hbranch (by decide)
    · intro input result hinput hvalue
      cases hinput
      exact HGraph.HasValue.unique ⟨2, by decide⟩ hvalue
  have hleave : LoopRun doWhileLoop (firstSuccessor 1 (.inl rfl)) 2 [2, 1, 3, 1] 1 :=
    .forward hagain (by decide)
      (HGraph.mayGo_of_evaluate 4 2 1 (by decide) rfl (by decide) (by decide))
      (absurd (hdecided 1 1 (by decide))) (by decide)
  have hcount := hcounts.2 2 [1, 3, 1] 1 hleave (by decide) 1 (by decide)
  revert hcount
  decide

def countingTest : ExitTest 4 9 where
  exitBlock := 2
  testBlock := 1
  condition := 4
  comparison := .condGE

def countingTested : TestedIV 9 where
  iv := countingBound.loopBIV
  isIVSecondUse := false
  isWide := false
  compareInsn := 4
  operand := 2
  element := 2
  otherOperand := 1
  constant := 1

theorem forLoop_innermost : forLoop.Innermost :=
  NaturalLoop.innermost_of_rank (fun b => b.val) (by decide)

/-- The test of `for (i = 0; i < 1; i++)` is what the formula takes it for. -/
theorem forLoop_countIsExact : forLoop.CountIsExact (firstSuccessor 3 (.inr rfl)) countingTest
    countingTested countingConstants where
  inner_left := innerLoopsLeft_of_innermost _ _ forLoop_innermost
  once := forLoop_innermost.perIterationOnce
  test_per_iteration := by decide
  increment_below_test _ := by decide
  compare_with_zero := .inl rfl
  constant_conversion := .inl rfl
  tested_conversion := .inl rfl
  back_conversion _ hinput := .inl (some.inj hinput).symm
  width hsnd := by cases hsnd
  distance value hcontinues := by
    have hless : value < 1 := by
      simpa [Continues, testHolds, countingTested, countingTest, countingConstants, countingGraph,
        IfCondition.holds] using hcontinues
    change value - 0 < 2 ^ 63 - 1
    omega

theorem forLoop_countsVisits : forLoop.CountIsExact (firstSuccessor 3 (.inr rfl)) countingTest
      countingTested countingConstants ∧
    forLoop.CountsVisits (firstSuccessor 3 (.inr rfl)) countingBound :=
  ⟨forLoop_countIsExact, countsVisits_of_countIsExact (by decide +kernel) (by decide +kernel)
      (by decide +kernel) (by decide +kernel) forLoop_countIsExact⟩

end NougatArt.LoopBound.HLoopInformation
