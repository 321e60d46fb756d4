import NougatArt.Core.FlowGraph

/-!
# Bounds checks that share tests

This is `AddComparesWithDeoptimization`. The bounds checks of indices `base + c` against one
array length are removed when two unsigned tests are inserted before them, which deoptimize
unless the least and the greatest index are in bounds and in order. In an execution that does not
deoptimize, the values that the tests have seen are those that a removed check would have seen.
-/

namespace NougatArt.BoundsChecks

open List Function

open Bool (and_eq_true or_eq_false_iff and_eq_false_iff)

open BitVec (toInt_eq_toNat_cond toNat_add)

variable {blocks insns : ℕ}

inductive Kind (insns : ℕ)
  | intConstant (value : BitVec 32)
  | add (left right : Fin insns)
  | sub (left right : Fin insns)
  | arrayLength
  | boundsCheck (index length : Fin insns)
  | other
  deriving DecidableEq, Repr

/-- The operands that an instruction is computed from; those of a phi are not needed. -/
def Kind.operands : Kind insns → List (Fin insns)
  | .add left right | .sub left right => [left, right]
  | .boundsCheck index length => [index, length]
  | .intConstant _ | .arrayLength | .other => []

/-- The instructions of a block are performed in an order, and those of a dominating block before
those of the blocks that it dominates. -/
structure HGraph (blocks insns : ℕ) where
  blockFlow : FlowGraph (Fin blocks)
  flow : FlowGraph (Fin insns)
  kind : Fin insns → Kind insns
  uses : Fin insns → List (Fin insns)
  block : Fin insns → Fin blocks
  exitBlock : Fin blocks
  ordered : ∀ first second, block first = block second →
    flow.Dominates first second ∨ flow.Dominates second first
  dominates_of_block : ∀ first second, block first ≠ block second →
    blockFlow.Dominates (block first) (block second) → flow.Dominates first second
  operands_dominate : ∀ insn, ∀ operand ∈ (kind insn).operands,
    flow.Dominates operand insn ∧ operand ≠ insn
  rank : Fin insns → ℕ
  rank_lt : ∀ insn left right, kind insn = .add left right ∨ kind insn = .sub left right →
    rank left < rank insn

/-- An instruction, if there is one, plus a constant. -/
structure ValueBound (insns : ℕ) where
  instruction : Option (Fin insns)
  constant : BitVec 32
  deriving DecidableEq, Repr

def kThresholdForAddingDeoptimize : ℕ := 2

def kMaxLengthForAddingDeoptimize : ℕ := 2 ^ 31 - 1 - 1024 * 1024

def wouldAddOverflowOrUnderflow (left right : BitVec 32) : Bool :=
  if right = 0 then false
  else if 0 < right.toInt ∧ left.toInt ≤ 2 ^ 31 - 1 - right.toInt then false
  else if right.toInt < 0 ∧ -2 ^ 31 - right.toInt ≤ left.toInt then false
  else true

/-- `std::min` and `std::max` on `int32_t`. -/
def minC (first second : BitVec 32) : BitVec 32 :=
  if second.toInt < first.toInt then second else first

def maxC (first second : BitVec 32) : BitVec 32 :=
  if first.toInt < second.toInt then second else first

theorem minC_le (first second : BitVec 32) :
    (minC first second).toInt ≤ first.toInt ∧ (minC first second).toInt ≤ second.toInt := by
  rw [minC]
  split <;> omega

theorem le_maxC (first second : BitVec 32) :
    first.toInt ≤ (maxC first second).toInt ∧ second.toInt ≤ (maxC first second).toInt := by
  rw [maxC]
  split <;> omega

/-- The constants that were met, the checks to remove, and those that are removed only if their
constants lie between the others. -/
structure Selection (insns : ℕ) where
  minC : BitVec 32
  maxC : BitVec 32
  candidates : List (Fin insns)
  standby : List (Fin insns)

/-- The tests against an array length and the checks that they replace. -/
structure Elimination (insns : ℕ) where
  base : Option (Fin insns)
  length : Fin insns
  minC : BitVec 32
  maxC : BitVec 32
  removed : List (Fin insns)
  deriving DecidableEq

namespace HGraph

variable (graph : HGraph blocks insns)

/-- The constant that an instruction adds to its left operand. -/
def addedConstant (insn : Fin insns) : Option (Fin insns × BitVec 32) :=
  match graph.kind insn with
  | .add left right =>
    match graph.kind right with
    | .intConstant value => some (left, value)
    | _ => none
  | .sub left right =>
    match graph.kind right with
    | .intConstant value => some (left, -value)
    | _ => none
  | _ => none

/-- `IsAddOrSubAConstant`, with the instruction itself and 0 if it is not of this form. -/
def isAddOrSubAConstant : ℕ → Fin insns → BitVec 32 → Fin insns × BitVec 32
  | 0, insn, soFar => (insn, soFar)
  | fuel + 1, insn, soFar =>
    match graph.addedConstant insn with
    | some (left, constant) =>
      if wouldAddOverflowOrUnderflow soFar constant then (insn, soFar)
      else isAddOrSubAConstant fuel left (soFar + constant)
    | none => (insn, soFar)

/-- The constructor of `ValueBound`, which evaluates sums of constants. -/
def valueBound (insn : Fin insns) (constant : BitVec 32) : ValueBound insns :=
  match graph.kind insn with
  | .intConstant value =>
    if wouldAddOverflowOrUnderflow value constant then ⟨some insn, constant⟩
    else ⟨none, value + constant⟩
  | _ => ⟨some insn, constant⟩

def asValueBound (insn : Fin insns) : ValueBound insns :=
  match graph.kind insn with
  | .intConstant value => ⟨none, value⟩
  | _ =>
    let found := graph.isAddOrSubAConstant (graph.rank insn) insn 0
    graph.valueBound found.1 found.2

/-- Whether an index is known to be checked whenever the block is executed. -/
def isExecutedWith (block other : Fin blocks) : Bool :=
  block = other || decide (graph.blockFlow.Dominates block graph.exitBlock) &&
    decide (graph.blockFlow.Dominates other graph.exitBlock)

def collect (block : Fin blocks) (length : Fin insns) (base : Option (Fin insns)) :
    List (Fin insns) → Selection insns → Selection insns
  | [], selection => selection
  | user :: users, selection =>
    match graph.kind user with
    | .boundsCheck otherIndex otherLength =>
      let other := graph.asValueBound otherIndex
      if graph.blockFlow.Dominates block (graph.block user) ∧ length = otherLength ∧
          base = other.instruction then
        -- The check of the length against itself fails.
        if length = otherIndex then { selection with candidates := [], standby := [] }
        else if graph.isExecutedWith block (graph.block user) then
          collect block length base users { selection with
              minC := BoundsChecks.minC selection.minC other.constant
              maxC := BoundsChecks.maxC selection.maxC other.constant
              candidates := selection.candidates ++ [user] }
        else collect block length base users
          { selection with standby := selection.standby ++ [user] }
      else collect block length base users selection
    | _ => collect block length base users selection

def isInRange (selection : Selection insns) (check : Fin insns) : Bool :=
  match graph.kind check with
  | .boundsCheck index _ =>
    let constant := (graph.asValueBound index).constant
    selection.minC.toInt ≤ constant.toInt && constant.toInt ≤ selection.maxC.toInt
  | _ => false

/-- Without a base the range starts at 0. -/
def select (block : Fin blocks) (length : Fin insns) (value : ValueBound insns) :
    Selection insns :=
  graph.collect block length value.instruction (graph.uses length)
    ⟨if value.instruction = none then 0 else value.constant, value.constant, [], []⟩

def removedChecks (selection : Selection insns) : List (Fin insns) :=
  selection.candidates ++ selection.standby.filter (graph.isInRange selection)

/-- One more check has to be removed for the test of the base. -/
def threshold (base : Option (Fin insns)) : ℕ :=
  kThresholdForAddingDeoptimize + if base = none then 0 else 1

/-- `AddComparesWithDeoptimization` for the first bounds check of a block against a length. -/
def addComparesWithDeoptimization (block : Fin blocks) (boundsCheck : Fin insns) :
    Option (Elimination insns) :=
  match graph.kind boundsCheck with
  | .boundsCheck index length =>
    let value := graph.asValueBound index
    let selection := graph.select block length value
    if graph.kind length = .arrayLength ∧
        threshold value.instruction ≤ (graph.removedChecks selection).length ∧
        (value.instruction ≠ none ∨ 0 ≤ selection.minC.toInt) ∧
        (selection.maxC - selection.minC).toNat ≤ kMaxLengthForAddingDeoptimize then
      some ⟨value.instruction, length, selection.minC, selection.maxC,
        graph.removedChecks selection⟩
    else none
  | _ => none

end HGraph

/-- The values that the instructions have at some point of an execution. -/
abbrev Env (insns : ℕ) := Fin insns → BitVec 32

def ValueBound.value (env : Env insns) (bound : ValueBound insns) : BitVec 32 :=
  match bound.instruction with
  | some insn => env insn + bound.constant
  | none => bound.constant

/-- `HAbove(lower, upper)`, if there is a base, and `HAboveOrEqual(upper, array_length)`. -/
def Elimination.deoptimizes (tests : Elimination insns) (env : Env insns) : Bool :=
  let lower := (⟨tests.base, tests.minC⟩ : ValueBound insns).value env
  let upper := (⟨tests.base, tests.maxC⟩ : ValueBound insns).value env
  (tests.base.isSome && decide (upper.toNat < lower.toNat)) ||
    decide ((env tests.length).toNat ≤ upper.toNat)

namespace HGraph

section Runs

variable (graph : HGraph blocks insns)

/-- What an instruction computes from its operands. A length is not negative, and a check that is
performed yields the index. -/
def Produces (env : Env insns) (insn : Fin insns) (value : BitVec 32) : Prop :=
  match graph.kind insn with
  | .intConstant constant => value = constant
  | .add left right => value = env left + env right
  | .sub left right => value = env left - env right
  | .arrayLength => 0 ≤ value.toInt
  | .boundsCheck index _ => value = env index
  | .other => True

instance (env : Env insns) (insn : Fin insns) (value : BitVec 32) :
    Decidable (graph.Produces env insn value) := by
  unfold Produces
  split <;> infer_instance

/-- The instructions that were performed, the latest first, with the values before each of them, and
the values now. The tests stand before the bounds check and do not deoptimize. -/
inductive Run (boundsCheck : Fin insns) (tests : Elimination insns) :
    List (Fin insns × Env insns) → Env insns → Prop
  | start (env : Env insns) : Run boundsCheck tests [] env
  | step {past : List (Fin insns × Env insns)} {env : Env insns} {insn : Fin insns}
      {value : BitVec 32} (hrun : Run boundsCheck tests past env)
      (htrace : graph.flow.Trace (insn :: past.map Prod.fst))
      (hkept : insn = boundsCheck → tests.deoptimizes env = false)
      (hvalue : graph.Produces env insn value) :
      Run boundsCheck tests ((insn, env) :: past) (update env insn value)

def Passes (env : Env insns) (check : Fin insns) : Prop :=
  ∃ index length, graph.kind check = .boundsCheck index length ∧ 0 ≤ (env index).toInt ∧
    (env index).toInt < (env length).toInt

/-- A check of the same length and base in a block that the block of the tests dominates. -/
def IsRelated (block : Fin blocks) (length : Fin insns) (base : Option (Fin insns))
    (check : Fin insns) : Prop :=
  graph.blockFlow.Dominates block (graph.block check) ∧
    ∃ index, graph.kind check = .boundsCheck index length ∧
      (graph.asValueBound index).instruction = base

/-- The first instruction is performed before the second one. -/
structure Above (first second : Fin insns) : Prop where
  dominates : graph.flow.Dominates first second
  ne : first ≠ second

end Runs

variable {graph : HGraph blocks insns} {env env' before : Env insns}
  {insn point boundsCheck check : Fin insns} {tests : Elimination insns}
  {later earlier past : List (Fin insns × Env insns)} {constant : BitVec 32}
  {selection : Selection insns}

/-! ## Values along an execution -/

theorem above_of_mem_operands {operand : Fin insns}
    (hmem : operand ∈ (graph.kind insn).operands) : graph.Above operand insn :=
  ⟨(graph.operands_dominate _ _ hmem).1, (graph.operands_dominate _ _ hmem).2⟩

theorem Above.trans (hfirst : graph.Above insn check) (hsnd : graph.Above check point)
    (hreach : graph.flow.Reachable point) : graph.Above insn point := by
  refine ⟨hfirst.dominates.trans hsnd.dominates, ?_⟩
  rintro rfl
  exact hsnd.ne (hsnd.dominates.antisymm hreach hfirst.dominates)

theorem Produces.congr {value : BitVec 32} (h : graph.Produces env insn value)
    (hsame : ∀ operand ∈ (graph.kind insn).operands, env operand = env' operand) :
    graph.Produces env' insn value := by
  unfold Produces at h ⊢
  split at h <;> rename_i hkind <;> rw [hkind] at hsame <;> simp only [Kind.operands, mem_cons,
    not_mem_nil, or_false, forall_eq_or_imp, forall_eq] at hsame
  case h_1 | h_4 | h_6 => exact h
  case h_2 | h_3 => rwa [← hsame.1, ← hsame.2]
  case h_5 => rwa [← hsame.1]

/-- What is not performed again keeps its value. -/
theorem Run.keeps (hrun : graph.Run boundsCheck tests (later ++ past) env) :
    ∃ env', graph.Run boundsCheck tests past env' ∧
      ∀ insn ∉ later.map Prod.fst, env insn = env' insn := by
  induction later generalizing env with
  | nil => exact ⟨env, hrun, fun _ _ => rfl⟩
  | cons entry later ih =>
    cases hrun with
    | step hrun _ _ _ =>
      obtain ⟨env', hpast, hkeeps⟩ := ih hrun
      refine ⟨env', hpast, fun insn hmem => ?_⟩
      rw [map_cons, mem_cons, not_or] at hmem
      rw [update_of_ne hmem.1, hkeeps _ hmem.2]

/-- A performed instruction and the values before it. -/
theorem Run.at (hrun : graph.Run boundsCheck tests (later ++ (insn, before) :: earlier) env) :
    graph.Run boundsCheck tests earlier before ∧
      graph.flow.Trace (insn :: earlier.map Prod.fst) ∧
      (insn = boundsCheck → tests.deoptimizes before = false) ∧
      (∀ other ≠ insn, other ∉ later.map Prod.fst → env other = before other) ∧
      (insn ∉ later.map Prod.fst → graph.Produces before insn (env insn)) := by
  obtain ⟨env', hrun', hkeeps⟩ := hrun.keeps
  cases hrun' with
  | step hrun htrace hkept hvalue =>
    refine ⟨hrun, htrace, hkept, fun other hne hmem => ?_, fun hmem => ?_⟩
    · rw [hkeeps _ hmem, update_of_ne hne]
    · rwa [hkeeps _ hmem, update_self]

theorem exists_latest (hmem : insn ∈ past.map Prod.fst) : ∃ later before earlier,
    past = later ++ (insn, before) :: earlier ∧ insn ∉ later.map Prod.fst := by
  induction past with
  | nil => cases hmem
  | cons entry past ih =>
    by_cases heq : insn = entry.1
    · exact ⟨[], entry.2, past, by rw [heq]; rfl, not_mem_nil⟩
    · obtain ⟨later, before, earlier, rfl, hnot⟩ := ih ((mem_cons.mp hmem).resolve_left heq)
      exact ⟨entry :: later, before, earlier, rfl, not_mem_cons_of_ne_of_not_mem heq hnot⟩

/-- What stands above an instruction keeps its value from the latest execution of the instruction to
the points that the instruction dominates. -/
theorem Run.eq_of_above
    (hrun : graph.Run boundsCheck tests (later ++ (insn, before) :: earlier) env)
    (htrace : graph.flow.Trace (point :: (later ++ (insn, before) :: earlier).map Prod.fst))
    (hlatest : insn ∉ later.map Prod.fst) (hpoint : graph.Above insn point)
    {other : Fin insns} (hother : graph.Above other insn) : env other = before other := by
  refine hrun.at.2.2.2.1 _ hother.ne fun hmem => ?_
  have hsplit : point :: (later ++ (insn, before) :: earlier).map Prod.fst =
      (point :: later.map Prod.fst) ++ insn :: earlier.map Prod.fst := by
    rw [map_append, map_cons, cons_append]
  exact FlowGraph.notMem_later_of_dominates hother.dominates hpoint.dominates htrace hother.ne
    hsplit (not_mem_cons_of_ne_of_not_mem hpoint.ne hlatest) (mem_cons_of_mem _ hmem)

/-- Above the point that an execution has reached, every instruction has the value that it computes
from its operands. -/
theorem Run.produces (hrun : graph.Run boundsCheck tests past env)
    (htrace : graph.flow.Trace (point :: past.map Prod.fst)) (habove : graph.Above insn point) :
    graph.Produces env insn (env insn) := by
  obtain ⟨later, before, earlier, rfl, hlatest⟩ :=
    exists_latest ((mem_cons.mp (habove.dominates _ htrace)).resolve_left habove.ne)
  refine (hrun.at.2.2.2.2 hlatest).congr fun operand hmem => ?_
  exact (hrun.eq_of_above htrace hlatest habove (above_of_mem_operands hmem)).symm

/-! ## The value of an index -/

theorem left_mem_operands {left : Fin insns}
    (hadded : graph.addedConstant insn = some (left, constant)) :
    left ∈ (graph.kind insn).operands := by
  rw [addedConstant] at hadded
  split at hadded <;> rename_i hkind
  case h_1 | h_2 =>
    split at hadded <;> cases hadded
    rw [hkind]
    exact mem_cons_self
  case h_3 => cases hadded

section Base

variable (hreach : graph.flow.Reachable point) (habove : graph.Above insn point)

include hreach habove

theorem isAddOrSubAConstant_above (fuel : ℕ) (soFar : BitVec 32) :
    graph.Above (graph.isAddOrSubAConstant fuel insn soFar).1 point := by
  induction fuel generalizing insn soFar with
  | zero => exact habove
  | succ fuel ih =>
    rw [isAddOrSubAConstant]
    split
    case h_1 left constant hadded =>
      split
      · exact habove
      · exact ih ((above_of_mem_operands (left_mem_operands hadded)).trans habove hreach) _
    case h_2 => exact habove

/-- The base of an index stands above what the index stands above. -/
theorem asValueBound_above {base : Fin insns}
    (hbase : (graph.asValueBound insn).instruction = some base) : graph.Above base point := by
  rw [asValueBound] at hbase
  split at hbase
  case h_1 => cases hbase
  case h_2 =>
    rw [valueBound] at hbase
    split at hbase
    case h_1 =>
      split at hbase
      · exact Option.some.inj hbase ▸ isAddOrSubAConstant_above hreach habove _ _
      · cases hbase
    case h_2 => exact Option.some.inj hbase ▸ isAddOrSubAConstant_above hreach habove _ _

end Base

section Values

variable (hreach : graph.flow.Reachable point)
  (hvalues : ∀ insn, graph.Above insn point → graph.Produces env insn (env insn))

include hvalues

theorem value_of_intConstant (habove : graph.Above insn point)
    (hkind : graph.kind insn = .intConstant constant) : env insn = constant := by
  have hvalue := hvalues _ habove
  rwa [Produces, hkind] at hvalue

theorem valueBound_value (habove : graph.Above insn point) (constant : BitVec 32) :
    (graph.valueBound insn constant).value env = env insn + constant := by
  rw [valueBound]
  split
  case h_1 v hconst =>
    split
    · rfl
    · rw [value_of_intConstant hvalues habove hconst]
      rfl
  case h_2 => rfl

include hreach

theorem value_of_addedConstant (habove : graph.Above insn point) {left : Fin insns}
    (hadded : graph.addedConstant insn = some (left, constant)) :
    env insn = env left + constant := by
  have hvalue := hvalues _ habove
  have hright : ∀ right ∈ (graph.kind insn).operands, ∀ {v}, graph.kind right = .intConstant v →
      env right = v := fun right hmem _ hconst =>
    value_of_intConstant hvalues ((above_of_mem_operands hmem).trans habove hreach) hconst
  rw [addedConstant] at hadded
  split at hadded
  case h_1 _ right hkind =>
    rw [Produces, hkind] at hvalue
    split at hadded
    case h_1 v hconst =>
      cases hadded
      rw [hvalue, hright right (by simp [hkind, Kind.operands]) hconst]
    case h_2 => cases hadded
  case h_2 _ right hkind =>
    rw [Produces, hkind] at hvalue
    split at hadded
    case h_1 v hconst =>
      cases hadded
      rw [hvalue, hright right (by simp [hkind, Kind.operands]) hconst, sub_eq_add_neg]
    case h_2 => cases hadded
  case h_3 => cases hadded

theorem isAddOrSubAConstant_value (fuel : ℕ) (habove : graph.Above insn point)
    (soFar : BitVec 32) :
    env (graph.isAddOrSubAConstant fuel insn soFar).1 +
      (graph.isAddOrSubAConstant fuel insn soFar).2 = env insn + soFar := by
  induction fuel generalizing insn soFar with
  | zero => rfl
  | succ fuel ih =>
    rw [isAddOrSubAConstant]
    split
    case h_1 left constant hadded =>
      have hleft := (above_of_mem_operands (left_mem_operands hadded)).trans habove hreach
      split
      · rfl
      · rw [ih hleft, value_of_addedConstant hreach hvalues habove hadded, add_assoc,
          add_comm soFar]
    case h_2 => rfl

theorem asValueBound_value (habove : graph.Above insn point) :
    (graph.asValueBound insn).value env = env insn := by
  rw [asValueBound]
  split
  case h_1 v hconst => exact (value_of_intConstant hvalues habove hconst).symm
  case h_2 =>
    rw [valueBound_value hvalues (isAddOrSubAConstant_above hreach habove _ _),
      isAddOrSubAConstant_value hreach hvalues _ habove]
    exact add_zero _

end Values

/-! ## The removed checks -/

/-- Candidates are related and in range, and the checks on standby are related. -/
structure Collected (graph : HGraph blocks insns) (block : Fin blocks) (length : Fin insns)
    (base : Option (Fin insns)) (selection : Selection insns) : Prop where
  candidates : ∀ check ∈ selection.candidates,
    graph.IsRelated block length base check ∧ graph.isInRange selection check = true
  standby : ∀ check ∈ selection.standby, graph.IsRelated block length base check

theorem Collected.empty (b : Fin blocks) (length : Fin insns) (base : Option (Fin insns))
    (least greatest : BitVec 32) :
    graph.Collected b length base ⟨least, greatest, [], []⟩ :=
  ⟨fun _ hmem => absurd hmem not_mem_nil, fun _ hmem => absurd hmem not_mem_nil⟩

theorem isInRange_widen (constant : BitVec 32)
    {candidates standby : List (Fin insns)} (hrange : graph.isInRange selection check) :
    graph.isInRange
      ⟨minC selection.minC constant, maxC selection.maxC constant, candidates, standby⟩ check := by
  rw [isInRange] at hrange ⊢
  split at hrange
  case h_1 =>
    simp only [and_eq_true, decide_eq_true_eq] at hrange ⊢
    exact ⟨(minC_le _ _).1.trans hrange.1, hrange.2.trans (le_maxC _ _).1⟩
  case h_2 => cases hrange

theorem collected_collect (b : Fin blocks) (length : Fin insns) (base : Option (Fin insns))
    (users : List (Fin insns)) (h : graph.Collected b length base selection) :
    graph.Collected b length base (graph.collect b length base users selection) := by
  induction users generalizing selection with
  | nil => exact h
  | cons user users ih =>
    rw [collect]
    split
    case h_1 otherIndex otherLength hkind =>
      dsimp only
      split
      case isTrue hrelated =>
        obtain ⟨hdom, rfl, rfl⟩ := hrelated
        have huser : graph.IsRelated b length (graph.asValueBound otherIndex).instruction user :=
          ⟨hdom, otherIndex, hkind, rfl⟩
        split
        case isTrue => exact .empty ..
        case isFalse =>
          split
          · refine ih ⟨fun check hcheck => ?_, h.standby⟩
            obtain hcheck | hcheck := mem_append.mp hcheck
            · exact (h.candidates _ hcheck).imp_right (isInRange_widen _)
            · rw [mem_singleton.mp hcheck]
              refine ⟨huser, ?_⟩
              simp only [isInRange, hkind, and_eq_true, decide_eq_true_eq]
              exact ⟨(minC_le _ _).2, (le_maxC _ _).2⟩
          · refine ih ⟨h.candidates, fun check hcheck => ?_⟩
            obtain hcheck | hcheck := mem_append.mp hcheck
            · exact h.standby _ hcheck
            · rwa [mem_singleton.mp hcheck]
      case isFalse => exact ih h
    case h_2 => exact ih h

/-! ## Indices between the tested ones -/

/-- If the indices at both ends are in order, nothing between them wraps around. -/
theorem toNat_add_le {base least greatest : BitVec 32}
    (horder : (base + least).toNat ≤ (base + greatest).toNat)
    (hleast : least.toInt ≤ constant.toInt) (hgreatest : constant.toInt ≤ greatest.toInt) :
    (base + constant).toNat ≤ (base + greatest).toNat := by
  rw [toInt_eq_toNat_cond, toInt_eq_toNat_cond] at hleast hgreatest
  rw [toNat_add, toNat_add] at horder ⊢
  omega

theorem inBounds_of_toNat_lt {i length : BitVec 32} (hlength : 0 ≤ length.toInt)
    (hlt : i.toNat < length.toNat) : 0 ≤ i.toInt ∧ i.toInt < length.toInt := by
  rw [toInt_eq_toNat_cond] at hlength
  rw [toInt_eq_toNat_cond, toInt_eq_toNat_cond]
  omega

/-- A related check in range passes if the tests do not deoptimize with the same values. -/
theorem passes_of_isInRange {b : Fin blocks} {length : Fin insns} {base : Option (Fin insns)}
    {removed : List (Fin insns)} (hreach : graph.flow.Reachable check)
    (hvalues : ∀ insn, graph.Above insn check → graph.Produces env insn (env insn))
    (hlength : graph.kind length = .arrayLength) (hbase : base ≠ none ∨ 0 ≤ selection.minC.toInt)
    (hkept : Elimination.deoptimizes
      ⟨base, length, selection.minC, selection.maxC, removed⟩ env = false)
    (hcheck : graph.IsRelated b length base check)
    (hrange : graph.isInRange selection check) : graph.Passes env check := by
  obtain ⟨-, i, hkind, rfl⟩ := hcheck
  have habove : ∀ operand ∈ [i, length], graph.Above operand check := by
    intro operand hmem
    refine above_of_mem_operands ?_
    rwa [hkind]
  have hnonneg := hvalues _ (habove length (by simp))
  rw [Produces, hlength] at hnonneg
  refine ⟨i, length, hkind, inBounds_of_toNat_lt hnonneg ?_⟩
  simp only [isInRange, hkind, and_eq_true, decide_eq_true_eq] at hrange
  rw [← asValueBound_value hreach hvalues (habove i (by simp))]
  generalize graph.asValueBound i = bound at hbase hkept hrange ⊢
  obtain ⟨insn, constant⟩ := bound
  simp only [Elimination.deoptimizes, or_eq_false_iff, and_eq_false_iff,
    decide_eq_false_iff_not, Nat.not_lt, Nat.not_le] at hkept
  refine lt_of_le_of_lt ?_ hkept.2
  cases insn with
  | some insn => exact toNat_add_le (hkept.1.resolve_left nofun) hrange.1 hrange.2
  | none =>
    -- All constants are non-negative.
    have hpos : 0 ≤ constant.toInt := (hbase.resolve_left fun hne => hne rfl).trans hrange.1
    have hle : constant.toInt ≤ selection.maxC.toInt := hrange.2
    rw [toInt_eq_toNat_cond] at hpos
    rw [toInt_eq_toNat_cond, toInt_eq_toNat_cond] at hle
    show constant.toNat ≤ selection.maxC.toNat
    omega

theorem deoptimizes_congr (hlength : env tests.length = env' tests.length)
    (hbase : ∀ base, tests.base = some base → env base = env' base) :
    tests.deoptimizes env = tests.deoptimizes env' := by
  have hvalue : ∀ constant, (⟨tests.base, constant⟩ : ValueBound insns).value env =
      (⟨tests.base, constant⟩ : ValueBound insns).value env' := by
    intro constant
    unfold ValueBound.value
    cases heq : tests.base with
    | none => rfl
    | some base => exact congrArg (· + constant) (hbase base heq)
  simp only [Elimination.deoptimizes, hvalue, hlength]

section Tested

variable (hrun : graph.Run boundsCheck tests (later ++ (check, before) :: earlier) env)

include hrun

/-- Tests that stand above a check have seen the values that the check sees. -/
theorem Run.deoptimizes_above (habove : graph.Above boundsCheck check)
    (hlength : graph.Above tests.length boundsCheck)
    (hbase : ∀ base, tests.base = some base → graph.Above base boundsCheck) :
    tests.deoptimizes before = false := by
  obtain ⟨hpast, htrace, -⟩ := hrun.at
  obtain ⟨between, tested, old, rfl, hlatest⟩ :=
    exists_latest ((mem_cons.mp (habove.dominates _ htrace)).resolve_left habove.ne)
  rw [← hpast.at.2.2.1 rfl]
  exact deoptimizes_congr (hpast.eq_of_above htrace hlatest habove hlength)
    fun base heq => hpast.eq_of_above htrace hlatest habove (hbase base heq)

/-- So have tests that follow the check in its block, when they are reached. -/
theorem Run.deoptimizes_below (habove : graph.Above check boundsCheck)
    (hdone : ∃ after tested between, later = after ++ (boundsCheck, tested) :: between ∧
      check ∉ between.map Prod.fst)
    (hlength : graph.Above tests.length check)
    (hbase : ∀ base, tests.base = some base → graph.Above base check) :
    tests.deoptimizes before = false := by
  obtain ⟨after, tested, between, rfl, hlatest⟩ := hdone
  rw [append_assoc, cons_append] at hrun
  obtain ⟨hpast, htrace, hkept, -⟩ := hrun.at
  rw [← hkept rfl]
  exact (deoptimizes_congr (hpast.eq_of_above htrace hlatest habove hlength)
    fun base heq => hpast.eq_of_above htrace hlatest habove (hbase base heq)).symm

/-- The tests do not deoptimize with the values that a related check sees. -/
theorem Run.deoptimizes_of_isRelated {index : Fin insns}
    (hfirst : graph.kind boundsCheck = .boundsCheck index tests.length)
    (hbase : (graph.asValueBound index).instruction = tests.base)
    (hrelated : graph.IsRelated (graph.block boundsCheck) tests.length tests.base check)
    (hdone : ¬ graph.flow.Dominates boundsCheck check →
      ∃ after tested between, later = after ++ (boundsCheck, tested) :: between ∧
        check ∉ between.map Prod.fst) : tests.deoptimizes before = false := by
  obtain ⟨hdom, i, hkind, hsame⟩ := hrelated
  obtain ⟨-, htrace, hkept, -⟩ := hrun.at
  by_cases heq : check = boundsCheck
  · exact hkept heq
  by_cases hbelow : graph.flow.Dominates boundsCheck check
  · have habove : graph.Above boundsCheck check := ⟨hbelow, Ne.symm heq⟩
    have hoperands : ∀ operand ∈ [index, tests.length], graph.Above operand boundsCheck :=
      fun operand hmem => above_of_mem_operands (by rwa [hfirst])
    obtain ⟨_, _, hsplit⟩ := append_of_mem (hbelow _ htrace)
    have hreach : graph.flow.Reachable boundsCheck := ⟨_, (hsplit ▸ htrace).drop_latest⟩
    exact hrun.deoptimizes_above habove (hoperands _ (by simp)) fun base heq =>
      asValueBound_above hreach (hoperands index (by simp)) (hbase.trans heq)
  · -- The check stands before the tests in their block.
    have hsameBlock : graph.block boundsCheck = graph.block check := by
      by_contra hne
      exact hbelow (graph.dominates_of_block _ _ hne hdom)
    have habove : graph.Above check boundsCheck :=
      ⟨(graph.ordered _ _ hsameBlock).resolve_left hbelow, heq⟩
    have hoperands : ∀ operand ∈ [i, tests.length], graph.Above operand check :=
      fun operand hmem => above_of_mem_operands (by rwa [hkind])
    exact hrun.deoptimizes_below habove (hdone hbelow) (hoperands _ (by simp)) fun base heq =>
      asValueBound_above ⟨_, htrace⟩ (hoperands i (by simp)) (hsame.trans heq)

end Tested

theorem isRelated_of_mem_removedChecks {b : Fin blocks} {length : Fin insns}
    {value : ValueBound insns}
    (hmem : check ∈ graph.removedChecks (graph.select b length value)) :
    graph.IsRelated b length value.instruction check ∧
      graph.isInRange (graph.select b length value) check = true := by
  have hcollected : graph.Collected b length value.instruction (graph.select b length value) :=
    collected_collect _ _ _ _ (.empty ..)
  obtain hmem | hmem := mem_append.mp hmem
  · exact hcollected.candidates _ hmem
  · obtain ⟨hmem, hrange⟩ := mem_filter.mp hmem
    exact ⟨hcollected.standby _ hmem, hrange⟩

end HGraph

/-! ## Three checks

The checks of `a[i]`, `a[i + 1]` and `a[i + 2]` in one block: 0 is `i`, 1 the length. -/

def threeChecks : HGraph 1 9 where
  blockFlow := { entry := 0, succs := fun _ => [] }
  flow := { entry := 0, succs := fun insn => if insn.val < 8 then [insn + 1] else [] }
  kind := ![.other, .arrayLength, .intConstant 1, .intConstant 2, .add 0 2, .add 0 3,
    .boundsCheck 0 1, .boundsCheck 4 1, .boundsCheck 5 1]
  uses _ := [6, 7, 8]
  block _ := 0
  exitBlock := 0
  ordered := by decide +kernel
  dominates_of_block := by decide
  operands_dominate := by decide +kernel
  rank insn := insn
  rank_lt := by decide

def threeTests : Elimination 9 where
  base := some 0
  length := 1
  minC := 0
  maxC := 2
  removed := [6, 7, 8]

/-- The values after the first instructions of `threeChecks`, from `i = 5` and a length of 8 on. -/
def valuesOfFive (count : ℕ) : Env 9 := fun insn =>
  if insn.val < count then ![5, 8, 1, 2, 6, 7, 5, 6, 7] insn else 0

def historyOfFive : ℕ → List (Fin 9 × Env 9)
  | 0 => []
  | count + 1 => (Fin.ofNat 9 count, valuesOfFive count) :: historyOfFive count

theorem trace_historyOfFive (count : ℕ) (hcount : count < 9) :
    threeChecks.flow.Trace (Fin.ofNat 9 count :: (historyOfFive count).map Prod.fst) := by
  induction count with
  | zero => exact .entry
  | succ count ih =>
    have hlt : count < 8 := Nat.lt_of_succ_lt_succ hcount
    refine .step (ih (Nat.lt_of_succ_lt hcount)) ?_
    interval_cases count <;> decide

theorem run_historyOfFive (count : ℕ) (hcount : count ≤ 9) :
    threeChecks.Run 6 threeTests (historyOfFive count) (valuesOfFive count) := by
  induction count with
  | zero => exact .start _
  | succ count ih =>
    have hlt : count < 9 := hcount
    have hvalue : threeChecks.Produces (valuesOfFive count) (Fin.ofNat 9 count)
        (![5, 8, 1, 2, 6, 7, 5, 6, 7] (Fin.ofNat 9 count)) := by
      interval_cases count <;> decide
    have hkept : Fin.ofNat 9 count = 6 → threeTests.deoptimizes (valuesOfFive count) = false := by
      interval_cases count <;> decide
    have hnext : update (valuesOfFive count) (Fin.ofNat 9 count)
        (![5, 8, 1, 2, 6, 7, 5, 6, 7] (Fin.ofNat 9 count)) = valuesOfFive (count + 1) := by
      interval_cases count <;> decide
    rw [← hnext]
    exact .step (ih (Nat.le_of_succ_le hcount)) (trace_historyOfFive count hcount) hkept hvalue

end NougatArt.BoundsChecks
