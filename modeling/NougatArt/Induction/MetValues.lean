import NougatArt.Induction.Range

/-!
# The values that `RefineOuter` meets

The range analysis calls `RefineOuter` in three places: for the first operand of
a multiplication, for a stride that is asked to be constant, and for the range a
client wants refined. The functions below collect the values of these calls,
along the recursion of the analysis. If a predicate admits all of them, then
looking at the admitted values only does not change the result.
-/

namespace NougatArt.Induction

open List

/-- The compiler refines every value. -/
def everyValue (_ : Value) : Bool := true

/-- The values that are met while a range is refined up to a number of times,
given those that are met when one value is refined. -/
def metInRange (refine : Value → Bool → Value) (met : Value → List Value) :
    ℕ → Value → Value → List Value
  | 0, _, _ => []
  | times + 1, vMin, vMax =>
    met vMin ++ met vMax ++
      match refineBoth refine vMin vMax with
      | some (vMin', vMax') => metInRange refine met times vMin' vMax'
      | none => []

section

variable (analysis : InductionAnalysis)

mutual

def metInInvariant : ℕ → Invariant → Option TripCount → Bool → List Value
  | 0, _, _, _ => []
  | depth + 1, expression, trip, inBody =>
    match expression with
    | .op .mul a b _ => metInMul depth a trip inBody ++ metInInvariant depth b trip inBody
    | .op .add a b _ | .op .sub a b _ | .op .div a b _ =>
      metInInvariant depth a trip inBody ++ metInInvariant depth b trip inBody
    | .neg b _ => metInInvariant depth b trip inBody
    | _ => []

def metInTrip : ℕ → Invariant → Option TripCount → Bool → List Value
  | 0, _, _, _ => []
  | depth + 1, count, trip, inBody => metInInvariant depth count trip inBody

def metInMul : ℕ → Invariant → Option TripCount → Bool → List Value
  | 0, _, _, _ => []
  | depth + 1, info1, trip, inBody =>
    let v1Min := getInvariant analysis everyValue depth info1 trip inBody true
    let v1Max := getInvariant analysis everyValue depth info1 trip inBody false
    metInInvariant depth info1 trip inBody ++
      if !v1Min.isConstantValue && !v1Max.isConstantValue then
        metInRefine depth v1Min ++ metInRefine depth v1Max
      else []

def metInLinear : ℕ → Invariant → Invariant → Option TripCount → Bool → List Value
  | 0, _, _, _, _ => []
  | depth + 1, a, b, trip, inBody =>
    let stride := isConstant analysis everyValue depth a .exact
    metInConstant depth a ++ metInMul depth a trip inBody ++ metInInvariant depth b trip inBody ++
      (trip.elim [] fun t => metInTrip depth t.count trip inBody) ++
      ((cancelledTrip trip stride b true).elim [] fun t => metInTrip depth t.2 trip inBody) ++
      ((cancelledTrip trip stride b false).elim [] fun t => metInTrip depth t.2 trip inBody)

def metInPeriodic : ℕ → Periodic → Option TripCount → Bool → List Value
  | 0, _, _, _ => []
  | depth + 1, cycle, trip, inBody =>
    match cycle with
    | .last a b _ => metInInvariant depth a trip inBody ++ metInInvariant depth b trip inBody
    | .cons a b _ => metInInvariant depth a trip inBody ++ metInPeriodic depth b trip inBody

def metInVal : ℕ → InductionInfo → Option TripCount → Bool → List Value
  | 0, _, _, _ => []
  | depth + 1, info, trip, inBody =>
    match info with
    | .invariant expression => metInInvariant depth expression trip inBody
    | .linear a b _ => metInLinear depth a b trip inBody
    | .wrapAround a b _ => metInInvariant depth a trip inBody ++ metInVal depth b trip inBody
    | .periodic cycle => metInPeriodic depth cycle trip inBody

def metInRefine : ℕ → Value → List Value
  | 0, _ => []
  | depth + 1, v =>
    v ::
      match v.instruction with
      | none => []
      | some instruction =>
        match analysis.graph.loopInformation instruction with
        | none => []
        | some loop =>
          match analysis.lookupInfo loop instruction with
          | none => []
          | some info => metInVal depth info (analysis.tripCount loop) true

def metInConstant : ℕ → Invariant → List Value
  | 0, _ => []
  | depth + 1, info =>
    match info.constantFetch with
    | some _ => []
    | none =>
      metInInvariant depth info none true ++
        metInRange (refineOuter analysis everyValue depth) (metInRefine depth) depth
          (getInvariant analysis everyValue depth info none true true)
          (getInvariant analysis everyValue depth info none true false)

end

end

/-- Looking at the admitted values only gives the results of looking at all. -/
structure Agrees (analysis : InductionAnalysis) (admits : Value → Bool) (depth : ℕ) : Prop where
  invariant : ∀ expr trip inBody isMin,
    (∀ v ∈ metInInvariant analysis depth expr trip inBody, admits v) →
    getInvariant analysis admits depth expr trip inBody isMin =
      getInvariant analysis everyValue depth expr trip inBody isMin
  trip : ∀ kind count trip inBody isMin,
    (∀ v ∈ metInTrip analysis depth count trip inBody, admits v) →
    getTrip analysis admits depth kind count trip inBody isMin =
      getTrip analysis everyValue depth kind count trip inBody isMin
  mul : ∀ expr v2Min v2Max trip inBody isMin,
    (∀ v ∈ metInMul analysis depth expr trip inBody, admits v) →
    getMul analysis admits depth expr v2Min v2Max trip inBody isMin =
      getMul analysis everyValue depth expr v2Min v2Max trip inBody isMin
  linear : ∀ a b trip inBody isMin,
    (∀ v ∈ metInLinear analysis depth a b trip inBody, admits v) →
    getLinear analysis admits depth a b trip inBody isMin =
      getLinear analysis everyValue depth a b trip inBody isMin
  periodic : ∀ cycle trip inBody isMin,
    (∀ v ∈ metInPeriodic analysis depth cycle trip inBody, admits v) →
    getPeriodic analysis admits depth cycle trip inBody isMin =
      getPeriodic analysis everyValue depth cycle trip inBody isMin
  val : ∀ info trip inBody isMin,
    (∀ v ∈ metInVal analysis depth info trip inBody, admits v) →
    getVal analysis admits depth info trip inBody isMin =
      getVal analysis everyValue depth info trip inBody isMin
  refine : ∀ v isMin, (∀ w ∈ metInRefine analysis depth v, admits w) →
    refineOuter analysis admits depth v isMin = refineOuter analysis everyValue depth v isMin
  constant : ∀ expr request, (∀ v ∈ metInConstant analysis depth expr, admits v) →
    isConstant analysis admits depth expr request =
      isConstant analysis everyValue depth expr request

section

variable {analysis : InductionAnalysis} {admits : Value → Bool} {depth : ℕ}

theorem refineBoth_congr {refine refine' : Value → Bool → Value} {vMin vMax : Value}
    (hmin : ∀ isMin, refine vMin isMin = refine' vMin isMin)
    (hmax : ∀ isMin, refine vMax isMin = refine' vMax isMin) :
    refineBoth refine vMin vMax = refineBoth refine' vMin vMax := by
  simp only [refineBoth, hmin, hmax]

theorem Agrees.refineBoth (hagrees : Agrees analysis admits depth) {vMin vMax : Value}
    (hmin : ∀ v ∈ metInRefine analysis depth vMin, admits v)
    (hmax : ∀ v ∈ metInRefine analysis depth vMax, admits v) :
    refineBoth (refineOuter analysis admits depth) vMin vMax =
      Induction.refineBoth (refineOuter analysis everyValue depth) vMin vMax :=
  refineBoth_congr (fun isMin => hagrees.refine vMin isMin hmin)
    fun isMin => hagrees.refine vMax isMin hmax

/-- The loop of `IsConstant`. -/
theorem Agrees.askConstant (hagrees : Agrees analysis admits depth) (request : ConstantRequest)
    (times : ℕ) : ∀ vMin vMax,
      (∀ v ∈ metInRange (refineOuter analysis everyValue depth) (metInRefine analysis depth) times
        vMin vMax, admits v) →
      askConstant analysis.graph (refineOuter analysis admits depth) request times vMin vMax =
        Induction.askConstant analysis.graph (refineOuter analysis everyValue depth) request times
          vMin vMax := by
  induction times with
  | zero => exact fun _ _ _ => rfl
  | succ times ih =>
    intro vMin vMax hmet
    rw [metInRange, forall_mem_append, forall_mem_append] at hmet
    obtain ⟨⟨hmin, hmax⟩, hrest⟩ := hmet
    rw [Induction.askConstant, Induction.askConstant, hagrees.refineBoth hmin hmax]
    split
    · rfl
    · split
      next hboth =>
        rw [hboth] at hrest
        exact ih _ _ hrest
      next => rfl

namespace Agrees

variable (hagrees : Agrees analysis admits depth) {expr a b : Invariant} {trip : Option TripCount}
  {inBody isMin : Bool}

include hagrees

theorem getInvariant_succ
    (hmet : ∀ v ∈ metInInvariant analysis (depth + 1) expr trip inBody, admits v) :
    getInvariant analysis admits (depth + 1) expr trip inBody isMin =
      getInvariant analysis everyValue (depth + 1) expr trip inBody isMin := by
  cases expr with
  | fetch x type => rw [getInvariant, getInvariant]
  | neg b type =>
    rw [getInvariant, getInvariant, hagrees.invariant b trip inBody _ hmet]
  | op operation a b type =>
    cases operation with
    | mul =>
      obtain ⟨ha, hb⟩ := forall_mem_append.mp hmet
      simp only [getInvariant, hagrees.invariant b trip inBody _ hb,
        hagrees.mul a _ _ trip inBody _ ha]
    | add | sub | div =>
      obtain ⟨ha, hb⟩ := forall_mem_append.mp hmet
      simp only [getInvariant, hagrees.invariant a trip inBody _ ha,
        hagrees.invariant b trip inBody _ hb]
    | _ => simp only [getInvariant]

theorem getTrip_succ {kind : TripKind}
    (hmet : ∀ v ∈ metInTrip analysis (depth + 1) expr trip inBody, admits v) :
    getTrip analysis admits (depth + 1) kind expr trip inBody isMin =
      getTrip analysis everyValue (depth + 1) kind expr trip inBody isMin := by
  rw [getTrip, getTrip, hagrees.invariant expr trip inBody _ hmet]

theorem getMul_succ {v2Min v2Max : Value}
    (hmet : ∀ v ∈ metInMul analysis (depth + 1) expr trip inBody, admits v) :
    getMul analysis admits (depth + 1) expr v2Min v2Max trip inBody isMin =
      getMul analysis everyValue (depth + 1) expr v2Min v2Max trip inBody isMin := by
  rw [metInMul, forall_mem_append] at hmet
  obtain ⟨hexpr, hrefined⟩ := hmet
  rw [getMul, getMul]
  simp only [hagrees.invariant expr trip inBody _ hexpr]
  split_ifs with hconst
  · rw [if_pos hconst, forall_mem_append] at hrefined
    rw [hagrees.refineBoth hrefined.1 hrefined.2]
  · rfl

theorem getLinear_succ
    (hmet : ∀ v ∈ metInLinear analysis (depth + 1) a b trip inBody, admits v) :
    getLinear analysis admits (depth + 1) a b trip inBody isMin =
      getLinear analysis everyValue (depth + 1) a b trip inBody isMin := by
  simp only [metInLinear, forall_mem_append] at hmet
  obtain ⟨⟨⟨⟨⟨hconstant, hmul⟩, hb⟩, htrip⟩, hcancelMin⟩, hcancelMax⟩ := hmet
  rw [getLinear, getLinear, hagrees.constant a .exact hconstant]
  split
  next kind count hcancelled =>
    -- Both extremes of a cancelled trip count are among the values met.
    have hcount : ∀ v ∈ metInTrip analysis depth count trip inBody, admits v := by
      cases isMin with
      | true => simpa [hcancelled] using hcancelMin
      | false => simpa [hcancelled] using hcancelMax
    simp only [hagrees.trip kind count trip inBody _ hcount]
  next =>
    rw [hagrees.mul a _ _ trip inBody _ hmul, hagrees.invariant b trip inBody _ hb]
    cases trip with
    | none => rfl
    | some t => simp only [Option.elim_some, hagrees.trip t.kind t.count (some t) inBody _ htrip]

theorem getPeriodic_succ {cycle : Periodic}
    (hmet : ∀ v ∈ metInPeriodic analysis (depth + 1) cycle trip inBody, admits v) :
    getPeriodic analysis admits (depth + 1) cycle trip inBody isMin =
      getPeriodic analysis everyValue (depth + 1) cycle trip inBody isMin := by
  cases cycle with
  | last a b type =>
    obtain ⟨ha, hb⟩ := forall_mem_append.mp hmet
    simp only [getPeriodic, hagrees.invariant a trip inBody _ ha,
      hagrees.invariant b trip inBody _ hb]
  | cons a b type =>
    obtain ⟨ha, hb⟩ := forall_mem_append.mp hmet
    simp only [getPeriodic, hagrees.invariant a trip inBody _ ha,
      hagrees.periodic b trip inBody _ hb]

theorem getVal_succ {info : InductionInfo}
    (hmet : ∀ v ∈ metInVal analysis (depth + 1) info trip inBody, admits v) :
    getVal analysis admits (depth + 1) info trip inBody isMin =
      getVal analysis everyValue (depth + 1) info trip inBody isMin := by
  cases info with
  | invariant expr => simp only [getVal, hagrees.invariant expr trip inBody _ hmet]
  | linear a b type => simp only [getVal, hagrees.linear a b trip inBody _ hmet]
  | wrapAround a b type =>
    obtain ⟨ha, hb⟩ := forall_mem_append.mp hmet
    simp only [getVal, hagrees.invariant a trip inBody _ ha, hagrees.val b trip inBody _ hb]
  | periodic cycle => simp only [getVal, hagrees.periodic cycle trip inBody _ hmet]

theorem refineOuter_succ {v : Value}
    (hmet : ∀ w ∈ metInRefine analysis (depth + 1) v, admits w) :
    refineOuter analysis admits (depth + 1) v isMin =
      refineOuter analysis everyValue (depth + 1) v isMin := by
  rw [metInRefine, forall_mem_cons] at hmet
  obtain ⟨hadmits, hmet⟩ := hmet
  rw [refineOuter, refineOuter, if_pos hadmits, everyValue, if_pos rfl]
  split
  next => rfl
  next x hx =>
    rw [hx] at hmet
    dsimp only at hmet
    split
    next => rfl
    next loop hloop =>
      rw [hloop] at hmet
      dsimp only at hmet
      split
      next => rfl
      next info hinfo =>
        rw [hinfo] at hmet
        rw [hagrees.val info _ true isMin hmet]

theorem isConstant_succ {request : ConstantRequest}
    (hmet : ∀ v ∈ metInConstant analysis (depth + 1) expr, admits v) :
    isConstant analysis admits (depth + 1) expr request =
      isConstant analysis everyValue (depth + 1) expr request := by
  rw [isConstant, isConstant]
  rw [metInConstant] at hmet
  split
  next => rfl
  next hfetch =>
    simp only [hfetch, forall_mem_append] at hmet
    simp only [hagrees.invariant expr none true _ hmet.1]
    exact hagrees.askConstant request depth _ _ hmet.2

end Agrees

theorem agrees (analysis : InductionAnalysis) (admits : Value → Bool) (depth : ℕ) :
    Agrees analysis admits depth := by
  induction depth with
  | zero =>
    constructor <;> intros <;>
      simp only [getInvariant, getTrip, getMul, getLinear, getPeriodic, getVal, refineOuter,
        isConstant]
  | succ depth ih =>
    exact ⟨fun _ _ _ _ => ih.getInvariant_succ, fun _ _ _ _ _ => ih.getTrip_succ,
      fun _ _ _ _ _ _ => ih.getMul_succ, fun _ _ _ _ _ => ih.getLinear_succ,
      fun _ _ _ _ => ih.getPeriodic_succ, fun _ _ _ _ => ih.getVal_succ,
      fun _ _ => ih.refineOuter_succ, fun _ _ => ih.isConstant_succ⟩

end

end NougatArt.Induction
