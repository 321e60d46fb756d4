import NougatArt.Induction.RangeValue

/-!
# The range analysis computes bounds

At a moment of an execution every instruction has the value it took last, and
every loop around the current instruction is in one of its iterations. The
range analysis bounds the unbounded value of an induction at such a moment,
provided that the values it looks through and refines are not the result of a
wrap-around and that only bounds with a nonnegative coefficient are refined.
-/

namespace NougatArt.Induction

open List Option Value PrimitiveType InRange TripKind

/-- The last value of each instruction and the number of the current iteration
of each loop. -/
structure Moment where
  value : HInstruction → ℤ
  iteration : ℕ → ℕ

namespace FetchStep

def rest : FetchStep → Option HInstruction
  | constantPlus _ rest | plusConstant rest _ | same rest => some rest
  | constant _ | stop | leaf => none

/-- What a step of `GetFetch` says about the value of the instruction. -/
def Describes (value : HInstruction → ℤ) (instruction : HInstruction) : FetchStep → Prop
  | constant c => value instruction = c ∧ int.Fits c
  | constantPlus c rest => value instruction = c + value rest ∧ int.Fits c
  | plusConstant rest c => value instruction = value rest + c ∧ int.Fits c
  | same rest => value instruction = value rest
  | stop | leaf => True

end FetchStep

variable {c : ℤ}

namespace Moment

structure Consistent (moment : Moment) (graph : HGraph) : Prop where
  intConstant : ∀ c, moment.value (.intConstant c) = c
  longConstant : ∀ c, moment.value (.longConstant c) = c
  add : ∀ id x y, (graph.node id).kind = .add → (graph.node id).inputs = [x, y] →
    moment.value (.node id) = (graph.node id).type.convert (moment.value x + moment.value y)
  arrayLength : ∀ x, graph.isArrayLength x = true → 0 ≤ moment.value x
  newArray : ∀ id array length, (graph.node id).kind = .arrayLength →
    (graph.node id).inputs = [array] → graph.newArrayLength array = some length →
    moment.value (.node id) = moment.value length
  widening : ∀ id x, (graph.node id).kind = .typeConversion → (graph.node id).inputs = [x] →
    graph.typeOf x = .int → (graph.node id).type = .long →
    moment.value (.node id) = moment.value x
  div : ∀ x length divisor, graph.arrayLengthDivision x = some (length, divisor) →
    divisor ≠ 0 → moment.value x = (moment.value length).tdiv divisor

/-- If the instruction is an addition, its sum did not wrap around. -/
def AdditionExact (moment : Moment) (graph : HGraph) (instruction : HInstruction) : Prop :=
  ∀ id x y, instruction = .node id → (graph.node id).kind = .add → (graph.node id).inputs = [x, y] →
    (graph.node id).type.Fits (moment.value x + moment.value y)

variable {moment : Moment} {g : HGraph}

variable {insn : HInstruction}

section

variable (hcons : moment.Consistent g)

include hcons

theorem Consistent.isIntAndGet (hc : isIntAndGet insn = some c) : moment.value insn = c := by
  cases insn with
  | intConstant value => exact (hcons.intConstant value).trans (some.inj hc)
  | longConstant value => exact (hcons.longConstant value).trans (some.inj hc)
  | node id => simp [Induction.isIntAndGet] at hc

theorem Consistent.getIntConstant (hc : getIntConstant insn = some c) :
    moment.value insn = c ∧ int.Fits c := by
  unfold Induction.getIntConstant at hc
  rw [filter_eq_some_iff] at hc
  exact ⟨hcons.isIntAndGet hc.1, fits_of_canLongValueFitIntoInt hc.2⟩

/-- A step of `GetFetch` keeps the value if the addition it looks through is exact. -/
theorem Consistent.fetchStep (hexact : moment.AdditionExact g insn) :
    (g.fetchStep insn).Describes moment.value insn := by
  unfold HGraph.fetchStep
  split
  next value hvalue => exact hcons.getIntConstant hvalue
  next hnone =>
    split
    next id =>
      split
      next x y hkind hinputs =>
        have hsum : moment.value (.node id) = moment.value x + moment.value y := by
          rw [hcons.add id x y hkind hinputs, convert_of_fits (hexact id x y rfl hkind hinputs)]
        split
        next value _ hx =>
          obtain ⟨hvalue, hfits⟩ := hcons.getIntConstant hx
          exact ⟨hsum.trans (by rw [hvalue]), hfits⟩
        next value _ hy =>
          obtain ⟨hvalue, hfits⟩ := hcons.getIntConstant hy
          exact ⟨hsum.trans (by rw [hvalue]), hfits⟩
        next => trivial
      next array hkind hinputs =>
        split
        next length hlen => exact hcons.newArray id array length hkind hinputs hlen
        next => trivial
      next input hkind hinputs =>
        split_ifs with htypes
        · exact hcons.widening id _ hkind hinputs htypes.1 htypes.2
        · trivial
      next => trivial
    next => trivial

end

end Moment

/-- Only readable instructions are fetched and no divisor is zero. -/
def Invariant.Legible (value : HInstruction → ℤ) (readable : HInstruction → Prop) : Invariant → Prop
  | fetch instruction _ => readable instruction
  | op operation a b _ =>
    a.Legible value readable ∧ b.Legible value readable ∧ (operation = .div → b.eval value ≠ 0)
  | neg b _ => b.Legible value readable

def InductionInfo.Legible (value : HInstruction → ℤ) (readable : HInstruction → Prop) :
    InductionInfo → Prop
  | invariant expression => expression.Legible value readable
  | linear a b _ => a.Legible value readable ∧ b.Legible value readable
  | wrapAround a b _ => a.Legible value readable ∧ b.Legible value readable
  | periodic cycle => ∀ expression ∈ cycle.toList, expression.Legible value readable

/-- What the trip count of a loop says about iteration `i`: it lies below the
trip count in the body, and the loop is left when it reaches the trip count. -/
structure WithinTrip (value : HInstruction → ℤ) (readable : HInstruction → Prop)
    (trip : Option TripCount) (inBody : Bool) (i : ℕ) : Prop where
  legible : ∀ t ∈ trip, t.count.Legible value readable
  taken : inBody = true → ∀ t ∈ trip, 1 ≤ t.count.eval value
  body : inBody = true → ∀ t ∈ trip, t.kind.isUnsafe = false → i < t.count.eval value
  header : inBody = false → ∀ t ∈ trip, t.kind = .inLoop → i ≤ t.count.eval value

theorem WithinTrip.none (value : HInstruction → ℤ) (readable : HInstruction → Prop)
    (inBody : Bool) (i : ℕ) : WithinTrip value readable none inBody i := by
  constructor <;> simp

def ConstantRequest.Holds : ConstantRequest → ℤ → ℤ → Prop
  | exact, c, z => z = c
  | atMost, c, z => z ≤ c
  | atLeast, c, z => c ≤ z

/-- The conditions under which refinement keeps bounds: the instructions that
are read, and those reached from them, were not computed with a wrap-around, and
a refined instruction has the unbounded value of its induction. -/
structure RefinesSoundly (analysis : InductionAnalysis) (admits : Value → Bool)
    (moment : Moment) (readable : HInstruction → Prop) : Prop where
  consistent : moment.Consistent analysis.graph
  exact : ∀ x, readable x → moment.AdditionExact analysis.graph x
  closed : ∀ x y, readable x → (analysis.graph.fetchStep x).rest = some y → readable y
  unbounded : ∀ v x loop info, admits v = true → v.instruction = some x → readable x →
    analysis.graph.loopInformation x = some loop → analysis.lookupInfo loop x = some info →
    0 ≤ v.aConstant ∧ moment.value x = info.unbounded moment.value (moment.iteration loop) ∧
      info.Legible moment.value readable ∧
      WithinTrip moment.value readable (analysis.tripCount loop) true (moment.iteration loop) ∧
      (info.needsTripCount = true → isUnsafeTripCount (analysis.tripCount loop) = false)

section

variable {analysis : InductionAnalysis} {admits : Value → Bool} {moment : Moment}
  {readable : HInstruction → Prop}

/-- Following a fetch through additions of constants. -/
theorem RefinesSoundly.getFetch (hrefines : RefinesSoundly analysis admits moment readable)
    {trip : Option TripCount} {inBody : Bool} {i : ℕ}
    (hwithin : WithinTrip moment.value readable trip inBody i) (isMin : Bool) (depth : ℕ) :
    ∀ insn, readable insn →
      (getFetch analysis.graph trip inBody isMin depth insn).MayBound moment.value
        readable isMin (moment.value insn) := by
  induction depth with
  | zero => exact fun _ _ => mayBound_unknown
  | succ depth ih =>
    intro insn hread
    have hdesc := hrefines.consistent.fetchStep (hrefines.exact _ hread)
    have hself : (known (some insn) 1 0).MayBound moment.value readable isMin
        (moment.value insn) := by
      intro _
      have heval : (known (some insn) 1 0).eval moment.value = moment.value insn := by simp
      refine ⟨(by decide : int.Fits 0), fun x hx => ?_, fun _ => heval.le, fun _ => heval.ge⟩
      exact some.inj (instruction_known hx) ▸ hread
    rw [Induction.getFetch]
    have hclosed := hrefines.closed insn
    revert hdesc hclosed
    cases analysis.graph.fetchStep insn with
    | constant c =>
      intro hdesc _
      exact mayBound_constant hdesc.2 (fun _ => hdesc.1.ge) (fun _ => hdesc.1.le)
    | constantPlus c rest =>
      intro hdesc hclosed
      rw [hdesc.1]
      exact (mayBound_self hdesc.2).addValue (ih rest (hclosed _ hread rfl))
    | plusConstant rest c =>
      intro hdesc hclosed
      rw [hdesc.1]
      exact (ih rest (hclosed _ hread rfl)).addValue (mayBound_self hdesc.2)
    | same rest =>
      intro hdesc hclosed
      rw [show moment.value insn = moment.value rest from hdesc]
      exact ih rest (hclosed _ hread rfl)
    | stop => exact fun _ _ => hself
    | leaf =>
      intro _ _
      split_ifs with hmin
      · -- The trip count itself, which is at least one in the body.
        obtain ⟨hisMin, hbody, htrip⟩ := hmin
        obtain ⟨t, ht, hfetch⟩ := bind_eq_some_iff.mp htrip
        have hone := hwithin.taken hbody t ht
        have hcount : t.count.eval moment.value = moment.value insn := by
          unfold TripCount.fetch? at hfetch
          split at hfetch
          next x _ hcount =>
            rw [hcount, Invariant.eval, some.inj hfetch]
          next => simp at hfetch
        exact mayBound_constant (by decide) (fun _ => hcount ▸ hone)
          (fun hmax => by simp [hisMin] at hmax)
      · exact hself

variable {z : ℤ} {vMin vMax : Value} {value : HInstruction → ℤ} {refine : Value → Bool → Value}

theorem InRange.refineBoth (hrefine : ∀ v isMin, v.MayBound value readable isMin z →
      (refine v isMin).MayBound value readable isMin z) {vMin' vMax' : Value}
    (hrange : InRange value readable vMin vMax z)
    (hrefined : Induction.refineBoth refine vMin vMax = some (vMin', vMax')) :
    InRange value readable vMin' vMax' z := by
  unfold Induction.refineBoth at hrefined
  dsimp only at hrefined
  split_ifs at hrefined
  cases hrefined
  exact ⟨hrefine _ _ hrange.min, hrefine _ _ hrange.max⟩

variable {request : ConstantRequest} {g : HGraph}

theorem InRange.answer (hrange : InRange value readable vMin vMax z)
    (hanswer : request.answer vMin vMax = some c) : request.Holds c z := by
  unfold ConstantRequest.answer at hanswer
  by_cases hconst : vMin.isConstantValue = true ∧ vMax.isConstantValue = true ∧
      vMin.bConstant ≤ vMax.bConstant
  case neg => rw [if_neg hconst] at hanswer; cases hanswer
  rw [if_pos hconst] at hanswer
  have hle := hrange.le_of_isConstantValue hconst.1
  have hge := hrange.ge_of_isConstantValue hconst.2.1
  cases request with
  | exact =>
    split_ifs at hanswer with heq
    have hc := some.inj hanswer
    exact (by omega : z = c)
  | atMost => exact some.inj hanswer ▸ hge
  | atLeast => exact some.inj hanswer ▸ hle

/-- An array length is not negative. -/
theorem InRange.arrayLengthAnswer (hcons : moment.Consistent g)
    (hrange : InRange moment.value readable vMin vMax z)
    (hanswer : request.arrayLengthAnswer g vMin = some c) : request.Holds c z := by
  unfold ConstantRequest.arrayLengthAnswer at hanswer
  split_ifs at hanswer with hcond
  obtain ⟨rfl, ha, -, hlen⟩ := hcond
  obtain ⟨x, hx, hlen⟩ : ∃ x, vMin.instruction = some x ∧ g.isArrayLength x = true := by
    cases hinstruction : vMin.instruction with
    | none => simp [hinstruction] at hlen
    | some x => exact ⟨x, rfl, by simpa [hinstruction] using hlen⟩
  have hknown : vMin.isKnown = true := by
    by_contra hunknown
    simp [vMin.instruction_eq_none (by simpa using hunknown)] at hx
  have hbound := (hrange.min hknown).lower rfl
  have hnonneg := hcons.arrayLength x hlen
  have heval : vMin.eval moment.value = moment.value x + vMin.bConstant := by
    rw [eval, ha, hx, elim_some, one_mul]
  have hc := some.inj hanswer
  exact (by omega : c ≤ z)

theorem InRange.askConstant (hcons : moment.Consistent g)
    (hrefine : ∀ v isMin, v.MayBound moment.value readable isMin z →
      (refine v isMin).MayBound moment.value readable isMin z) (depth : ℕ) :
    ∀ vMin vMax, InRange moment.value readable vMin vMax z →
      Induction.askConstant g refine request depth vMin vMax = some c → request.Holds c z := by
  induction depth with
  | zero => exact fun _ _ _ hask => by simp [Induction.askConstant] at hask
  | succ depth ih =>
    intro vMin vMax hrange hask
    rw [Induction.askConstant] at hask
    split at hask
    next value hanswer => exact hrange.answer (hanswer.trans hask)
    next =>
      split at hask
      next vMin' vMax' hrefined => exact ih _ _ (hrange.refineBoth hrefine hrefined) hask
      next => exact hrange.arrayLengthAnswer hcons hask

variable (analysis admits moment readable) in
/-- The functions of the range analysis are right to a depth of recursion. -/
structure RangeSound (depth : ℕ) : Prop where
  invariant : ∀ expression trip inBody i isMin, expression.Legible moment.value readable →
    WithinTrip moment.value readable trip inBody i →
    (getInvariant analysis admits depth expression trip inBody isMin).MayBound moment.value
      readable isMin (expression.eval moment.value)
  trip : ∀ kind count trip inBody i isMin z, count.Legible moment.value readable →
    WithinTrip moment.value readable trip inBody i →
    (isMin = true → 0 ≤ z) →
    (kind.isInLoop = true → inBody = false → isMin = false → z ≤ count.eval moment.value) →
    (inBody = true → isMin = false → z ≤ count.eval moment.value - 1) →
    (getTrip analysis admits depth kind count trip inBody isMin).MayBound moment.value
      readable isMin z
  mul : ∀ expression v2Min v2Max trip inBody i isMin z2, expression.Legible moment.value readable →
    WithinTrip moment.value readable trip inBody i →
    InRange moment.value readable v2Min v2Max z2 →
    (getMul analysis admits depth expression v2Min v2Max trip inBody isMin).MayBound
      moment.value readable isMin (expression.eval moment.value * z2)
  linear : ∀ a b trip inBody i isMin (j : ℕ),
    a.Legible moment.value readable → b.Legible moment.value readable →
    WithinTrip moment.value readable trip inBody i → isUnsafeTripCount trip = false → j ≤ i →
    (getLinear analysis admits depth a b trip inBody isMin).MayBound moment.value readable
      isMin (a.eval moment.value * j + b.eval moment.value)
  periodic : ∀ cycle trip inBody i isMin,
    (∀ expression ∈ cycle.toList, expression.Legible moment.value readable) →
    WithinTrip moment.value readable trip inBody i →
    ∀ expression ∈ cycle.toList,
      (getPeriodic analysis admits depth cycle trip inBody isMin).MayBound moment.value
        readable isMin (expression.eval moment.value)
  val : ∀ info trip inBody i isMin (j : ℕ), info.Legible moment.value readable →
    WithinTrip moment.value readable trip inBody i →
    (info.needsTripCount = true → isUnsafeTripCount trip = false) → j ≤ i →
    (getVal analysis admits depth info trip inBody isMin).MayBound moment.value readable
      isMin (info.unbounded moment.value j)
  refine : ∀ v isMin z, v.MayBound moment.value readable isMin z →
    (refineOuter analysis admits depth v isMin).MayBound moment.value readable isMin z
  constant : ∀ expression request c, expression.Legible moment.value readable →
    isConstant analysis admits depth expression request = some c →
    request.Holds c (expression.eval moment.value)

theorem rangeSound_zero : RangeSound analysis admits moment readable 0 where
  invariant _ _ _ _ _ _ _ := by simpa [getInvariant] using mayBound_unknown
  trip _ _ _ _ _ _ _ _ _ _ _ _ := by simpa [getTrip] using mayBound_unknown
  mul _ _ _ _ _ _ _ _ _ _ _ := by simpa [getMul] using mayBound_unknown
  linear _ _ _ _ _ _ _ _ _ _ _ _ := by simpa [getLinear] using mayBound_unknown
  periodic _ _ _ _ _ _ _ _ _ := by simpa [getPeriodic] using mayBound_unknown
  val _ _ _ _ _ _ _ _ _ _ := by simpa [getVal] using mayBound_unknown
  refine _ _ _ _ := by simpa [refineOuter] using mayBound_unknown
  constant _ _ _ _ hconst := by simp [isConstant] at hconst

namespace RangeSound

variable {depth : ℕ} (hsound : RangeSound analysis admits moment readable depth)
  {expr : Invariant} {trip : Option TripCount} {inBody isMin : Bool} {i j : ℕ}

theorem correctForType_mayBound {v : Value} (type : PrimitiveType)
    (hv : v.MayBound moment.value readable isMin z) :
    (correctForType v type).MayBound moment.value readable isMin z := by
  unfold correctForType
  split
  case h_4 => exact hv
  all_goals
    split_ifs
    · exact hv
    · exact mayBound_unknown

variable (hrefines : RefinesSoundly analysis admits moment readable)

section

variable {kind : TripKind} {count a b : Invariant}
variable (hwithin : WithinTrip moment.value readable trip inBody i)

include hsound hwithin

theorem inRange (hlegible : expr.Legible moment.value readable) :
    InRange moment.value readable (getInvariant analysis admits depth expr trip inBody true)
      (getInvariant analysis admits depth expr trip inBody false) (expr.eval moment.value) :=
  ⟨hsound.invariant _ _ _ i _ hlegible hwithin, hsound.invariant _ _ _ i _ hlegible hwithin⟩

theorem getTrip_succ (hlegible : count.Legible moment.value readable) (hmin : isMin → 0 ≤ z)
    (hloop : kind.isInLoop → inBody = false → isMin = false → z ≤ count.eval moment.value)
    (hbody : inBody → isMin = false → z ≤ count.eval moment.value - 1) :
    (getTrip analysis admits (depth + 1) kind count trip inBody isMin).MayBound moment.value
      readable isMin z := by
  have hcount := hsound.invariant _ _ _ i isMin hlegible hwithin
  rw [getTrip, tripVal]
  split_ifs with hextra hisMin hinBody
  · obtain ⟨hkind, hinBody, hisMin⟩ := hextra
    have hle := hloop hkind (by simpa using hinBody) (by simpa using hisMin)
    intro hknown
    have hbound := hcount hknown
    exact ⟨hbound.fits, hbound.readable, fun h => by simp [h] at hisMin,
      fun h => hle.trans (hbound.upper h)⟩
  · exact mayBound_constant (by decide) hmin (fun h => by simp [h] at hisMin)
  · have hle := hbody hinBody (by simpa using hisMin)
    intro hknown
    have hone : (Value.constant 1).MayBound moment.value readable (!isMin) 1 :=
      Value.mayBound_self (by decide)
    have hbound := hcount.subValue hone hknown
    exact ⟨hbound.fits, hbound.readable, fun h => by simp [h] at hisMin,
      fun h => hle.trans (hbound.upper h)⟩
  · exact mayBound_unknown

theorem getMul_succ {v2Min v2Max : Value} (isMin : Bool) {z2 : ℤ}
    (hlegible : expr.Legible moment.value readable)
    (hrange : InRange moment.value readable v2Min v2Max z2) :
    (getMul analysis admits (depth + 1) expr v2Min v2Max trip inBody isMin).MayBound
      moment.value readable isMin (expr.eval moment.value * z2) := by
  have hfirst := hsound.inRange hwithin hlegible
  rw [getMul]
  split_ifs
  · cases hrefined : refineBoth (refineOuter analysis admits depth)
      (getInvariant analysis admits depth expr trip inBody true)
      (getInvariant analysis admits depth expr trip inBody false) with
    | none => exact mulRange_mayBound hfirst hrange
    | some refined =>
      exact mulRange_mayBound
        (hfirst.refineBoth (fun v isMin hv => hsound.refine v _ _ hv) hrefined) hrange
  · exact mulRange_mayBound hfirst hrange

/-- The iteration number lies in the range of the trip count. -/
theorem trip_inRange {t : TripCount} (ht : t ∈ trip)
    (hsafe : isUnsafeTripCount trip = false) (hj : j ≤ i) : InRange moment.value readable
      (getTrip analysis admits depth t.kind t.count trip inBody true)
      (getTrip analysis admits depth t.kind t.count trip inBody false) j := by
  have hkind : t.kind.isUnsafe = false := by
    rw [mem_def] at ht
    simpa [isUnsafeTripCount, ht] using hsafe
  have hlegible := hwithin.legible t ht
  constructor
  · exact hsound.trip _ _ _ _ i _ _ hlegible hwithin (fun _ => by omega)
      (fun _ _ h => by simp at h) (fun _ h => by simp at h)
  · refine hsound.trip _ _ _ _ i _ _ hlegible hwithin (fun h => by simp at h) ?_ ?_
    · intro hloop hheader _
      have hinLoop : t.kind = .inLoop := by
        cases hk : t.kind <;> simp [hk, isInLoop, isUnsafe] at hloop hkind ⊢
      have := hwithin.header hheader t ht hinLoop
      omega
    · intro hbody _
      have := hwithin.body hbody t ht hkind
      omega

/-- The trip count of a loop that counts from an offset, without the offset. -/
theorem getLinear_cancelled (ha : a.Legible moment.value readable)
    (hsafe : isUnsafeTripCount trip = false) (hj : j ≤ i)
    (hcancelled : cancelledTrip trip (isConstant analysis admits depth a .exact) b isMin =
      some (kind, count)) : (if isMin then
        subValue (.constant 0) (getTrip analysis admits depth kind count trip inBody !isMin)
      else getTrip analysis admits depth kind count trip inBody isMin).MayBound moment.value
      readable isMin (a.eval moment.value * j + b.eval moment.value) := by
  unfold cancelledTrip at hcancelled
  split at hcancelled
  case h_2 => cases hcancelled
  next kind' positive negative difference takenTest type =>
    have hcount : ∀ (h : inBody = true ∨ kind'.isInLoop = true),
        (j : ℤ) ≤ positive.eval moment.value - negative.eval moment.value -
          if inBody then 1 else 0 := by
      intro h
      have hkind : kind'.isUnsafe = false := by simpa [isUnsafeTripCount] using hsafe
      cases hbody : inBody with
      | true =>
        have hlt : (i : ℤ) < positive.eval moment.value - negative.eval moment.value :=
          hwithin.body hbody _ rfl hkind
        omega
      | false =>
        have hinLoop : kind' = .inLoop := by
          cases kind' <;> simp [hbody, isInLoop, isUnsafe] at h hkind ⊢
        have hle : (i : ℤ) ≤ positive.eval moment.value - negative.eval moment.value :=
          hwithin.header hbody _ rfl hinLoop
        rw [if_neg (by simp)]
        omega
    obtain ⟨hpositive, hnegative, -⟩ := hwithin.legible _ rfl
    split_ifs at hcancelled with hmax hoff hmin hoff
    · cases hcancelled
      have hstride := hsound.constant a .exact 1 ha hmax.2
      rw [if_neg (by simp [hmax.1])]
      refine hsound.trip _ _ _ _ i _ _ hpositive hwithin (fun h => by simp [hmax.1] at h) ?_ ?_
      · intro hkind hheader _
        have hle := hcount (.inr hkind)
        rw [hstride, ← hoff]
        omega
      · intro hbody _
        have hle := hcount (.inl hbody)
        rw [if_pos hbody] at hle
        rw [hstride, ← hoff]
        omega
    · obtain ⟨rfl, rfl⟩ := Prod.mk.inj (some.inj hcancelled)
      have hstride := hsound.constant a .exact (-1) ha hmin.2
      rw [if_pos hmin.1]
      have htrip : (getTrip analysis admits depth kind' (.neg negative type)
          (some ⟨kind', .op .sub positive negative difference, takenTest, type⟩) inBody
          (!isMin)).MayBound moment.value readable (!isMin)
          (-(a.eval moment.value * j + b.eval moment.value)) := by
        refine hsound.trip _ _ _ _ i _ _ hnegative hwithin (fun h => by simp [hmin.1] at h) ?_ ?_
        · intro hkind hheader _
          have hle := hcount (.inr hkind)
          rw [hstride, ← hoff, Invariant.eval]
          omega
        · intro hbody _
          have hle := hcount (.inl hbody)
          rw [if_pos hbody] at hle
          rw [hstride, ← hoff, Invariant.eval]
          omega
      have hzero : (Value.constant 0).MayBound moment.value readable isMin 0 :=
        Value.mayBound_self (by decide)
      simpa using hzero.subValue htrip

theorem getLinear_succ (isMin : Bool) (ha : a.Legible moment.value readable)
    (hb : b.Legible moment.value readable) (hsafe : isUnsafeTripCount trip = false) (hj : j ≤ i) :
    (getLinear analysis admits (depth + 1) a b trip inBody isMin).MayBound moment.value
      readable isMin (a.eval moment.value * j + b.eval moment.value) := by
  rw [getLinear]
  split
  next kind count hcancelled =>
    exact hsound.getLinear_cancelled hwithin ha hsafe hj hcancelled
  next =>
    have htrip : InRange moment.value readable
        (trip.elim .unknown fun t => getTrip analysis admits depth t.kind t.count trip inBody true)
        (trip.elim .unknown fun t =>
          getTrip analysis admits depth t.kind t.count trip inBody false) j := by
      cases trip with
      | none => exact ⟨mayBound_unknown, mayBound_unknown⟩
      | some t => exact hsound.trip_inRange hwithin rfl hsafe hj
    exact (hsound.mul a _ _ _ _ i _ j ha hwithin htrip).addValue
      (hsound.invariant b _ _ i _ hb hwithin)

theorem getPeriodic_succ {cycle : Periodic} (isMin : Bool)
    (hlegible : ∀ expr ∈ cycle.toList, expr.Legible moment.value readable)
    (hmem : expr ∈ cycle.toList) :
    (getPeriodic analysis admits (depth + 1) cycle trip inBody isMin).MayBound moment.value
      readable isMin (expr.eval moment.value) := by
  cases cycle with
  | last a b type =>
    have hfirst := hsound.invariant a _ _ i isMin (hlegible a (by simp [Periodic.toList])) hwithin
    have hsnd := hsound.invariant b _ _ i isMin (hlegible b (by simp [Periodic.toList])) hwithin
    obtain ⟨hleft, hright⟩ := mergeVal_mayBound hfirst hsnd
    simp only [Periodic.toList, mem_cons, not_mem_nil, or_false] at hmem
    obtain rfl | rfl := hmem
    · exact hleft
    · exact hright
  | cons a b type =>
    have hfirst := hsound.invariant a _ _ i isMin (hlegible a (by simp [Periodic.toList])) hwithin
    have hrest : ∀ expr ∈ b.toList, expr.Legible moment.value readable :=
      fun expr hmem => hlegible expr (mem_cons_of_mem a hmem)
    obtain rfl | hmem := mem_cons.mp hmem
    · obtain ⟨e, he⟩ := exists_mem_of_ne_nil _ b.toList_ne_nil
      exact (mergeVal_mayBound hfirst (hsound.periodic b _ _ i _ hrest hwithin e he)).1
    · exact (mergeVal_mayBound hfirst (hsound.periodic b _ _ i _ hrest hwithin _ hmem)).2

theorem getVal_succ {info : InductionInfo} (isMin : Bool)
    (hlegible : info.Legible moment.value readable)
    (hsafe : info.needsTripCount → isUnsafeTripCount trip = false) (hj : j ≤ i) :
    (getVal analysis admits (depth + 1) info trip inBody isMin).MayBound moment.value
      readable isMin (info.unbounded moment.value j) := by
  cases info with
  | invariant expr =>
    exact hsound.invariant _ _ _ i _ hlegible hwithin
  | linear a b type =>
    exact correctForType_mayBound type
      (hsound.linear a b _ _ i _ j hlegible.1 hlegible.2 hwithin (hsafe rfl) hj)
  | wrapAround a b type =>
    have hfirst := hsound.invariant a _ _ i isMin hlegible.1 hwithin
    cases j with
    | zero =>
      exact (mergeVal_mayBound hfirst (hsound.val b _ _ i _ 0 hlegible.2 hwithin hsafe hj)).1
    | succ j =>
      exact (mergeVal_mayBound hfirst
        (hsound.val b _ _ i _ j hlegible.2 hwithin hsafe (by omega))).2
  | periodic cycle =>
    exact hsound.periodic _ _ _ i _ hlegible hwithin _ (cycle.element_mem j)

include hrefines

theorem getInvariant_succ (isMin : Bool) (hlegible : expr.Legible moment.value readable) :
    (getInvariant analysis admits (depth + 1) expr trip inBody isMin).MayBound
      moment.value readable isMin (expr.eval moment.value) := by
  cases expr with
  | fetch insn type =>
    exact hrefines.getFetch hwithin _ _ _ hlegible
  | neg b type =>
    rw [getInvariant, Invariant.eval, ← zero_sub]
    exact (mayBound_self (by decide)).subValue (hsound.invariant b _ _ i _ hlegible hwithin)
  | op operation a b type =>
    obtain ⟨ha, hb, hdiv⟩ := hlegible
    cases operation with
    | add =>
      exact (hsound.invariant a _ _ i _ ha hwithin).addValue (hsound.invariant b _ _ i _ hb hwithin)
    | sub =>
      exact (hsound.invariant a _ _ i _ ha hwithin).subValue (hsound.invariant b _ _ i _ hb hwithin)
    | mul =>
      exact hsound.mul a _ _ _ _ i _ _ ha hwithin (hsound.inRange hwithin hb)
    | div =>
      exact divRange_mayBound (hsound.inRange hwithin ha) (hsound.inRange hwithin hb) (hdiv rfl)
    | lt | le | gt | ge =>
      rw [getInvariant]
      all_goals first | exact mayBound_unknown | simp

end

include hrefines hsound

/-- A bound with a nonnegative coefficient is refined by a bound of its instruction. -/
theorem refineOuter_succ {v : Value} (hv : v.MayBound moment.value readable isMin z) :
    (refineOuter analysis admits (depth + 1) v isMin).MayBound moment.value readable isMin z := by
  rw [refineOuter]
  split_ifs with hadmits
  case neg => exact hv
  split
  next => exact hv
  next x hx =>
    split
    next => exact hv
    next loop hloop =>
      split
      next => exact hv
      next info hinfo =>
        have hknown : v.isKnown = true := by
          by_contra hunknown
          simp [v.instruction_eq_none (by simpa using hunknown)] at hx
        have hbound := hv hknown
        obtain ⟨hnonneg, hunbounded, hlegible, hwithin, hsafe⟩ := hrefines.unbounded v x _ _
          hadmits hx (hbound.readable x hx) hloop hinfo
        have hinner := hsound.val _ _ _ _ isMin _ hlegible hwithin hsafe le_rfl
        rw [← hunbounded] at hinner
        have heval : v.eval moment.value = v.aConstant * moment.value x + v.bConstant := by
          rw [eval, hx, elim_some]
        intro hres
        have hsum := @addValue_computes moment.value _ _ hres
        have hproduct := @mulValue_computes moment.value _ _ hsum.left
        have hinner := hinner hproduct.right
        refine (hsum.bounds ?_ ?_ ?_ ?_)
        · intro _ y hy
          exact (hproduct.instruction y hy).elim
            (fun h => absurd (instruction_known h) (by simp)) (hinner.readable y)
        · exact fun _ y hy => absurd (instruction_known hy) (by simp)
        · intro hmin
          have hle := Int.mul_le_mul_of_nonneg_left (hinner.lower hmin) hnonneg
          have := hbound.lower hmin
          rw [hproduct.eval, eval_constant, eval_constant]
          omega
        · intro hmax
          have hle := Int.mul_le_mul_of_nonneg_left (hinner.upper hmax) hnonneg
          have := hbound.upper hmax
          rw [hproduct.eval, eval_constant, eval_constant]
          omega

theorem isConstant_succ {request : ConstantRequest} (hlegible : expr.Legible moment.value readable)
    (hconst : isConstant analysis admits (depth + 1) expr request = some c) :
    request.Holds c (expr.eval moment.value) := by
  have hask : askConstant analysis.graph (refineOuter analysis admits depth) request depth
      (getInvariant analysis admits depth expr none true true)
      (getInvariant analysis admits depth expr none true false) = some c →
      request.Holds c (expr.eval moment.value) := by
    exact InRange.askConstant hrefines.consistent
      (fun v isMin hv => hsound.refine v _ _ hv) depth _ _
      (hsound.inRange (WithinTrip.none moment.value readable true 0) hlegible)
  rw [isConstant] at hconst
  split at hconst
  next value hdirect =>
    cases expr with
    | op | neg => cases hdirect
    | fetch x type =>
      -- A direct constant fetch immediately satisfies any of the three requests.
      have hvalue := hrefines.consistent.isIntAndGet hdirect
      have hc := some.inj hconst
      cases request with
      | exact => exact hvalue.trans hc
      | atMost => exact (hvalue.trans hc).le
      | atLeast => exact (hvalue.trans hc).ge
  next => exact hask hconst

end RangeSound

/-- The functions of the range analysis compute bounds, to every depth of recursion. -/
theorem RefinesSoundly.rangeSound (hrefines : RefinesSoundly analysis admits moment readable)
    (depth : ℕ) : RangeSound analysis admits moment readable depth := by
  induction depth with
  | zero => exact rangeSound_zero
  | succ depth ih =>
    constructor
    · exact fun _ _ _ _ isMin hlegible hwithin => ih.getInvariant_succ hrefines hwithin _ hlegible
    · exact fun _ _ _ _ _ _ _ hlegible hwithin => ih.getTrip_succ hwithin hlegible
    · exact fun _ _ _ _ _ _ isMin _ hlegible hwithin => ih.getMul_succ hwithin _ hlegible
    · exact fun _ _ _ _ _ isMin _ ha hb hwithin => ih.getLinear_succ hwithin _ ha hb
    · exact fun _ _ _ _ isMin hlegible hwithin _ => ih.getPeriodic_succ hwithin _ hlegible
    · exact fun _ _ _ _ isMin _ hlegible hwithin => ih.getVal_succ hwithin _ hlegible
    · exact fun _ _ _ => ih.refineOuter_succ hrefines
    · exact fun _ _ _ => ih.isConstant_succ hrefines

end

end NougatArt.Induction
