import NougatArt.Induction.MetValues
import NougatArt.Induction.RangeSound

/-!
# Soundness of induction ranges

`GetInductionRange` is asked for the range of an instruction at a context in a
loop, and the client refines the answer with the loops around it. Constants
that are found this way bound the value of the instruction, provided that no
value which `RefineOuter` meets has a negative coefficient or an instruction of a
loop that does not enclose the context or may be infinite, and that the values
which are looked through or refined did not wrap around.

A refinement with a negative coefficient exchanges the extremes: the last
section has a loop that subtracts the counter of the loop around it.
-/

namespace NougatArt.Induction

open List Option Bool HGraph Value PrimitiveType

/-- The extremes after `RefineOuter` was called a number of times. -/
def refineTimes (refine : Value → Bool → Value) : ℕ → Value × Value → Value × Value
  | 0, extremes => extremes
  | times + 1, extremes =>
    match refineBoth refine extremes.1 extremes.2 with
    | some refined => refineTimes refine times refined
    | none => extremes

variable (analysis : InductionAnalysis)

/-- The answer of `GetInductionRange`, refined by the client. -/
def refinedRange (admits : Value → Bool) (depth times : ℕ) (context : ℕ)
    (instruction : HInstruction) : Option InductionRange :=
  (getInductionRange analysis admits depth context instruction).map fun range =>
    let extremes := refineTimes (refineOuter analysis admits depth) times
      (range.minVal, range.maxVal)
    { range with minVal := extremes.1, maxVal := extremes.2 }

/-- The values that `RefineOuter` meets when the client asks for the range of an
instruction in a loop and refines it. -/
def metValues (loop : ℕ) (inBody : Bool) (depth times : ℕ) (instruction : HInstruction) :
    List Value :=
  (analysis.lookupInfo loop instruction).elim [] fun info =>
    let trip := analysis.tripCount loop
    metInVal analysis depth info trip inBody ++
      metInRange (refineOuter analysis everyValue depth) (metInRefine analysis depth) times
        (getVal analysis everyValue depth info trip inBody true)
        (simplifyMax analysis.graph (getVal analysis everyValue depth info trip inBody false))

def HGraph.around (graph : HGraph) (loop inner : ℕ) : Prop :=
  loop = inner ∨ graph.encloses loop inner = true

/-- The instructions that the range analysis reads for a context in a loop. -/
inductive Reads (analysis : InductionAnalysis) (inner : ℕ) : HInstruction → Prop
  | info {loop : ℕ} {x instruction : HInstruction} {info : InductionInfo}
      (haround : analysis.graph.around loop inner)
      (hinfo : analysis.lookupInfo loop x = some info) (hmem : instruction ∈ info.fetches) :
      Reads analysis inner instruction
  | trip {loop : ℕ} {instruction : HInstruction} {trip : TripCount}
      (haround : analysis.graph.around loop inner)
      (htrip : analysis.tripCount loop = some trip) (hmem : instruction ∈ trip.count.fetches) :
      Reads analysis inner instruction
  | rest {x instruction : HInstruction} (hread : Reads analysis inner x)
      (hrest : (analysis.graph.fetchStep x).rest = some instruction) :
      Reads analysis inner instruction
  | division {x instruction : HInstruction} {divisor : ℤ} (hread : Reads analysis inner x)
      (hdivision : analysis.graph.arrayLengthDivision x = some (instruction, divisor)) :
      Reads analysis inner instruction

/-- The induction and trip-count information is true at a moment in a loop. -/
structure Informed (moment : Moment) (inner : ℕ) (inBody : Bool) : Prop where
  consistent : moment.Consistent analysis.graph
  denotes : ∀ loop x info, analysis.graph.around loop inner →
    analysis.lookupInfo loop x = some info →
    moment.value x = info.denote moment.value (moment.iteration loop)
  /-- Inductions and trip counts do not divide by zero. -/
  defined : ∀ loop x info, analysis.graph.around loop inner →
    analysis.lookupInfo loop x = some info → info.Legible moment.value fun _ => True
  trip : WithinTrip moment.value (fun _ => True) (analysis.tripCount inner) inBody
    (moment.iteration inner)
  outerTrip : ∀ loop, analysis.graph.encloses loop inner = true →
    WithinTrip moment.value (fun _ => True) (analysis.tripCount loop) true (moment.iteration loop)

/-- No addition the range analysis looks through wrapped around, and no variable
of an outer loop it reads did. -/
def Unwrapped (moment : Moment) (inner : ℕ) : Prop :=
  ∀ x, Reads analysis inner x → moment.AdditionExact analysis.graph x ∧
      ∀ outer info, analysis.graph.loopInformation x = some outer →
        analysis.graph.encloses outer inner = true →
        analysis.lookupInfo outer x = some info →
        moment.value x = info.unbounded moment.value (moment.iteration outer)

/-- Refining the value is safe: if its instruction is an induction of a loop, then
the coefficient is not negative, the loop is around the context, and its trip
count is safe or not needed. -/
def refinable (inner : ℕ) (v : Value) : Bool :=
  v.instruction.all fun x => (analysis.graph.loopInformation x).all fun outer =>
    (analysis.lookupInfo outer x).all fun info =>
      decide (0 ≤ v.aConstant) && analysis.graph.encloses outer inner &&
        !(info.needsTripCount && isUnsafeTripCount (analysis.tripCount outer))

/-- If both bounds are constants and no finite-test is needed, the value of the
instruction lies between them. -/
def RangeIsSound (range : InductionRange) (value : ℤ) : Prop :=
  range.minVal.isConstantValue = true → range.maxVal.isConstantValue = true →
    range.needsFiniteTest = false →
    range.minVal.bConstant ≤ value ∧ value ≤ range.maxVal.bConstant

section

variable {analysis : InductionAnalysis} {admits : Value → Bool} {moment : Moment}
  {readable : HInstruction → Prop} {inner depth : ℕ} {inBody isMin : Bool}
  {value : HInstruction → ℤ} {trip : Option TripCount} {v : Value} {type : PrimitiveType}

theorem Invariant.legible_of_fetches {expr : Invariant} (hfetches : ∀ x ∈ expr.fetches, readable x)
    (hlegible : expr.Legible value fun _ => True) : expr.Legible value readable := by
  induction expr with
  | fetch insn type => exact hfetches insn (by simp [Invariant.fetches])
  | op operation a b type iha ihb =>
    obtain ⟨ha, hb, hdiv⟩ := hlegible
    exact ⟨iha (fun x hx => hfetches x (mem_append_left _ hx)) ha,
      ihb (fun x hx => hfetches x (mem_append_right _ hx)) hb, hdiv⟩
  | neg b type ih => exact ih hfetches hlegible

theorem InductionInfo.legible_of_fetches {info : InductionInfo}
    (hfetches : ∀ x ∈ info.fetches, readable x)
    (hlegible : info.Legible value fun _ => True) : info.Legible value readable := by
  induction info with
  | invariant expr => exact expr.legible_of_fetches hfetches hlegible
  | linear a b type =>
    exact ⟨a.legible_of_fetches (fun x hx => hfetches x (mem_append_left _ hx)) hlegible.1,
      b.legible_of_fetches (fun x hx => hfetches x (mem_append_right _ hx)) hlegible.2⟩
  | wrapAround a b type ih =>
    exact ⟨a.legible_of_fetches (fun x hx => hfetches x (mem_append_left _ hx)) hlegible.1,
      ih (fun x hx => hfetches x (mem_append_right _ hx)) hlegible.2⟩
  | periodic cycle =>
    intro expr hmem
    exact expr.legible_of_fetches (fun x hx => hfetches x (mem_flatMap.mpr ⟨expr, hmem, hx⟩))
      (hlegible _ hmem)

theorem WithinTrip.of_fetches {i : ℕ} (hwithin : WithinTrip value (fun _ => True) trip inBody i)
    (hfetches : ∀ t ∈ trip, ∀ x ∈ t.count.fetches, readable x) :
    WithinTrip value readable trip inBody i where
  legible t ht := t.count.legible_of_fetches (hfetches t ht) (hwithin.legible t ht)
  taken := hwithin.taken
  body := hwithin.body
  header := hwithin.header

/-- Safe refinements keep bounds. -/
theorem Informed.refinesSoundly (hinformed : Informed analysis moment inner inBody)
    (hunwrapped : Unwrapped analysis moment inner) :
    RefinesSoundly analysis (refinable analysis inner) moment (Reads analysis inner) where
  consistent := hinformed.consistent
  exact x hread := (hunwrapped x hread).1
  closed _ _ hread hrest := hread.rest hrest
  unbounded v x loop info hadmits hx hread hloop hinfo := by
    simp only [refinable, hx, hloop, hinfo, all_some, and_eq_true, decide_eq_true_eq,
      not_eq_true', and_eq_false_imp] at hadmits
    obtain ⟨⟨hnonneg, hencloses⟩, hsafe⟩ := hadmits
    have haround : analysis.graph.around loop inner := .inr hencloses
    refine ⟨hnonneg, (hunwrapped x hread).2 loop _ hloop hencloses hinfo, ?_, ?_, hsafe⟩
    · exact info.legible_of_fetches (fun y hy => .info haround hinfo hy)
        (hinformed.defined _ x _ haround hinfo)
    · exact (hinformed.outerTrip _ hencloses).of_fetches fun t ht y hy => .trip haround ht hy

/-- Replacing `a * (length / a)` by `length` keeps an upper bound. -/
theorem simplifyMax_mayBound (hcons : moment.Consistent analysis.graph)
    {z : ℤ} (hv : v.MayBound moment.value (Reads analysis inner) false z) :
    (simplifyMax analysis.graph v).MayBound moment.value (Reads analysis inner) false z := by
  unfold simplifyMax
  split
  case h_2 => exact hv
  next length divisor hdivision =>
    obtain ⟨x, hx, hdivision⟩ := bind_eq_some_iff.mp hdivision
    split_ifs with hcond
    · obtain ⟨hknown, hone, hdivisor⟩ := hcond
      have hbound := hv hknown
      have hlen : 0 ≤ moment.value length := by
        refine hcons.arrayLength length ?_
        unfold arrayLengthDivision at hdivision
        split at hdivision
        · split at hdivision
          · split_ifs at hdivision with hlen
            obtain ⟨c, -, hc⟩ := map_eq_some_iff.mp hdivision
            exact (Prod.mk.inj hc).1 ▸ hlen
          · cases hdivision
        · cases hdivision
      have hvalue := hcons.div x _ _ hdivision (by omega)
      intro _
      refine ⟨hbound.fits, fun y hy => ?_, fun h => by simp at h, fun h => ?_⟩
      · exact some.inj (instruction_known hy) ▸ (hbound.readable x hx).division hdivision
      · have hupper := hbound.upper h
        have hquot : divisor * (moment.value length).tdiv divisor ≤ moment.value length := by
          rw [Int.tdiv_eq_ediv_of_nonneg hlen]
          exact Int.mul_ediv_self_le (by omega)
        rw [eval, hx, elim_some, hvalue, hdivisor] at hupper
        rw [eval_known, elim_some, one_mul]
        omega
    · exact hv

theorem InRange.refineTimes {refine : Value → Bool → Value} {z : ℤ}
    (hrefine : ∀ v isMin, v.MayBound moment.value readable isMin z →
      (refine v isMin).MayBound moment.value readable isMin z)
    (times : ℕ) : ∀ extremes : Value × Value,
      InRange moment.value readable extremes.1 extremes.2 z →
      InRange moment.value readable (Induction.refineTimes refine times extremes).1
        (Induction.refineTimes refine times extremes).2 z := by
  induction times with
  | zero => exact fun _ hrange => hrange
  | succ times ih =>
    intro extremes hrange
    rw [Induction.refineTimes]
    split
    next refined hrefined => exact ih refined (hrange.refineBoth hrefine hrefined)
    next => exact hrange

theorem Agrees.refineTimes (hagrees : Agrees analysis admits depth) (times : ℕ) :
    ∀ {vMin vMax : Value},
      (∀ v ∈ metInRange (refineOuter analysis everyValue depth) (metInRefine analysis depth) times
        vMin vMax, admits v) →
      refineTimes (refineOuter analysis admits depth) times (vMin, vMax) =
        Induction.refineTimes (refineOuter analysis everyValue depth) times (vMin, vMax) := by
  induction times with
  | zero => exact fun _ => rfl
  | succ times ih =>
    intro vMin vMax hmet
    rw [metInRange, forall_mem_append, forall_mem_append] at hmet
    obtain ⟨⟨hmin, hmax⟩, hrest⟩ := hmet
    simp only [Induction.refineTimes, hagrees.refineBoth hmin hmax]
    split
    next hboth =>
      rw [hboth] at hrest
      exact ih hrest
    next => rfl

/-- If all values that `RefineOuter` meets are admitted, then the range is that
of looking at the admitted values only. -/
theorem refinedRange_eq_of_admits {context : ℕ} {instruction : HInstruction} {times : ℕ}
    (hloop : analysis.graph.loopOf (analysis.graph.node context).block = some inner)
    (hbody : inBody = ((analysis.graph.node context).block != (analysis.graph.loop inner).header))
    (hmet : ∀ v ∈ metValues analysis inner inBody depth times instruction, admits v) :
    refinedRange analysis admits depth times context instruction =
      refinedRange analysis everyValue depth times context instruction := by
  simp only [refinedRange, getInductionRange, hloop, ← hbody, Option.bind_eq_bind, bind_some]
  cases hinfo : analysis.lookupInfo inner instruction with
  | none => rfl
  | some info =>
    simp only [metValues, hinfo, elim_some, forall_mem_append] at hmet
    obtain ⟨hval, hrange⟩ := hmet
    have hagrees := agrees analysis admits depth
    simp only [bind_some, hagrees.val info (analysis.tripCount inner) inBody _ hval]
    have hrefined := hagrees.refineTimes times hrange
    by_cases htype : isIntOrLower info.type <;> simp [htype, hrefined]

/-- Refinement does not make an unknown extreme known. -/
theorem isKnown_of_refineOuter
    (hknown : (refineOuter analysis admits depth v isMin).isKnown) : v.isKnown := by
  by_contra hunknown
  have hnone := v.instruction_eq_none (by simpa using hunknown)
  cases depth with
  | zero => simp [refineOuter] at hknown
  | succ depth =>
    rw [refineOuter, hnone] at hknown
    split_ifs at hknown <;> exact hunknown hknown

theorem isKnown_of_refineTimes (times : ℕ) : ∀ extremes : Value × Value,
    (refineTimes (refineOuter analysis admits depth) times extremes).1.isKnown →
    (refineTimes (refineOuter analysis admits depth) times extremes).2.isKnown →
    extremes.1.isKnown ∧ extremes.2.isKnown := by
  induction times with
  | zero => exact fun _ hmin hmax => ⟨hmin, hmax⟩
  | succ times ih =>
    intro extremes hmin hmax
    rw [refineTimes] at hmin hmax
    split at hmin
    next refined hrefined =>
      rw [hrefined] at hmax
      obtain ⟨hmin, hmax⟩ := ih _ hmin hmax
      unfold refineBoth at hrefined
      dsimp only at hrefined
      split_ifs at hrefined
      cases hrefined
      exact ⟨isKnown_of_refineOuter hmin, isKnown_of_refineOuter hmax⟩
    next hnone =>
      rw [hnone] at hmax
      exact ⟨hmin, hmax⟩

theorem convert_of_fits_int {z : ℤ}
    (hfits : int.Fits z) : (computationType type).convert z = z := by
  have hlong : long.Fits z := by
    rw [fits_int_iff] at hfits
    rw [fits_long_iff]
    omega
  cases type <;> first
    | exact convert_of_fits hlong
    | exact convert_of_fits hfits

theorem isKnown_of_mergeVal {v1 v2 : Value}
    (hknown : (mergeVal v1 v2 isMin).isKnown) : v2.isKnown := by
  unfold mergeVal at hknown
  split at hknown
  next hcond =>
    simp only [and_eq_true] at hcond
    exact hcond.1.1.2
  next => simp at hknown

/-- A known extreme of a linear induction of a narrow type fits the type. -/
theorem correctForType_fits (hnarrow : inductionType type = .byte ∨ inductionType type = .short ∨
      inductionType type = .char) (hknown : (correctForType v type).isKnown) :
    (correctForType v type).isConstantValue ∧
      (inductionType type).Fits (correctForType v type).bConstant := by
  cases type <;> simp [inductionType] at hnarrow <;>
    simp only [correctForType] at hknown ⊢ <;> split at hknown <;>
    simp_all [inductionType]

/-- With both extremes known, an induction whose unbounded value fits in 32 bits
has this value at run time. -/
theorem denote_eq_unbounded
    (hrefines : RefinesSoundly analysis admits moment readable) (info : InductionInfo) :
    ∀ {depth i : ℕ}, info.Legible moment.value readable →
      WithinTrip moment.value readable trip inBody i →
      (info.needsTripCount → isUnsafeTripCount trip = false) → ∀ {j : ℕ}, j ≤ i →
      (getVal analysis admits depth info trip inBody true).isKnown →
      (getVal analysis admits depth info trip inBody false).isKnown →
      int.Fits (info.unbounded moment.value j) →
      info.denote moment.value j = info.unbounded moment.value j := by
  induction info with
  | invariant expr | periodic cycle =>
    intro depth i _ _ _ j _ _ _ hfits
    exact convert_of_fits_int hfits
  | wrapAround a b type ih =>
    intro depth i hlegible hwithin hsafe j hj hmin hmax hfits
    cases j with
    | zero => exact convert_of_fits_int hfits
    | succ j =>
      cases depth with
      | zero => simp [getVal] at hmin
      | succ depth =>
        exact ih hlegible.2 hwithin hsafe (by omega) (isKnown_of_mergeVal hmin)
          (isKnown_of_mergeVal hmax) hfits
  | linear a b type =>
    intro depth i hlegible hwithin hsafe j hj hmin hmax hfits
    have hsound := hrefines.rangeSound depth
    have hlower := (hsound.val _ _ _ i _ j hlegible hwithin hsafe hj hmin).lower rfl
    have hupper := (hsound.val _ _ _ i _ j hlegible hwithin hsafe hj hmax).upper rfl
    have hnarrow : inductionType type = .byte ∨ inductionType type = .short ∨
        inductionType type = .char →
        (inductionType type).Fits ((InductionInfo.linear a b type).unbounded moment.value j) := by
      intro hnarrow
      cases depth with
      | zero => simp [getVal] at hmin
      | succ depth =>
        rw [getVal] at hmin hmax hlower hupper
        obtain ⟨hconst, hlow⟩ := correctForType_fits hnarrow hmin
        rw [eval_of_isConstantValue hconst] at hlower
        obtain ⟨hconst, hhigh⟩ := correctForType_fits hnarrow hmax
        rw [eval_of_isConstantValue hconst] at hupper
        exact ⟨hlow.1.trans hlower, hupper.trans hhigh.2⟩
    cases type with
    | byte => exact convert_of_fits (hnarrow (.inl rfl))
    | short => exact convert_of_fits (hnarrow (.inr (.inl rfl)))
    | char => exact convert_of_fits (hnarrow (.inr (.inr rfl)))
    | long => exact @convert_of_fits_int .long _ hfits
    | not | boolean | int | float | double | void =>
      exact @convert_of_fits_int .int _ hfits

theorem isKnown_of_simplifyMax {g : HGraph} (hknown : (simplifyMax g v).isKnown) : v.isKnown := by
  unfold simplifyMax at hknown
  split at hknown
  · split_ifs at hknown with hcond
    · exact hcond.1
    · exact hknown
  · exact hknown

end

section NegatedStride

/-- The nested loops
`for (j = 1; j < 6; j++) { k = 100; for (i = 0; i < 10; i++) { use(k); k -= j; } }`:
node 0 is `j`, nodes 1 and 2 are `i` and `k`, node 3 is the use of `k`. -/
def nestedLoops : HGraph where
  node id :=
    match id with
    | 0 => ⟨.phi, .int, [.intConstant 1], 1⟩
    | 1 => ⟨.phi, .int, [.intConstant 0], 2⟩
    | 2 => ⟨.phi, .int, [.intConstant 100], 2⟩
    | _ => ⟨.other, .void, [.node 2], 3⟩
  loopOf block :=
    match block with
    | 1 => some 0
    | 2 | 3 => some 1
    | _ => none
  loop id :=
    match id with
    | 0 => ⟨1, [1, 2, 3], [0], [0]⟩
    | _ => ⟨2, [2, 3], [1, 2], [1, 2, 3]⟩

def intFetch (value : ℤ) : Invariant := .fetch (.intConstant value) .int

/-- The information about the nested loops, where `k` changes by `stride` in
each iteration of the inner loop. -/
def nestedAnalysis (stride : Invariant) : InductionAnalysis where
  graph := nestedLoops
  lookupInfo loop instruction :=
    match loop, instruction with
    | 0, .node 0 => some (.linear (intFetch 1) (intFetch 1) .int)
    | 1, .node 1 => some (.linear (intFetch 1) (intFetch 0) .int)
    | 1, .node 2 => some (.linear stride (intFetch 100) .int)
    | _, _ => none
  tripCount loop :=
    match loop with
    | 0 => some ⟨.inLoop, .op .sub (intFetch 6) (intFetch 1) .int,
        .op .lt (intFetch 1) (intFetch 6) .int, .int⟩
    | 1 => some ⟨.inLoop, intFetch 10, .op .lt (intFetch 0) (intFetch 10) .int, .int⟩
    | _ => none

def lastIteration (k : ℤ) : Moment where
  value instruction :=
    match instruction with
    | .intConstant value | .longConstant value => value
    | .node 0 => 5
    | .node 1 => 9
    | .node _ => k
  iteration loop :=
    match loop with
    | 0 => 4
    | _ => 9

theorem nestedLoops_kind (id : ℕ) :
    (nestedLoops.node id).kind = .phi ∨ (nestedLoops.node id).kind = .other := by
  match id with
  | 0 | 1 | 2 => exact .inl rfl
  | _ + 3 => exact .inr rfl

theorem lastIteration_consistent (k : ℤ) : (lastIteration k).Consistent nestedLoops where
  intConstant _ := rfl
  longConstant _ := rfl
  add id _ _ hkind := by
    obtain h | h := nestedLoops_kind id <;> simp [h] at hkind
  arrayLength x hx := by
    cases x with
    | node id =>
      obtain h | h := nestedLoops_kind id <;> simp [isArrayLength, h] at hx
    | intConstant | longConstant => simp [isArrayLength] at hx
  newArray id _ _ hkind := by
    obtain h | h := nestedLoops_kind id <;> simp [h] at hkind
  widening id _ hkind := by
    obtain h | h := nestedLoops_kind id <;> simp [h] at hkind
  div x _ _ hx := by
    cases x with
    | node id =>
      obtain h | h := nestedLoops_kind id <;> simp [arrayLengthDivision, h] at hx
    | intConstant | longConstant => simp [arrayLengthDivision] at hx

theorem nestedAnalysis_withinTrip (stride : Invariant) (k : ℤ) (loop : ℕ) :
    WithinTrip (lastIteration k).value (fun _ => True) ((nestedAnalysis stride).tripCount loop)
      true ((lastIteration k).iteration loop) := by
  match loop with
  | 0 =>
    refine ⟨?_, fun _ => ?_, fun _ => ?_, fun hheader => by simp at hheader⟩
    · rintro _ ⟨⟩
      exact ⟨trivial, trivial, nofun⟩
    · rintro _ ⟨⟩
      exact (by decide : (1 : ℤ) ≤ 6 - 1)
    · rintro _ ⟨⟩ _
      exact (by decide : (4 : ℤ) < 6 - 1)
  | 1 =>
    refine ⟨?_, fun _ => ?_, fun _ => ?_, fun hheader => by simp at hheader⟩
    · rintro _ ⟨⟩
      exact trivial
    · rintro _ ⟨⟩
      exact (by decide : (1 : ℤ) ≤ 10)
    · rintro _ ⟨⟩ _
      exact (by decide : (9 : ℤ) < 10)
  | _ + 2 => exact WithinTrip.none ..

theorem nestedAnalysis_informed {stride : Invariant} {k : ℤ}
    (hlegible : stride.Legible (lastIteration k).value fun _ => True)
    (hk : k = int.convert (stride.eval (lastIteration k).value * 9 + 100)) :
    Informed (nestedAnalysis stride) (lastIteration k) 1 true where
  consistent := lastIteration_consistent k
  denotes loop x info _ hinfo := by
    simp only [nestedAnalysis] at hinfo
    split at hinfo
    · cases hinfo
      exact (by decide : (5 : ℤ) = int.convert (1 * 4 + 1))
    · cases hinfo
      exact (by decide : (9 : ℤ) = int.convert (1 * 9 + 0))
    · cases hinfo
      exact hk
    · cases hinfo
  defined _ x _ _ hinfo := by
    simp only [nestedAnalysis] at hinfo
    split at hinfo
    · cases hinfo
      exact ⟨trivial, trivial⟩
    · cases hinfo
      exact ⟨trivial, trivial⟩
    · cases hinfo
      exact ⟨hlegible, trivial⟩
    · cases hinfo
  trip := nestedAnalysis_withinTrip stride k 1
  outerTrip loop _ := nestedAnalysis_withinTrip stride k loop

theorem nestedAnalysis_unwrapped (stride : Invariant) (k : ℤ) :
    Unwrapped (nestedAnalysis stride) (lastIteration k) 1 := by
  intro x _
  constructor
  · intro id _ _ _ hkind
    obtain h | h := nestedLoops_kind id <;> exact absurd (h.symm.trans hkind) (by decide)
  · intro outer info _ hencloses hinfo
    simp only [nestedAnalysis] at hinfo
    split at hinfo
    · cases hinfo
      rfl
    · exact absurd hencloses (by decide : ¬nestedLoops.encloses 1 1 = true)
    · exact absurd hencloses (by decide : ¬nestedLoops.encloses 1 1 = true)
    · cases hinfo

end NegatedStride

end NougatArt.Induction
