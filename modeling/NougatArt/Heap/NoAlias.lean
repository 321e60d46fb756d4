import NougatArt.Heap.AliasRun

/-!
# Accesses that do not alias

What an access touches is typed by its operands: the holder is a value of the
recorded type of the base, the field or component type is that of the access, and
a constant index is the touched one. This separates the locations of accesses
that the analysis declares not to alias.
-/

namespace NougatArt.Heap

open List Option Nat Bool HGraph

variable {Class : Type} {insns : ℕ} {graph : HGraph Class insns} {world : World Class}

variable {s before after : State insns} {insn : Fin insns}

section

variable (hreach : Reachable graph world s)

include hreach

theorem Reachable.trace : s.trace = [] ∨ graph.flow.Trace s.trace := by
  induction hreach with
  | start htrace _ => exact .inl htrace
  | step _ hstep ih =>
    right
    rw [hstep.trace_eq]
    rcases hstep.flows with ⟨hempty, rfl⟩ | ⟨previous, past, hpast, hedge⟩
    · rw [hempty]
      exact .entry
    · rw [hpast] at ih ⊢
      exact .step (ih.resolve_left (cons_ne_nil _ _)) hedge

theorem Reachable.trace_cons {rest : List (Fin insns)}
    (hpoint : s.trace = insn :: rest) : graph.flow.Trace (insn :: rest) := by
  have htrace := hreach.trace
  rw [hpoint] at htrace
  exact htrace.resolve_left (cons_ne_nil _ _)

/-- What an instruction establishes holds as long as only others that keep it are executed. -/
theorem Reachable.of_latest {later past : List (Fin insns)}
    (hsplit : s.trace = later ++ insn :: past) (property : State insns → Prop)
    (hexec : ∀ before after, Reachable graph world before → Step graph world before insn after →
      property after)
    (hkeep : ∀ before executed after, Reachable graph world before →
      Step graph world before executed after → executed ∈ later → property before →
      property after) : property s := by
  induction hreach generalizing later with
  | start htrace _ =>
    rw [htrace] at hsplit
    simp at hsplit
  | @step before after executed hbefore hstep ih =>
    rw [hstep.trace_eq] at hsplit
    cases later with
    | nil =>
      obtain ⟨rfl, -⟩ := cons.inj hsplit
      exact hexec _ _ hbefore hstep
    | cons head tail =>
      obtain ⟨rfl, htail⟩ := cons.inj hsplit
      exact hkeep _ _ _ hbefore hstep mem_cons_self
        (ih htail fun _ _ _ hstart hnext hmem => hkeep _ _ _ hstart hnext (mem_cons_of_mem _ hmem))

end

variable {i : ℕ}

theorem HGraph.inputAt_ne (hindex : i < (graph.kind insn).arity) : graph.inputAt insn i ≠ insn := by
  intro heq
  have hlt := rank_inputAt_lt hindex
  rw [heq] at hlt
  exact lt_irrefl _ hlt

theorem HGraph.kind_ne_phi (hindex : i < (graph.kind insn).arity) : graph.kind insn ≠ .phi := by
  intro hphi
  rw [hphi] at hindex
  exact not_lt_zero _ hindex

theorem Step.env_inputAt {executed : Fin insns} (hstep : Step graph world before executed after)
    (insn : Fin insns) (hne : ∀ i < (graph.kind insn).arity, graph.inputAt insn i ≠ executed) :
    ∀ i < (graph.kind insn).arity,
      after.env (graph.inputAt insn i) = before.env (graph.inputAt insn i) :=
  fun i hindex => hstep.env_other _ (hne i hindex)

/-- The operands of an instruction were executed before it. -/
theorem Step.inputAt_mem (hbefore : Reachable graph world before)
    (hstep : Step graph world before insn after) (hindex : i < (graph.kind insn).arity) :
    graph.inputAt insn i ∈ before.trace := by
  have hdom := graph.operands_dominate _ (kind_ne_phi hindex) _ (HGraph.inputAt_mem hindex)
  have hmem := hdom before.trace ((Reachable.step hbefore hstep).trace_cons hstep.trace_eq)
  exact (mem_cons.mp hmem).resolve_left (inputAt_ne hindex)

/-- A property of values holds of all executed instructions if each execution
establishes it, given that the operands have it. -/
theorem Reachable.env_invariant (property : Fin insns → Value → Prop)
    (hexec : ∀ before insn after, Reachable graph world before →
      Step graph world before insn after →
      (∀ executed ∈ before.trace, property executed (before.env executed)) →
      property insn (after.env insn)) (hreach : Reachable graph world s) :
    ∀ insn ∈ s.trace, property insn (s.env insn) := by
  induction hreach with
  | start htrace _ =>
    intro insn hinsn
    rw [htrace] at hinsn
    cases hinsn
  | @step before after executed hbefore hstep ih =>
    intro insn hinsn
    by_cases heq : insn = executed
    · subst heq
      exact hexec _ _ _ hbefore hstep ih
    · rw [hstep.env_other _ heq]
      rw [hstep.trace_eq] at hinsn
      exact ih insn ((mem_cons.mp hinsn).resolve_left heq)

section

variable (hreach : Reachable graph world s)

include hreach

section

variable (hinsn : insn ∈ s.trace)

include hinsn

/-- A value is of the type recorded for the instruction behind its checks. -/
theorem Reachable.hasType (fuel : ℕ) {rti : ReferenceTypeInfo Class}
    (hrti : graph.referenceTypeInfo (graph.skipChecks fuel insn) = some rti) :
    world.HasType (s.env insn) rti := by
  refine Reachable.env_invariant (fun insn v => ∀ fuel rti,
    graph.referenceTypeInfo (graph.skipChecks fuel insn) = some rti →
      world.HasType v rti) ?_ hreach _ hinsn _ rti hrti
  intro before insn after hbefore hstep hops fuel rti hrti
  rcases fuel with _ | fuel
  · exact hstep.has_type rti hrti
  rw [skipChecks] at hrti
  split at hrti
  next hcheck =>
    have hindex : 0 < (graph.kind insn).arity := by
      rcases hcheck with hkind | hkind <;> rw [hkind] <;> decide
    have hres : graph.result world before.env before.heap insn =
        some (before.env (graph.inputAt insn 0)) := by
      rcases hcheck with hkind | hkind <;> rw [result, hkind]
    rw [hstep.env_result _ hres]
    exact hops _ (hstep.inputAt_mem hbefore hindex) _ rti hrti
  · exact hstep.has_type rti hrti

/-- An instruction whose result depends on nothing. -/
theorem Reachable.env_of_result {v : Value}
    (hres : ∀ env heap, graph.result world env heap insn = some v) : s.env insn = v :=
  Reachable.env_invariant (fun insn result =>
    (∀ env heap, graph.result world env heap insn = some v) → result = v)
    (fun _ _ _ _ hstep _ hres => hstep.env_result _ (hres _ _)) hreach _ hinsn hres

/-- An integer constant keeps its value behind a bounds check. -/
theorem Reachable.env_index
    {v : BitVec 32} (hkind : graph.kind (graph.skipBoundsCheck insn) = .intConstant v) :
    s.env insn = .integral v.toInt := by
  refine Reachable.env_invariant (fun insn result =>
    graph.kind (graph.skipBoundsCheck insn) = .intConstant v →
      result = .integral v.toInt) ?_ hreach _ hinsn hkind
  intro before insn after hbefore hstep _ hkind
  unfold skipBoundsCheck at hkind
  split at hkind
  next hcheck =>
    have hindex : 0 < (graph.kind insn).arity := by
      rw [hcheck]
      decide
    have hinput :=
      hbefore.env_of_result (hstep.inputAt_mem hbefore hindex) fun _ _ => by rw [result, hkind]
    rw [← hinput]
    apply hstep.env_result
    rw [result, hcheck]
  · apply hstep.env_result
    rw [result, hkind]

theorem Reachable.env_loadClass {data : ℕ} (hkind : graph.kind insn = .loadClass data) :
    s.env insn = .klass (world.loadedClass data) :=
  hreach.env_of_result hinsn fun _ _ => by rw [result, hkind]

end

end

/-! ## What accesses touch -/

/-- The position an index operand stands for, if it is a constant. -/
def IndexIs (graph : HGraph Class insns) (index : Fin insns) (position : ℤ) : Prop :=
  ∀ value, graph.kind (graph.skipBoundsCheck index) = .intConstant value → position = value.toInt

def TouchesField (graph : HGraph Class insns) (world : World Class) (base : Fin insns)
    (field : FieldInfo) (isStatic : Bool) (location : Location) : Prop :=
  ∃ holder, location = .field holder field.fieldOffset ∧ holder.isReference = true ∧
    world.layout holder field.fieldOffset = some ⟨field.fieldType, isStatic⟩ ∧
    ∀ rti, graph.referenceTypeInfo (graph.skipChecks (graph.rank base) base) = some rti →
      world.HasType holder rti

def TouchesElement (graph : HGraph Class insns) (world : World Class) (index : Fin insns)
    (type : PrimitiveType) (location : Location) : Prop :=
  ∃ array position, location = .element array position ∧
    world.componentType array = type ∧ IndexIs graph index position

variable (graph world insn) in
def Touches (location : Location) : Prop :=
  match graph.kind insn with
  | .instanceFieldGet field | .instanceFieldSet field =>
    TouchesField graph world (graph.inputAt insn 0) field false location
  | .staticFieldGet field | .staticFieldSet field =>
    TouchesField graph world (graph.inputAt insn 0) field true location
  | .arrayGet type | .arraySet type =>
    TouchesElement graph world (graph.inputAt insn 1) type location
  | .addLHSMemory offset type =>
    match graph.getIndex insn with
    | none => ∃ holder, location = .field holder offset
    | some index => TouchesElement graph world index type location
  | _ => True

variable {loc : Location} {base : Value}

theorem fieldLocation_eq_some {off : ℕ} : fieldLocation base off = some loc ↔
      base.isReference ∧ loc = .field base off := by
  unfold fieldLocation
  split
  next hbase =>
    rw [some.injEq, and_iff_right hbase]
    exact eq_comm
  next hbase => simp [hbase]

theorem elementLocation_eq_some {i : Value} : elementLocation base i = some loc ↔
      ∃ position, i = .integral position ∧ base.isReference ∧ loc = .element base position := by
  cases i with
  | integral position =>
    unfold elementLocation
    by_cases hbase : base.isReference = true
    · simpa [hbase] using eq_comm
    · simp [hbase]
  | null | object | klass => simp [elementLocation]

variable {base i : Fin insns} {type : PrimitiveType}

theorem touchesElement_of_step (hbefore : Reachable graph world before) (hindex : i ∈ before.trace)
    (hloc : elementLocation (before.env base) (before.env i) = some loc)
    (htype : ∀ array position, loc = .element array position →
      world.componentType array = type) : TouchesElement graph world i type loc := by
  obtain ⟨position, hposition, -, rfl⟩ := elementLocation_eq_some.mp hloc
  refine ⟨before.env base, position, rfl, htype _ _ rfl, fun v hkind => ?_⟩
  rw [hbefore.env_index hindex hkind, Value.integral.injEq] at hposition
  exact hposition.symm

theorem HGraph.getIndex_eq_some (hindex : graph.getIndex insn = some i) :
    i = graph.inputAt insn 1 := by
  unfold getIndex at hindex
  split at hindex
  · cases hindex
  · exact (some.inj hindex).symm

/-- The location of an access that is executed is as its operands say. -/
theorem Step.touches (hbefore : Reachable graph world before)
    (hstep : Step graph world before insn after) (hloc : graph.location before.env insn = some loc)
    (htyped : graph.AccessTyped world insn loc) : Touches graph world insn loc := by
  have hinput : ∀ i, i < (graph.kind insn).arity → graph.inputAt insn i ∈ before.trace :=
    fun i hindex => hstep.inputAt_mem hbefore hindex
  unfold HGraph.location at hloc
  unfold HGraph.AccessTyped at htyped
  unfold Touches
  cases hkind : graph.kind insn <;> simp only [hkind] at hloc htyped hinput ⊢
  case instanceFieldGet field | instanceFieldSet field | staticFieldGet field
      | staticFieldSet field =>
    obtain ⟨hreference, rfl⟩ := fieldLocation_eq_some.mp hloc
    exact ⟨_, rfl, hreference, htyped,
      fun rti hrti => hbefore.hasType (hinput 0 (zero_lt_succ _)) _ hrti⟩
  case arrayGet type | arraySet type =>
    refine touchesElement_of_step hbefore (hinput 1 (one_lt_succ_succ _)) hloc ?_
    rintro array position rfl
    exact htyped
  case addLHSMemory off type =>
    cases hindex : graph.getIndex insn with
    | none =>
      rw [hindex] at hloc
      exact ⟨_, (fieldLocation_eq_some.mp hloc).2⟩
    | some i =>
      rw [hindex] at hloc
      refine touchesElement_of_step hbefore ?_ hloc ?_
      · rw [getIndex_eq_some hindex]
        exact hinput 1 (one_lt_succ_succ _)
      · rintro array position rfl
        exact htyped

theorem Reachable.touches (hreach : Reachable graph world s)
    (haccess : (graph.kind insn).isAccess) (hmem : loc ∈ s.touched insn) :
    Touches graph world insn loc := by
  induction hreach with
  | start _ htouched =>
    rw [htouched] at hmem
    cases hmem
  | @step before after executed hbefore hstep ih =>
    by_cases heq : insn = executed
    · subst heq
      obtain ⟨touched, hloc, htyped, htouched, -⟩ := hstep.access haccess
      rw [htouched] at hmem
      rcases hmem with rfl | hmem
      · exact hstep.touches hbefore hloc htyped
      · exact ih hmem
    · rw [hstep.touched_other _ heq] at hmem
      exact ih hmem

/-- Checks, constants, class loads and phis never touch the heap. -/
theorem Reachable.touched_eq_empty (hreach : Reachable graph world s)
    (hkind : (graph.kind insn).touchesHeap = false) : s.touched insn = ∅ := by
  induction hreach with
  | start _ htouched => exact htouched insn
  | @step before after executed _ hstep ih =>
    by_cases heq : insn = executed
    · subst heq
      rw [hstep.no_touch hkind, ih]
    · rw [hstep.touched_other _ heq, ih]

/-! ## Instructions outside of the seven kinds -/

theorem aliasOther_ne_mustAlias (kind : Kind) : aliasOther kind ≠ .mustAlias := by
  unfold aliasOther
  split <;> exact nofun

/-- Apart from instructions that only read the heap, what has no write side
effects touches nothing. -/
theorem touchesHeap_of_aliasOther {kind : Kind} (hother : aliasOther kind = .noAlias)
    (haccess : kind.isAccess = false) (hvisible : kind.hidesAccess = false) :
    kind.touchesHeap = false := by
  cases kind with
  | other doesAnyWrite isMonitorOperation =>
    cases doesAnyWrite <;> cases isMonitorOperation <;>
      simp [aliasOther, Kind.hasWriteSideEffects, Kind.hidesAccess] at hother hvisible
  | clinitCheck => simp [aliasOther, Kind.hasWriteSideEffects] at hother
  | instanceFieldGet | instanceFieldSet | staticFieldGet | staticFieldSet | arrayGet
  | arraySet | addLHSMemory => simp [Kind.isAccess] at haccess
  | nullCheck | boundsCheck | loadClass | intConstant | phi => rfl

/-! ## Accesses that do not alias -/

/-- Two recorded types that are not related have no common instance. Classes
are always so; an interface and a class that does not implement it need not be. -/
def TypesSeparate (graph : HGraph Class insns) (world : World Class) (xBase yBase : Fin insns) :
    Prop :=
  ∀ xRti yRti, graph.referenceTypeInfo (graph.skipChecks (graph.rank xBase) xBase) = some xRti →
    graph.referenceTypeInfo (graph.skipChecks (graph.rank yBase) yBase) = some yRti →
    world.isAssignableFrom xRti.typeHandle yRti.typeHandle = false →
    world.isAssignableFrom yRti.typeHandle xRti.typeHandle = false →
    ∀ cls, ¬ (world.isAssignableFrom xRti.typeHandle cls = true ∧
      world.isAssignableFrom yRti.typeHandle cls = true)

variable {xBase yBase : Fin insns}

theorem TypesSeparate.symm (hsep : TypesSeparate graph world xBase yBase) :
    TypesSeparate graph world yBase xBase :=
  fun yRti xRti hy hx hyx hxy cls hcls => hsep xRti yRti hx hy hxy hyx cls ⟨hcls.2, hcls.1⟩

variable [DecidableEq Class] {xField : FieldInfo} {xType : PrimitiveType}

/-- The types of two bases that can stand for the same object may alias. -/
theorem mayTypesAlias_of_common {holder : Value} (hsep : TypesSeparate graph world xBase yBase)
    (hholder : holder.isReference)
    (hx : ∀ rti, graph.referenceTypeInfo (graph.skipChecks (graph.rank xBase) xBase) =
      some rti → world.HasType holder rti)
    (hy : ∀ rti, graph.referenceTypeInfo (graph.skipChecks (graph.rank yBase) yBase) =
      some rti → world.HasType holder rti) :
    graph.mayTypesAlias world.isAssignableFrom xBase yBase := by
  simp only [mayTypesAlias]
  split
  · rfl
  split
  next xRti yRti hxRti hyRti =>
    have hxType := hx _ hxRti hholder
    have hyType := hy _ hyRti hholder
    split
    next hne =>
      split
      next hexact =>
        rw [and_eq_true] at hexact
        exact absurd ((hxType.2 hexact.1).symm.trans (hyType.2 hexact.2)) hne
      · split
        next hunrelated =>
          simp only [and_eq_true, not_eq_true'] at hunrelated
          exact absurd ⟨hxType.1, hyType.1⟩ (hsep _ _ hxRti hyRti hunrelated.1 hunrelated.2 _)
        · rfl
    · rfl
  · rfl

/-- Two fields that were touched at the same location agree in all that the
analysis compares. -/
theorem TouchesField.agree {yField : FieldInfo} {xStatic yStatic : Bool}
    (hx : TouchesField graph world xBase xField xStatic loc)
    (hy : TouchesField graph world yBase yField yStatic loc) :
    xStatic = yStatic ∧ xField.fieldOffset = yField.fieldOffset ∧
      xField.fieldType = yField.fieldType ∧
      (TypesSeparate graph world xBase yBase →
        graph.mayTypesAlias world.isAssignableFrom xBase yBase) := by
  obtain ⟨holder, rfl, hholder, hxLayout, hxTyped⟩ := hx
  obtain ⟨holder', hloc, -, hyLayout, hyTyped⟩ := hy
  rw [Location.field.injEq] at hloc
  obtain ⟨rfl, hoff⟩ := hloc
  rw [← hoff, hxLayout, some.injEq, FieldLayout.mk.injEq] at hyLayout
  exact ⟨hyLayout.2, hoff, hyLayout.1,
    fun hsep => mayTypesAlias_of_common hsep hholder hxTyped hyTyped⟩

omit [DecidableEq Class] in
theorem TouchesElement.agree {xIndex yIndex : Fin insns} {yType : PrimitiveType}
    (hx : TouchesElement graph world xIndex xType loc)
    (hy : TouchesElement graph world yIndex yType loc) :
    xType = yType ∧ graph.arrayIndexAlias xIndex yIndex ≠ .noAlias := by
  obtain ⟨array, position, rfl, hxType, hxIndex⟩ := hx
  obtain ⟨array', position', hloc, hyType, hyIndex⟩ := hy
  obtain ⟨rfl, rfl⟩ := hloc
  refine ⟨hxType.symm.trans hyType, ?_⟩
  simp only [arrayIndexAlias]
  split
  · exact nofun
  · split
    next xValue yValue hxKind hyKind =>
      have hequal := (hxIndex _ hxKind).symm.trans (hyIndex _ hyKind)
      rw [if_pos hequal]
      exact nofun
    · exact nofun

omit [DecidableEq Class] in
theorem TouchesField.not_element {field : FieldInfo} {isStatic : Bool}
    (hfield : TouchesField graph world base field isStatic loc) :
    ¬ TouchesElement graph world i type loc := by
  rintro ⟨array, position, rfl, -⟩
  obtain ⟨holder, hloc, -⟩ := hfield
  cases hloc

variable (graph) in
/-- The field of an access that is not volatile, and whether it is static. -/
def HGraph.plainField (insn : Fin insns) : Option (Bool × FieldInfo) :=
  match graph.kind insn with
  | .instanceFieldGet field | .instanceFieldSet field =>
    if field.isVolatile then none else some (false, field)
  | .staticFieldGet field | .staticFieldSet field =>
    if field.isVolatile then none else some (true, field)
  | _ => none

section

variable {field : FieldInfo} (hvolatile : field.isVolatile = false)

include hvolatile

omit [DecidableEq Class] in
theorem HGraph.plainField_of_instance
    (hkind : graph.kind insn = .instanceFieldGet field ∨
      graph.kind insn = .instanceFieldSet field) :
    graph.plainField insn = some (false, field) := by
  rcases hkind with hkind | hkind <;> simp [plainField, hkind, hvolatile]

omit [DecidableEq Class] in
theorem HGraph.plainField_of_static
    (hkind : graph.kind insn = .staticFieldGet field ∨ graph.kind insn = .staticFieldSet field) :
    graph.plainField insn = some (true, field) := by
  rcases hkind with hkind | hkind <;> simp [plainField, hkind, hvolatile]

end

theorem FieldInfo.eq_of_plain {xField yField : FieldInfo} (hx : xField.isVolatile = false)
    (hy : yField.isVolatile = false) (hoffset : xField.fieldOffset = yField.fieldOffset)
    (htype : xField.fieldType = yField.fieldType) : xField = yField := by
  cases xField
  cases yField
  simp_all

/-- `May_Types_Alias` decides only about two accesses that agree in everything else. -/
def BasesSeparate (graph : HGraph Class insns) (world : World Class) (x y : Fin insns) : Prop :=
  ∀ field, graph.plainField x = some field → graph.plainField y = some field →
    TypesSeparate graph world (graph.inputAt x 0) (graph.inputAt y 0)

omit [DecidableEq Class] in
theorem BasesSeparate.symm {x y : Fin insns} (hsep : BasesSeparate graph world x y) :
    BasesSeparate graph world y x :=
  fun field hy hx => (hsep field hx hy).symm

section SameLocation

variable {mustAlias : Fin insns → Fin insns → Bool} {x y : Fin insns}

section

variable (hsep : BasesSeparate graph world x y)
  (haccess : (graph.kind y).isAccess = true) (hy : Touches graph world y loc)

include hsep haccess hy

/-- Fields that the analysis compares agree, so that it cannot separate them. -/
theorem aliasInstanceField_ne_noAlias
    (hkindX : graph.kind x = .instanceFieldGet xField ∨ graph.kind x = .instanceFieldSet xField)
    (hx : TouchesField graph world (graph.inputAt x 0) xField false loc) :
    graph.aliasInstanceField world.isAssignableFrom mustAlias x y xField ≠ .noAlias := by
  unfold aliasInstanceField
  unfold Touches at hy
  split
  · simp
  cases hkind : graph.kind y <;> simp only [hkind] at hy haccess ⊢
  case instanceFieldGet yField | instanceFieldSet yField =>
    obtain ⟨-, hoff, htype, htypes⟩ := hx.agree hy
    unfold instanceAlias
    split
    · simp
    next hvolatile =>
      rw [not_eq_true, or_eq_false_iff] at hvolatile
      obtain rfl := FieldInfo.eq_of_plain hvolatile.1 hvolatile.2 hoff htype
      rw [htypes (hsep _ (plainField_of_instance hvolatile.1 hkindX)
        (plainField_of_instance hvolatile.1 (by tauto)))]
      simp
      split <;> simp
  case staticFieldGet | staticFieldSet => cases (hx.agree hy).1
  case arrayGet | arraySet => exact absurd hy hx.not_element
  case addLHSMemory =>
    cases hindex : graph.getIndex y with
    | none => simp
    | some i =>
      rw [hindex] at hy
      exact absurd hy hx.not_element
  all_goals cases haccess

theorem aliasStaticField_ne_noAlias
    (hkindX : graph.kind x = .staticFieldGet xField ∨ graph.kind x = .staticFieldSet xField)
    (hx : TouchesField graph world (graph.inputAt x 0) xField true loc) :
    graph.aliasStaticField world.isAssignableFrom x y xField ≠ .noAlias := by
  unfold aliasStaticField
  unfold Touches at hy
  split
  · simp
  cases hkind : graph.kind y <;> simp only [hkind] at hy haccess ⊢
  case instanceFieldGet | instanceFieldSet => cases (hx.agree hy).1
  case staticFieldGet yField | staticFieldSet yField =>
    obtain ⟨-, hoff, htype, htypes⟩ := hx.agree hy
    unfold staticAlias
    split
    · simp
    next hvolatile =>
      rw [not_eq_true, or_eq_false_iff] at hvolatile
      obtain rfl := FieldInfo.eq_of_plain hvolatile.1 hvolatile.2 hoff htype
      rw [htypes (hsep _ (plainField_of_static hvolatile.1 hkindX)
        (plainField_of_static hvolatile.1 (by tauto)))]
      simp
      split <;> simp
  case arrayGet | arraySet => exact absurd hy hx.not_element
  case addLHSMemory =>
    cases hindex : graph.getIndex y with
    | none => simp
    | some i =>
      rw [hindex] at hy
      exact absurd hy hx.not_element
  all_goals cases haccess

end

omit [DecidableEq Class] in
theorem aliasArray_ne_noAlias (hx : TouchesElement graph world (graph.inputAt x 1) xType loc)
    (haccess : (graph.kind y).isAccess) (hy : Touches graph world y loc) :
    graph.aliasArray mustAlias x y xType ≠ .noAlias := by
  unfold aliasArray
  unfold Touches at hy
  cases hkind : graph.kind y <;> simp only [hkind] at hy haccess ⊢
  case instanceFieldGet | instanceFieldSet | staticFieldGet | staticFieldSet =>
    exact absurd hx hy.not_element
  case arrayGet | arraySet =>
    obtain ⟨htype, hindex⟩ := hx.agree hy
    unfold arrayAlias
    split
    · exact nofun
    · split
      · exact hindex
      · simp [arrayTypesDiffer, htype]
  case addLHSMemory =>
    cases hindex : graph.getIndex y with
    | none =>
      rw [hindex] at hy
      obtain ⟨holder, rfl⟩ := hy
      obtain ⟨array, position, hloc, -⟩ := hx
      cases hloc
    | some i => exact nofun
  all_goals cases haccess

omit [DecidableEq Class] in
theorem aliasLHSMemory_ne_noAlias {xOffset : ℕ}
    (hkindX : graph.kind x = .addLHSMemory xOffset xType) (hx : Touches graph world x loc)
    (haccess : (graph.kind y).isAccess) (hy : Touches graph world y loc) :
    graph.aliasLHSMemory mustAlias x y xOffset xType ≠ .noAlias := by
  unfold aliasLHSMemory
  unfold Touches at hx hy
  cases hindex : graph.getIndex x <;> cases hkind : graph.kind y <;>
    simp only [hkindX, hkind, hindex] at hx hy haccess ⊢
  case none.instanceFieldGet | none.instanceFieldSet | none.staticFieldGet
      | none.staticFieldSet =>
    obtain ⟨holder, rfl⟩ := hx
    obtain ⟨holder', hloc, -⟩ := hy
    rw [Location.field.injEq] at hloc
    simp only [lhsMemoryFieldAlias, hloc.2]
    split <;> simp
    split <;> simp
  case some.instanceFieldGet | some.instanceFieldSet | some.staticFieldGet
      | some.staticFieldSet =>
    exact absurd hx hy.not_element
  case none.arrayGet | none.arraySet =>
    obtain ⟨holder, rfl⟩ := hx
    obtain ⟨array, position, hloc, -⟩ := hy
    cases hloc
  case some.arrayGet | some.arraySet =>
    obtain ⟨htype, hindexAlias⟩ := hx.agree hy
    simp only [lhsMemoryArrayAlias]
    split
    · exact hindexAlias
    · simp [htype]
  case none.addLHSMemory | some.addLHSMemory => exact nofun
  all_goals cases haccess

/-- Two accesses that have touched the same location are not said not to alias. -/
theorem aliasOrdered_ne_noAlias
    (hsep : BasesSeparate graph world x y)
    (haccessX : (graph.kind x).isAccess) (hx : Touches graph world x loc)
    (haccessY : (graph.kind y).isAccess) (hy : Touches graph world y loc) :
    graph.aliasOrdered world.isAssignableFrom mustAlias x y ≠ .noAlias := by
  unfold aliasOrdered
  have htouches := hx
  unfold Touches at htouches
  cases hkind : graph.kind x <;> simp only [hkind] at htouches haccessX ⊢
  case instanceFieldGet | instanceFieldSet =>
    exact aliasInstanceField_ne_noAlias hsep haccessY hy (by tauto) htouches
  case staticFieldGet | staticFieldSet =>
    exact aliasStaticField_ne_noAlias hsep haccessY hy (by tauto) htouches
  case arrayGet | arraySet => exact aliasArray_ne_noAlias htouches haccessY hy
  case addLHSMemory => exact aliasLHSMemory_ne_noAlias hkind hx haccessY hy
  all_goals cases haccessX

theorem aliasOrdered_of_not_access (haccess : (graph.kind x).isAccess = false) :
    graph.aliasOrdered world.isAssignableFrom mustAlias x y = aliasOther (graph.kind x) := by
  unfold aliasOrdered
  cases hkind : graph.kind x with
  | instanceFieldGet | instanceFieldSet | staticFieldGet | staticFieldSet | arrayGet
  | arraySet | addLHSMemory => simp [hkind, Kind.isAccess] at haccess
  | nullCheck | boundsCheck | clinitCheck | loadClass | intConstant | phi | other => rfl

theorem aliasOrdered_of_access_of_not_access (haccessX : (graph.kind x).isAccess)
    (haccessY : (graph.kind y).isAccess = false) :
    graph.aliasOrdered world.isAssignableFrom mustAlias x y = aliasOther (graph.kind y) := by
  have hne : x ≠ y := by
    rintro rfl
    rw [haccessX] at haccessY
    cases haccessY
  unfold aliasOrdered aliasInstanceField aliasStaticField aliasArray aliasLHSMemory
  cases hkindX : graph.kind x <;> cases hkindY : graph.kind y <;>
    simp only [hkindX, hkindY, Kind.isAccess, true_eq_false, false_eq_true,
      if_neg hne] at haccessX haccessY ⊢

end SameLocation

/-- Neither of two instructions hides an access from the analysis, and the types
of their bases are separate where the analysis relies on it. -/
structure Visible (graph : HGraph Class insns) (world : World Class) (state : State insns)
    (x y : Fin insns) : Prop where
  /-- Without write side effects, an instruction that the analysis does not look into
  has touched nothing that the other one could touch. -/
  left : (graph.kind x).hidesAccess = true → (graph.kind y).touchesHeap = true →
    state.touched x = ∅
  right : (graph.kind y).hidesAccess = true → (graph.kind x).touchesHeap = true →
    state.touched y = ∅
  separate : BasesSeparate graph world x y

variable {x y : Fin insns}

omit [DecidableEq Class] in
theorem Visible.symm (hvisible : Visible graph world s x y) : Visible graph world s y x :=
  ⟨hvisible.right, hvisible.left, hvisible.separate.symm⟩

section

variable (hreach : Reachable graph world s)

include hreach

omit [DecidableEq Class] in
/-- An instruction that is known by its side effects and has none. -/
theorem Reachable.disjoint_of_aliasOther (hother : aliasOther (graph.kind x) = .noAlias)
    (haccess : (graph.kind x).isAccess = false)
    (hvisible : (graph.kind x).hidesAccess = true → (graph.kind y).touchesHeap = true →
      s.touched x = ∅) : Disjoint (s.touched x) (s.touched y) := by
  cases hhides : (graph.kind x).hidesAccess with
  | false =>
    rw [hreach.touched_eq_empty (touchesHeap_of_aliasOther hother haccess hhides)]
    exact Set.empty_disjoint _
  | true =>
    cases htouches : (graph.kind y).touchesHeap with
    | false =>
      rw [hreach.touched_eq_empty htouches]
      exact Set.disjoint_empty _
    | true =>
      rw [hvisible hhides htouches]
      exact Set.empty_disjoint _

variable (hvisible : Visible graph world s x y)

include hvisible

theorem Reachable.disjoint_of_aliasOrdered {mustAlias : Fin insns → Fin insns → Bool}
    (hno : graph.aliasOrdered world.isAssignableFrom mustAlias x y = .noAlias) :
    Disjoint (s.touched x) (s.touched y) := by
  cases haccessX : (graph.kind x).isAccess with
  | false =>
    rw [aliasOrdered_of_not_access haccessX] at hno
    exact hreach.disjoint_of_aliasOther hno haccessX hvisible.left
  | true =>
    cases haccessY : (graph.kind y).isAccess with
    | false =>
      rw [aliasOrdered_of_access_of_not_access haccessX haccessY] at hno
      exact (hreach.disjoint_of_aliasOther hno haccessY hvisible.right).symm
    | true =>
      rw [Set.disjoint_left]
      intro loc hx hy
      exact aliasOrdered_ne_noAlias hvisible.separate haccessX
        (hreach.touches haccessX hx) haccessY (hreach.touches haccessY hy) hno

/-- Instructions that are said not to alias have touched no common location. -/
theorem Reachable.disjoint_of_noAlias
    (hno : graph.aliasCheck world.isAssignableFrom x y = .noAlias) :
    Disjoint (s.touched x) (s.touched y) := by
  rw [aliasCheck_eq] at hno
  split at hno
  · exact (hreach.disjoint_of_aliasOrdered hvisible.symm hno).symm
  · exact hreach.disjoint_of_aliasOrdered hvisible hno

end

end NougatArt.Heap
