import NougatArt.Heap.NoAlias

/-!
# Accesses that alias, and soundness of alias analysis

At a point that the operands of an access dominate, the latest values of these
operands are the ones computed from the current values, because a dominating
definition is not executed again before its use. This identifies the locations
of accesses that must alias, as long as loads of bases that alias have seen the
same contents.
-/

namespace NougatArt.Heap

open List Option Nat HGraph

variable {Class : Type} {insns : ℕ} {graph : HGraph Class insns} {world : World Class}

/-! ## Values that are current

At a point that an instruction dominates, its latest value is what its operands,
with their latest values, and the heap it has seen determine. -/

variable {insn : Fin insns}

section

variable {graph' : HGraph Class insns} {env env' : Fin insns → Value}
  (hkinds : graph'.kind = graph.kind)
  (hlen : (graph'.inputs insn).length = (graph.inputs insn).length)
  (hinput : ∀ i < (graph.kind insn).arity,
    env' (graph'.inputAt insn i) = env (graph.inputAt insn i))

include hkinds hlen hinput

/-- An access with the same operands, in the same graph or in another one. -/
theorem location_congr : graph'.location env' insn = graph.location env insn := by
  rw [location, location, hkinds, getIndex, getIndex, hlen]
  cases hkind : graph.kind insn <;> simp only [hkind, Kind.arity] at hinput ⊢
  case instanceFieldGet | instanceFieldSet | staticFieldGet | staticFieldSet =>
    rw [hinput 0 (by decide)]
  case arrayGet | arraySet =>
    rw [hinput 0 (by decide), hinput 1 (by decide)]
  case addLHSMemory =>
    by_cases htwo : (graph.inputs insn).length = 2
    · simp only [if_pos htwo, hinput 0 (by decide)]
    · simp only [if_neg htwo, hinput 0 (by decide), hinput 1 (by decide)]

theorem result_congr {heap : Location → Value} :
    graph'.result world env' heap insn = graph.result world env heap insn := by
  rw [result, result, location_congr hkinds hlen hinput, hkinds]
  cases hkind : graph.kind insn with
  | nullCheck | boundsCheck | clinitCheck =>
    exact congrArg some (hinput 0 (by rw [hkind]; decide))
  | instanceFieldGet | instanceFieldSet | staticFieldGet | staticFieldSet | arrayGet
  | arraySet | addLHSMemory | loadClass | intConstant | phi | other => rfl

end

theorem input_ne {input : Fin insns} (hphi : graph.kind insn ≠ .phi)
    (hinput : input ∈ graph.inputs insn) : input ≠ insn := by
  rintro rfl
  exact lt_irrefl _ (graph.rank_lt _ hphi _ hinput)

variable {state : State insns}

/-- As long as its operands are not executed again, the value of an instruction
is determined by their latest values and the heap it has seen. -/
theorem Reachable.current (hreach : Reachable graph world state)
    {later past : List (Fin insns)} (hsplit : state.trace = later ++ insn :: past)
    (hlatest : insn ∉ later) (hinputs : ∀ input ∈ graph.inputs insn, input ∉ later) :
    (∀ v, graph.result world state.env (state.seen insn) insn = some v → state.env insn = v) ∧
      ((graph.kind insn).isAccess → (graph.location state.env insn).isSome) := by
  refine hreach.of_latest hsplit (fun state => (∀ v, graph.result world state.env
    (state.seen insn) insn = some v → state.env insn = v) ∧
      ((graph.kind insn).isAccess = true → (graph.location state.env insn).isSome)) ?_ ?_
  · intro before after _ hstep
    have hagree := hstep.env_inputAt insn fun _ => inputAt_ne
    rw [hstep.seen_insn, result_congr rfl rfl hagree, location_congr rfl rfl hagree]
    refine ⟨hstep.env_result, fun haccess => ?_⟩
    obtain ⟨location, hloc, -⟩ := hstep.access haccess
    rw [hloc]
    rfl
  · intro before executed after _ hstep hmem hcur
    have hne : insn ≠ executed := fun heq => hlatest (heq ▸ hmem)
    have hagree := hstep.env_inputAt insn fun _ hindex heq =>
      hinputs _ (inputAt_mem hindex) (heq ▸ hmem)
    rw [hstep.seen_other _ hne, result_congr rfl rfl hagree, location_congr rfl rfl hagree,
      hstep.env_other _ hne]
    exact hcur

/-- Values are current at every point that their instruction dominates. -/
theorem Reachable.current_of_dominates (hreach : Reachable graph world state)
    {point : Fin insns} {rest : List (Fin insns)} (hpoint : state.trace = point :: rest)
    (hdom : graph.flow.Dominates insn point) (hphi : graph.kind insn ≠ .phi) :
    (∀ v, graph.result world state.env (state.seen insn) insn = some v → state.env insn = v) ∧
      ((graph.kind insn).isAccess → (graph.location state.env insn).isSome) := by
  have htrace := hreach.trace_cons hpoint
  obtain ⟨later, past, hsplit, hlatest⟩ := eq_append_cons_of_mem (hdom _ htrace)
  -- The operands dominate the instruction, so they are not executed after it.
  exact hreach.current (hpoint.trans hsplit) hlatest fun input hinput =>
    FlowGraph.notMem_later_of_dominates (graph.operands_dominate _ hphi _ hinput)
      hdom htrace (input_ne hphi hinput) hsplit hlatest

/-! ## Accesses that alias -/

/-- The instruction dominates the point the execution has reached. -/
def Available (graph : HGraph Class insns) (state : State insns) (insn : Fin insns) : Prop :=
  ∃ point rest, state.trace = point :: rest ∧ graph.flow.Dominates insn point

theorem Available.input {input : Fin insns} (havail : Available graph state insn)
    (hphi : graph.kind insn ≠ .phi) (hinput : input ∈ graph.inputs insn) :
    Available graph state input := by
  obtain ⟨point, rest, hpoint, hdom⟩ := havail
  exact ⟨point, rest, hpoint, (graph.operands_dominate _ hphi _ hinput).trans hdom⟩

section

variable (hreach : Reachable graph world state)

include hreach

section

variable (havail : Available graph state insn)

include havail

theorem Available.mem_trace : insn ∈ state.trace := by
  obtain ⟨point, rest, hpoint, hdom⟩ := havail
  rw [hpoint]
  exact hdom rest (hreach.trace_cons hpoint)

theorem Available.env_eq_result (hphi : graph.kind insn ≠ .phi) {v : Value}
    (hres : graph.result world state.env (state.seen insn) insn = some v) : state.env insn = v := by
  obtain ⟨point, rest, hpoint, hdom⟩ := havail
  exact (hreach.current_of_dominates hpoint hdom hphi).1 v hres

theorem Available.env_skipNullCheck : state.env insn = state.env (graph.skipNullCheck insn) := by
  unfold skipNullCheck
  split
  next hkind =>
    refine havail.env_eq_result hreach (by rw [hkind]; decide) ?_
    rw [result, hkind]
  · rfl

theorem Available.env_skipBoundsCheck :
    state.env insn = state.env (graph.skipBoundsCheck insn) := by
  unfold skipBoundsCheck
  split
  next hkind =>
    refine havail.env_eq_result hreach (by rw [hkind]; decide) ?_
    rw [result, hkind]
  · rfl

end

end

theorem Available.skipNullCheck (havail : Available graph state insn) :
    Available graph state (graph.skipNullCheck insn) := by
  unfold HGraph.skipNullCheck
  split
  next hkind =>
    exact havail.input (by rw [hkind]; decide) (inputAt_mem (by rw [hkind]; decide))
  · exact havail

/-- The value of an available load is what it has seen in its location. -/
theorem Available.env_load (hreach : Reachable graph world state)
    (havail : Available graph state insn) (haccess : (graph.kind insn).isAccess)
    (hproduces : (graph.kind insn).producesValue) :
    ∃ location, graph.location state.env insn = some location ∧
      state.env insn = state.seen insn location := by
  have hphi : graph.kind insn ≠ .phi := by
    intro hkind
    rw [hkind] at haccess
    cases haccess
  obtain ⟨point, rest, hpoint, hdom⟩ := havail
  obtain ⟨hvalue, hsome⟩ := hreach.current_of_dominates hpoint hdom hphi
  obtain ⟨location, hloc⟩ := isSome_iff_exists.mp (hsome haccess)
  refine ⟨location, hloc, hvalue _ ?_⟩
  unfold result
  cases hkind : graph.kind insn <;>
    simp only [hkind, Kind.isAccess, Kind.producesValue, Bool.false_eq_true] at haccess hproduces
  all_goals rw [hloc, map_some]

theorem arity_pos_of_isAccess (haccess : (graph.kind insn).isAccess) :
    0 < (graph.kind insn).arity := by
  cases hkind : graph.kind insn <;>
    simp [hkind, Kind.isAccess, Kind.arity] at haccess ⊢

/-- The operands of the instruction dominate the point the execution has reached. -/
def OperandsAvailable (graph : HGraph Class insns) (state : State insns) (insn : Fin insns) :
    Prop :=
  ∀ index, index < (graph.kind insn).arity → Available graph state (graph.inputAt insn index)

theorem Available.operands (havail : Available graph state insn) :
    OperandsAvailable graph state insn :=
  fun _ hindex => havail.input (kind_ne_phi hindex) (inputAt_mem hindex)

theorem skipNullCheck_produces {base user : Fin insns} (hbase : base ∈ graph.inputs user) :
    (graph.kind (graph.skipNullCheck base)).producesValue := by
  unfold skipNullCheck
  split
  next hkind =>
    exact graph.operands_produce base _ (inputAt_mem (by rw [hkind]; decide))
  · exact graph.operands_produce _ _ hbase

/-- The index of an access to an array element. -/
def HGraph.elementIndex (graph : HGraph Class insns) (insn : Fin insns) : Option (Fin insns) :=
  match graph.kind insn with
  | .arrayGet _ | .arraySet _ => some (graph.inputAt insn 1)
  | .addLHSMemory _ _ => graph.getIndex insn
  | _ => none

/-- The offset of an addition to a field in memory. -/
def HGraph.addedOffset (graph : HGraph Class insns) (insn : Fin insns) : Option ℕ :=
  match graph.kind insn, graph.getIndex insn with
  | .addLHSMemory offset _, none => some offset
  | _, _ => none

/-- The base objects about which `Instance_base_same` or `Array_base_same` is asked
for two accesses that agree in everything else. -/
inductive ComparesBases (graph : HGraph Class insns) (x y : Fin insns) :
    Fin insns → Fin insns → Prop
  | field {field : Bool × FieldInfo} (hx : graph.plainField x = some field)
      (hy : graph.plainField y = some field) : ComparesBases graph x y
        (graph.skipNullCheck (graph.inputAt x 0)) (graph.skipNullCheck (graph.inputAt y 0))
  | addedLeft {isStatic : Bool} {field : FieldInfo}
      (hx : graph.addedOffset x = some field.fieldOffset)
      (hy : graph.plainField y = some (isStatic, field)) : ComparesBases graph x y
        (graph.skipNullCheck (graph.inputAt x 0)) (graph.skipNullCheck (graph.inputAt y 0))
  | addedRight {isStatic : Bool} {field : FieldInfo}
      (hx : graph.plainField x = some (isStatic, field))
      (hy : graph.addedOffset y = some field.fieldOffset) : ComparesBases graph x y
        (graph.skipNullCheck (graph.inputAt x 0)) (graph.skipNullCheck (graph.inputAt y 0))
  | element {xIndex yIndex : Fin insns} (hx : graph.elementIndex x = some xIndex)
      (hy : graph.elementIndex y = some yIndex)
      (hindex : graph.arrayIndexAlias xIndex yIndex = .mustAlias) :
      ComparesBases graph x y (graph.inputAt x 0) (graph.inputAt y 0)

variable {x y : Fin insns}

/-- Indices that must alias have the same value. -/
theorem env_eq_of_arrayIndexAlias (hreach : Reachable graph world state)
    (hx : Available graph state x) (hy : Available graph state y)
    (hmust : graph.arrayIndexAlias x y = .mustAlias) : state.env x = state.env y := by
  simp only [arrayIndexAlias] at hmust
  split at hmust
  next heq =>
    rw [hx.env_skipBoundsCheck hreach, heq, ← hy.env_skipBoundsCheck hreach]
  · split at hmust
    next xValue yValue hxKind hyKind =>
      split at hmust
      next hvalue =>
        rw [hreach.env_index (hx.mem_trace hreach) hxKind,
          hreach.env_index (hy.mem_trace hreach) hyKind, hvalue]
      · cases hmust
    · cases hmust

variable {mustAlias : Fin insns → Fin insns → Bool} {xBase yBase : Fin insns}

theorem env_eq_of_instanceBaseSame (hreach : Reachable graph world state)
    (hx : Available graph state xBase) (hy : Available graph state yBase)
    (hsame : mustAlias (graph.skipNullCheck xBase) (graph.skipNullCheck yBase) →
      state.env (graph.skipNullCheck xBase) = state.env (graph.skipNullCheck yBase))
    (hbase : graph.instanceBaseSame mustAlias xBase yBase) : state.env xBase = state.env yBase := by
  rw [hx.env_skipNullCheck hreach, hy.env_skipNullCheck hreach]
  simp only [instanceBaseSame] at hbase
  split at hbase
  next heq => rw [heq]
  · exact hsame hbase

theorem env_eq_of_arrayBaseSame (hsame : mustAlias xBase yBase → state.env xBase = state.env yBase)
    (hbase : arrayBaseSame mustAlias xBase yBase) : state.env xBase = state.env yBase := by
  unfold arrayBaseSame at hbase
  split at hbase
  next heq => rw [heq]
  · exact hsame hbase

variable {xField : FieldInfo} {xOffset : ℕ}

/-- The three tests that decide about fields. -/
theorem of_tests_eq_mustAlias {hidden apart same : Prop} [Decidable hidden] [Decidable apart]
    [Decidable same] (hmust : (if hidden then AliasKind.mayAlias else if apart then .noAlias
      else if same then .mustAlias else .mayAlias) = .mustAlias) : ¬ hidden ∧ ¬ apart ∧ same := by
  split at hmust
  · cases hmust
  next hhidden =>
    split at hmust
    · cases hmust
    next hapart =>
      split at hmust
      next hsame => exact ⟨hhidden, hapart, hsame⟩
      · cases hmust

theorem lhsMemoryFieldAlias_eq_mustAlias {field : FieldInfo}
    (hmust : graph.lhsMemoryFieldAlias mustAlias xOffset xBase yBase field = .mustAlias) :
    field.isVolatile = false ∧ xOffset = field.fieldOffset ∧
      graph.instanceBaseSame mustAlias xBase yBase := by
  obtain ⟨hvolatile, hoff, hbase⟩ := of_tests_eq_mustAlias hmust
  exact ⟨by simpa using hvolatile, by simpa [eq_comm] using hoff, hbase⟩

variable {xType yType : PrimitiveType} {xIndex yIndex xCls yCls : Fin insns}
  {env : Fin insns → Value} {yField : FieldInfo}

theorem arrayAlias_eq_mustAlias
    (hmust : graph.arrayAlias mustAlias x y xType yType xBase yBase xIndex yIndex = .mustAlias) :
    x = y ∨ arrayBaseSame mustAlias xBase yBase ∧
      graph.arrayIndexAlias xIndex yIndex = .mustAlias := by
  unfold arrayAlias at hmust
  split at hmust
  next heq => exact .inl heq
  · split at hmust
    next hbase => exact .inr ⟨hbase, hmust⟩
    · split at hmust <;> cases hmust

theorem lhsMemoryArrayAlias_eq_mustAlias
    (hmust : graph.lhsMemoryArrayAlias mustAlias xType yType xBase yBase xIndex yIndex =
      .mustAlias) : arrayBaseSame mustAlias xBase yBase ∧
      graph.arrayIndexAlias xIndex yIndex = .mustAlias := by
  unfold lhsMemoryArrayAlias at hmust
  split at hmust
  next hbase => exact ⟨hbase, hmust⟩
  · split at hmust <;> cases hmust

theorem env_eq_of_sameLoadClass (hreach : Reachable graph world state)
    (hx : Available graph state xCls) (hy : Available graph state yCls)
    (hsame : graph.sameLoadClass xCls yCls) : state.env xCls = state.env yCls := by
  unfold sameLoadClass at hsame
  split at hsame
  next xData yData hxKind hyKind =>
    rw [hreach.env_loadClass (hx.mem_trace hreach) hxKind,
      hreach.env_loadClass (hy.mem_trace hreach) hyKind,
      of_decide_eq_true hsame]
  · cases hsame

theorem aliasOtherField_ne_mustAlias (field : FieldInfo) : aliasOtherField field ≠ .mustAlias := by
  unfold aliasOtherField
  split <;> exact nofun

variable (graph state mustAlias) in
/-- The operands of two accesses are available, and bases that are said to alias
have the same value. -/
structure BasesAgree (x y : Fin insns) : Prop where
  left : ∀ index, index < (graph.kind x).arity → Available graph state (graph.inputAt x index)
  right : ∀ index, index < (graph.kind y).arity → Available graph state (graph.inputAt y index)
  same : ∀ xBase yBase, ComparesBases graph x y xBase yBase → mustAlias xBase yBase = true →
    state.env xBase = state.env yBase

theorem location_field (field : FieldInfo)
    (hkind : graph.kind x = .instanceFieldGet field ∨ graph.kind x = .instanceFieldSet field ∨
      graph.kind x = .staticFieldGet field ∨ graph.kind x = .staticFieldSet field) :
    graph.location env x = fieldLocation (env (graph.inputAt x 0)) field.fieldOffset := by
  unfold location
  rcases hkind with hkind | hkind | hkind | hkind <;> rw [hkind]

theorem location_array (type : PrimitiveType)
    (hkind : graph.kind x = .arrayGet type ∨ graph.kind x = .arraySet type) : graph.location env x =
      elementLocation (env (graph.inputAt x 0)) (env (graph.inputAt x 1)) := by
  unfold location
  rcases hkind with hkind | hkind <;> rw [hkind]

theorem instanceAlias_eq_mustAlias [DecidableEq Class]
    (hmust : graph.instanceAlias world.isAssignableFrom mustAlias xField yField xBase yBase =
      .mustAlias) : xField = yField ∧ xField.isVolatile = false ∧
      graph.instanceBaseSame mustAlias xBase yBase := by
  obtain ⟨hvolatile, hagree, hbase⟩ := of_tests_eq_mustAlias hmust
  push Not at hagree
  rw [Bool.not_eq_true, Bool.or_eq_false_iff] at hvolatile
  exact ⟨FieldInfo.eq_of_plain hvolatile.1 hvolatile.2 hagree.1 hagree.2.1, hvolatile.1, hbase⟩

theorem staticAlias_eq_mustAlias [DecidableEq Class]
    (hmust : graph.staticAlias world.isAssignableFrom xField yField xCls yCls = .mustAlias) :
    xField.fieldOffset = yField.fieldOffset ∧ (xCls = yCls ∨ graph.sameLoadClass xCls yCls) := by
  obtain ⟨-, hagree, hcls⟩ := of_tests_eq_mustAlias hmust
  push Not at hagree
  exact ⟨hagree.1, hcls⟩

section Location

variable (hreach : Reachable graph world state) (hbases : BasesAgree graph state mustAlias x y)

include hreach hbases

theorem location_eq_of_aliasArray
    (hkindX : graph.kind x = .arrayGet xType ∨ graph.kind x = .arraySet xType)
    (hmust : graph.aliasArray mustAlias x y xType = .mustAlias) :
    graph.location state.env x = graph.location state.env y := by
  unfold aliasArray at hmust
  cases hkind : graph.kind y <;> simp only [hkind] at hmust
  case arrayGet yType | arraySet yType =>
    rcases arrayAlias_eq_mustAlias hmust with heq | ⟨hsame, hindex⟩
    · rw [heq]
    have hxIndex := hbases.left 1
      (by rcases hkindX with h | h <;> rw [h] <;> exact one_lt_succ_succ _)
    have hyIndex := hbases.right 1 (by rw [hkind]; exact one_lt_succ_succ _)
    have hcompares : ComparesBases graph x y (graph.inputAt x 0) (graph.inputAt y 0) :=
      .element (by rcases hkindX with h | h <;> simp only [elementIndex, h])
        (by simp only [elementIndex, hkind]) hindex
    rw [location_array _ hkindX, location_array yType (by tauto),
      env_eq_of_arrayBaseSame (hbases.same _ _ hcompares) hsame,
      env_eq_of_arrayIndexAlias hreach hxIndex hyIndex hindex]
  case instanceFieldGet | instanceFieldSet | staticFieldGet | staticFieldSet =>
    exact absurd hmust (aliasOtherField_ne_mustAlias _)
  case addLHSMemory => split at hmust <;> cases hmust
  all_goals exact absurd hmust (aliasOther_ne_mustAlias _)

theorem location_eq_of_aliasLHSMemory (hkindX : graph.kind x = .addLHSMemory xOffset xType)
    (hmust : graph.aliasLHSMemory mustAlias x y xOffset xType = .mustAlias) :
    graph.location state.env x = graph.location state.env y := by
  unfold aliasLHSMemory at hmust
  have hx : ∀ i < 2, Available graph state (graph.inputAt x i) := by
    intro i hindex
    exact hbases.left i (by rw [hkindX]; exact hindex)
  cases hindex : graph.getIndex x <;> cases hkind : graph.kind y <;>
    simp only [hkind, hindex] at hmust
  case none.instanceFieldGet yField | none.instanceFieldSet yField | none.staticFieldGet yField
      | none.staticFieldSet yField =>
    obtain ⟨hvolatile, hoff, hsame⟩ := lhsMemoryFieldAlias_eq_mustAlias hmust
    have hyBase := hbases.right 0 (by rw [hkind]; exact zero_lt_succ _)
    have hadded : graph.addedOffset x = some yField.fieldOffset := by
      simp only [addedOffset, hkindX, hindex, hoff]
    have hplain : ∃ isStatic, graph.plainField y = some (isStatic, yField) := by
      simp [plainField, hkind, hvolatile]
    obtain ⟨isStatic, hplain⟩ := hplain
    have hloc : graph.location state.env x =
        fieldLocation (state.env (graph.inputAt x 0)) xOffset := by
      simp only [location, hkindX, hindex]
    rw [hloc, location_field yField (by tauto), hoff,
      env_eq_of_instanceBaseSame hreach (hx 0 (by decide)) hyBase
        (hbases.same _ _ (.addedLeft hadded hplain)) hsame]
  case some.arrayGet i yType | some.arraySet i yType =>
    obtain ⟨hsame, hindexAlias⟩ := lhsMemoryArrayAlias_eq_mustAlias hmust
    have hindexEq := getIndex_eq_some hindex
    have hxIndex : Available graph state i := hindexEq ▸ hx 1 (by decide)
    have hyIndex := hbases.right 1 (by rw [hkind]; exact one_lt_succ_succ _)
    have hloc : graph.location state.env x =
        elementLocation (state.env (graph.inputAt x 0)) (state.env i) := by
      simp only [location, hkindX, hindex]
    have hcompares : ComparesBases graph x y (graph.inputAt x 0) (graph.inputAt y 0) :=
      .element (by simp only [elementIndex, hkindX, hindex])
        (by simp only [elementIndex, hkind]) hindexAlias
    rw [hloc, location_array yType (by tauto),
      env_eq_of_arrayBaseSame (hbases.same _ _ hcompares) hsame,
      env_eq_of_arrayIndexAlias hreach hxIndex hyIndex hindexAlias]
  all_goals first
    | cases hmust
    | exact absurd hmust (aliasOther_ne_mustAlias _)

variable [DecidableEq Class]

theorem location_eq_of_aliasInstanceField
    (hkindX : graph.kind x = .instanceFieldGet xField ∨ graph.kind x = .instanceFieldSet xField)
    (hmust : graph.aliasInstanceField world.isAssignableFrom mustAlias x y xField = .mustAlias) :
    graph.location state.env x = graph.location state.env y := by
  unfold aliasInstanceField at hmust
  split at hmust
  next heq => rw [heq]
  cases hkind : graph.kind y <;> simp only [hkind] at hmust
  case instanceFieldGet yField | instanceFieldSet yField =>
    obtain ⟨rfl, hvolatile, hsame⟩ := instanceAlias_eq_mustAlias hmust
    have hxBase := hbases.left 0 (by rcases hkindX with h | h <;> rw [h] <;> exact zero_lt_succ _)
    have hyBase := hbases.right 0 (by rw [hkind]; exact zero_lt_succ _)
    have hcompares := ComparesBases.field (plainField_of_instance hvolatile hkindX)
      (plainField_of_instance hvolatile (by tauto : graph.kind y = _ ∨ graph.kind y = _))
    have hvalue := env_eq_of_instanceBaseSame hreach hxBase hyBase
      (hbases.same _ _ hcompares) hsame
    rw [location_field xField (by tauto), location_field xField (by tauto), hvalue]
  case staticFieldGet | staticFieldSet => exact absurd hmust (aliasOtherField_ne_mustAlias _)
  case arrayGet | arraySet => cases hmust
  case addLHSMemory => split at hmust <;> cases hmust
  all_goals exact absurd hmust (aliasOther_ne_mustAlias _)

theorem location_eq_of_aliasStaticField
    (hkindX : graph.kind x = .staticFieldGet xField ∨ graph.kind x = .staticFieldSet xField)
    (hmust : graph.aliasStaticField world.isAssignableFrom x y xField = .mustAlias) :
    graph.location state.env x = graph.location state.env y := by
  unfold aliasStaticField at hmust
  split at hmust
  next heq => rw [heq]
  cases hkind : graph.kind y <;> simp only [hkind] at hmust
  case staticFieldGet yField | staticFieldSet yField =>
    obtain ⟨hoff, hcls⟩ := staticAlias_eq_mustAlias hmust
    have hxCls := hbases.left 0 (by rcases hkindX with h | h <;> rw [h] <;> exact zero_lt_succ _)
    have hyCls := hbases.right 0 (by rw [hkind]; exact zero_lt_succ _)
    have hvalue : state.env (graph.inputAt x 0) = state.env (graph.inputAt y 0) := by
      rcases hcls with heq | hsame
      · rw [heq]
      · exact env_eq_of_sameLoadClass hreach hxCls hyCls hsame
    rw [location_field xField (by tauto), location_field yField (by tauto), hvalue, hoff]
  case instanceFieldGet | instanceFieldSet => exact absurd hmust (aliasOtherField_ne_mustAlias _)
  case arrayGet | arraySet => cases hmust
  case addLHSMemory => split at hmust <;> cases hmust
  all_goals exact absurd hmust (aliasOther_ne_mustAlias _)

theorem location_eq_of_aliasOrdered
    (hmust : graph.aliasOrdered world.isAssignableFrom mustAlias x y = .mustAlias) :
    graph.location state.env x = graph.location state.env y := by
  unfold aliasOrdered at hmust
  cases hkind : graph.kind x <;> simp only [hkind] at hmust
  case instanceFieldGet | instanceFieldSet =>
    exact location_eq_of_aliasInstanceField hreach hbases (by tauto) hmust
  case staticFieldGet | staticFieldSet =>
    exact location_eq_of_aliasStaticField hreach hbases (by tauto) hmust
  case arrayGet | arraySet => exact location_eq_of_aliasArray hreach hbases (by tauto) hmust
  case addLHSMemory => exact location_eq_of_aliasLHSMemory hreach hbases hkind hmust
  all_goals exact absurd hmust (aliasOther_ne_mustAlias _)

end Location

variable [DecidableEq Class]

theorem isAccess_of_aliasOrdered
    (hmust : graph.aliasOrdered world.isAssignableFrom mustAlias x y = .mustAlias) :
    (graph.kind x).isAccess ∧ (graph.kind y).isAccess := by
  cases haccessX : (graph.kind x).isAccess with
  | false =>
    rw [aliasOrdered_of_not_access haccessX] at hmust
    exact absurd hmust (aliasOther_ne_mustAlias _)
  | true =>
    cases haccessY : (graph.kind y).isAccess with
    | false =>
      rw [aliasOrdered_of_access_of_not_access haccessX haccessY] at hmust
      exact absurd hmust (aliasOther_ne_mustAlias _)
    | true => exact ⟨rfl, rfl⟩

theorem isAccess_of_aliasCheck (hmust : graph.aliasCheck world.isAssignableFrom x y = .mustAlias) :
    (graph.kind x).isAccess ∧ (graph.kind y).isAccess := by
  rcases le_total x y with hle | hle
  · rw [aliasCheck_of_le hle] at hmust
    exact isAccess_of_aliasOrdered hmust
  · rw [aliasCheck_comm, aliasCheck_of_le hle] at hmust
    exact (isAccess_of_aliasOrdered hmust).symm

section BaseChain

omit [DecidableEq Class]

/-- What two loads have found in a location that both of them read. -/
def SawSame (graph : HGraph Class insns) (state : State insns) (xLoad yLoad : Fin insns) : Prop :=
  ∀ location, graph.location state.env xLoad = some location →
    graph.location state.env yLoad = some location →
    state.seen xLoad location = state.seen yLoad location

/-- The bases that are compared for two accesses, the bases of the loads that
compute these, and so on. -/
def BaseChain (graph : HGraph Class insns) : Fin insns × Fin insns → Fin insns × Fin insns → Prop :=
  Relation.TransGen fun accesses bases =>
    ComparesBases graph accesses.1 accesses.2 bases.1 bases.2

/-- Two loads on the chain of the bases have found the same contents if they read
one location: no store in between has changed it. -/
def BasesStable (graph : HGraph Class insns) (state : State insns) (x y : Fin insns) : Prop :=
  ∀ bases, BaseChain graph (x, y) bases → SawSame graph state bases.1 bases.2

/-- Only the bases of accesses are compared. -/
theorem ComparesBases.isAccess {xBase yBase : Fin insns}
    (hbases : ComparesBases graph x y xBase yBase) : (graph.kind x).isAccess := by
  cases hbases with
  | field hx | addedLeft hx | addedRight hx | element hx =>
    cases hkind : graph.kind x <;>
      simp [plainField, addedOffset, elementIndex, hkind, Kind.isAccess] at hx ⊢

theorem arrayIndexAlias_comm (x y : Fin insns) :
    graph.arrayIndexAlias x y = graph.arrayIndexAlias y x := by
  simp only [arrayIndexAlias, @eq_comm _ (graph.skipBoundsCheck x)]
  split
  · rfl
  · cases graph.kind (graph.skipBoundsCheck x) <;> cases graph.kind (graph.skipBoundsCheck y) <;>
      simp only [eq_comm]

theorem ComparesBases.symm {xBase yBase : Fin insns}
    (hbases : ComparesBases graph x y xBase yBase) :
    ComparesBases graph y x yBase xBase := by
  cases hbases with
  | field hx hy => exact .field hy hx
  | addedLeft hx hy => exact .addedRight hy hx
  | addedRight hx hy => exact .addedLeft hy hx
  | element hx hy hindex => exact .element hy hx (by rwa [arrayIndexAlias_comm])

theorem BasesStable.symm (hstable : BasesStable graph state x y) : BasesStable graph state y x := by
  intro bases hchain location hy hx
  have hchain : BaseChain graph (x, y) bases.swap :=
    hchain.lift Prod.swap fun _ _ hbases => hbases.symm
  exact (hstable _ hchain location hx hy).symm

theorem BasesStable.mono {xBase yBase : Fin insns} (hstable : BasesStable graph state x y)
    (hbases : ComparesBases graph x y xBase yBase) : BasesStable graph state xBase yBase :=
  fun bases hchain => hstable bases (.head hbases hchain)

end BaseChain

/-- Accesses that must alias go to the same location, by induction on the ranks
of the accesses and, below them, of the loads that compute their bases. -/
theorem Reachable.location_eq_of_mustAlias (hreach : Reachable graph world state) (ranks : ℕ)
    (hranks : graph.rank x + graph.rank y < ranks) (hx : OperandsAvailable graph state x)
    (hy : OperandsAvailable graph state y) (hstable : BasesStable graph state x y)
    (hmust : graph.aliasCheck world.isAssignableFrom x y = .mustAlias) :
    graph.location state.env x = graph.location state.env y := by
  induction ranks generalizing x y with
  | zero => exact absurd hranks (not_lt_zero _)
  | succ ranks ih =>
    wlog hle : x ≤ y generalizing x y
    · rw [aliasCheck_comm] at hmust
      exact (this (by omega) hy hx hstable.symm hmust (le_of_not_ge hle)).symm
    obtain ⟨hxAccess, hyAccess⟩ := isAccess_of_aliasCheck hmust
    have hxInput := inputAt_mem (arity_pos_of_isAccess hxAccess)
    have hyInput := inputAt_mem (arity_pos_of_isAccess hyAccess)
    have hxRank := rank_inputAt_lt (arity_pos_of_isAccess hxAccess)
    have hyRank := rank_inputAt_lt (arity_pos_of_isAccess hyAccess)
    have hxBase := hx 0 (arity_pos_of_isAccess hxAccess)
    have hyBase := hy 0 (arity_pos_of_isAccess hyAccess)
    -- Loads that compute the bases and alias have found the same contents in the same location.
    have hsame : ∀ a b, Available graph state a → Available graph state b →
        graph.rank a ≤ graph.rank (graph.inputAt x 0) →
        graph.rank b ≤ graph.rank (graph.inputAt y 0) → ComparesBases graph x y a b →
        (graph.kind a).producesValue = true → (graph.kind b).producesValue = true →
        graph.aliasCheck world.isAssignableFrom a b = .mustAlias →
        state.env a = state.env b := by
      intro a b ha hb haRank hbRank hcompares haProduces hbProduces hbases
      have hloc := ih (by omega) ha.operands hb.operands (hstable.mono hcompares) hbases
      obtain ⟨haAccess, hbAccess⟩ := isAccess_of_aliasCheck hbases
      obtain ⟨location, haLocation, haValue⟩ := ha.env_load hreach haAccess haProduces
      obtain ⟨location', hbLocation, hbValue⟩ := hb.env_load hreach hbAccess hbProduces
      obtain rfl : location = location' := by
        rw [haLocation, hbLocation] at hloc
        exact some.inj hloc
      rw [haValue, hbValue, hstable (a, b) (.single hcompares) _ haLocation hbLocation]
    rw [aliasCheck_of_le hle] at hmust
    refine location_eq_of_aliasOrdered hreach ⟨hx, hy, fun xBase yBase hcompares hbases => ?_⟩ hmust
    have hbases := of_decide_eq_true hbases
    have hpair := hcompares
    cases hcompares with
    | field | addedLeft | addedRight =>
      exact hsame _ _ hxBase.skipNullCheck hyBase.skipNullCheck
        (rank_skipNullCheck_le _) (rank_skipNullCheck_le _) hpair
        (skipNullCheck_produces hxInput) (skipNullCheck_produces hyInput) hbases
    | element =>
      exact hsame _ _ hxBase hyBase le_rfl le_rfl hpair
        (graph.operands_produce x _ hxInput) (graph.operands_produce y _ hyInput) hbases

/-! ## The analysis is sound -/

variable (graph world state x y) in
/-- What the two definite answers of the analysis promise about an execution. -/
structure AliasSound : Prop where
  no_alias : graph.aliasCheck world.isAssignableFrom x y = .noAlias →
    Disjoint (state.touched x) (state.touched y)
  must_alias : graph.aliasCheck world.isAssignableFrom x y = .mustAlias →
    OperandsAvailable graph state x → OperandsAvailable graph state y →
    graph.location state.env x = graph.location state.env y

section ReloadedBase

/-- `t1 = a.f; a.f = b; t2 = a.f; t1.g; t2.g` on parameters `a` and `b`. -/
def reloadedBase : HGraph Unit 7 where
  kind := ![.other false false false, .other false false false,
    .instanceFieldGet ⟨8, .not, false⟩, .instanceFieldSet ⟨8, .not, false⟩,
    .instanceFieldGet ⟨8, .not, false⟩, .instanceFieldGet ⟨12, .int, false⟩,
    .instanceFieldGet ⟨12, .int, false⟩]
  inputs := ![[], [], [0], [0, 1], [0], [2], [4]]
  referenceTypeInfo _ := none
  flow := ⟨0, ![[1], [2], [3], [4], [5], [6], []]⟩
  rank insn := insn
  reachable := FlowGraph.reachable_of_earlier (by decide)
  arity_le := by decide
  rank_lt := by decide
  operands_dominate := by decide +kernel
  operands_produce := by decide

def reloadedWorld : World Unit where
  isAssignableFrom _ _ := true
  classOf _ := ()
  layout _ offset := some ⟨if offset = 8 then .not else .int, false⟩
  componentType _ := .int
  loadedClass := id

def reloadedHeap : Location → Value
  | .field _ 8 => .object 2
  | _ => .integral 0

def reloadedStart : State 7 where
  trace := []
  env _ := .null
  heap := reloadedHeap
  seen _ := reloadedHeap
  touched _ := ∅

/-- The parameters `a` and `b` are different objects, and `a.f` is a third one. -/
def reloadedRun (insns : List (Fin 7)) : State 7 :=
  run reloadedBase reloadedWorld reloadedStart (insns.map fun insn => (insn, .object insn))

theorem reloadedRun_reachable {insns : List (Fin 7)}
    (hcan : canRun reloadedBase reloadedWorld reloadedStart
      (insns.map fun insn => (insn, .object insn))) :
    Reachable reloadedBase reloadedWorld (reloadedRun insns) :=
  (Reachable.start rfl fun _ => rfl).run hcan

end ReloadedBase

end NougatArt.Heap
