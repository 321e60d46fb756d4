import NougatArt.Heap.ValuePropagation

/-!
# Propagated values are the loaded ones

After the latest execution of a setter in the preheader, an execution that has
reached the loop has only executed instructions that come later in the preheader
and instructions of the loop. As long as none of them writes to the location of
the setter, it holds the value the setter has stored.
-/

namespace NougatArt.Heap

open List Finset HLoopInformation HGraph

variable {Class : Type} {insns : ℕ} {graph : HGraph Class insns} {world : World Class}
  {insn : Fin insns} {before after s : State insns} {kind : Kind}

/-- Instructions that may change the heap. An addition in memory does, although it
is declared without side effects. -/
def Kind.mayWrite : Kind → Bool
  | .addLHSMemory _ _ => true
  | kind => kind.hasWriteSideEffects

/-- Alias analysis is sound for instructions that access the heap. -/
def AliasIsSound [DecidableEq Class] (graph : HGraph Class insns) (world : World Class) : Prop :=
  ∀ state, Reachable graph world state → ∀ x y,
    ((graph.kind x).isAccess || (graph.kind x).mayWrite) = true →
    ((graph.kind y).isAccess || (graph.kind y).mayWrite) = true →
    AliasSound graph world state x y

theorem Step.heap_eq (hstep : Step graph world before insn after)
    (hwrite : (graph.kind insn).mayWrite = false) : after.heap = before.heap := by
  cases haccess : (graph.kind insn).isAccess with
  | false =>
    apply hstep.no_write haccess
    cases hkind : graph.kind insn <;> rw [hkind] at hwrite haccess <;>
      first | exact hwrite | cases haccess
  | true =>
    obtain ⟨loc, -, -, -, helsewhere, hload, -⟩ := hstep.access haccess
    have hproduces : (graph.kind insn).producesValue = true := by
      cases hkind : graph.kind insn <;> rw [hkind] at hwrite <;> first | rfl | cases hwrite
    funext other
    by_cases hother : other = loc
    · rw [hother]
      exact hload hproduces
    · exact helsewhere _ hother

theorem isAccess_of_isFieldSet (hset : kind.isFieldSet) : kind.isAccess := by
  cases kind with
  | instanceFieldSet | staticFieldSet => rfl
  | instanceFieldGet | staticFieldGet | arrayGet | arraySet | addLHSMemory | nullCheck
  | boundsCheck | clinitCheck | loadClass | intConstant | phi | other => cases hset

theorem accessesHeap_of_isFieldGet (hget : kind.isFieldGet) : (kind.isAccess || kind.mayWrite) := by
  cases kind with
  | instanceFieldGet | staticFieldGet => rfl
  | instanceFieldSet | staticFieldSet | arrayGet | arraySet | addLHSMemory | nullCheck
  | boundsCheck | clinitCheck | loadClass | intConstant | phi | other => cases hget

theorem result_of_isFieldGet (hget : (graph.kind insn).isFieldGet)
    {env : Fin insns → Value} {heap : Location → Value} :
    graph.result world env heap insn = (graph.location env insn).map heap := by
  rw [result]
  cases hkind : graph.kind insn with
  | instanceFieldGet | staticFieldGet => rfl
  | instanceFieldSet | staticFieldSet | arrayGet | arraySet | addLHSMemory | nullCheck
  | boundsCheck | clinitCheck | loadClass | intConstant | phi | other =>
    simp [hkind, Kind.isFieldGet] at hget

def StoreFits (graph : HGraph Class insns) (world : World Class) (setter : Fin insns) : Prop :=
  ∀ before after, Reachable graph world before → Step graph world before setter after →
    graph.storedValue before.env setter = some (before.env (graph.inputAt setter 1))

/-- The location of a setter holds its value while only instructions are executed that
do not write to it and do not compute an operand of the setter. -/
theorem Reachable.stored {setter : Fin insns} (hset : (graph.kind setter).isFieldSet)
    (hfits : StoreFits graph world setter) {region : Fin insns → Prop}
    (hregion : ∀ insn, region insn → insn ≠ setter ∧ insn ∉ graph.inputs setter)
    (hquiet : ∀ before insn after, Reachable graph world before →
      Step graph world before insn after → region insn →
      ∀ loc ∈ before.touched setter, after.heap loc = before.heap loc)
    (hreach : Reachable graph world s)
    {inside earlier : List (Fin insns)} (hsplit : s.trace = inside ++ setter :: earlier)
    (hinside : ∀ insn ∈ inside, region insn) :
    ∃ loc, graph.location s.env setter = some loc ∧ loc ∈ s.touched setter ∧
      s.heap loc = s.env (graph.inputAt setter 1) := by
  have harity := arity_of_isFieldSet hset
  refine hreach.of_latest hsplit (fun s => ∃ loc,
    graph.location s.env setter = some loc ∧ loc ∈ s.touched setter ∧
      s.heap loc = s.env (graph.inputAt setter 1)) ?_ ?_
  · intro before after hbefore hstep
    have hops := hstep.env_inputAt setter fun _ => inputAt_ne
    obtain ⟨loc, hloc, -, htouched, -, -, hstored⟩ := hstep.access (isAccess_of_isFieldSet hset)
    refine ⟨loc, ?_, ?_, ?_⟩
    · rw [location_congr rfl rfl hops, hloc]
    · rw [htouched]
      exact Set.mem_insert _ _
    · rw [hops 1 harity]
      exact hstored _ (hfits _ _ hbefore hstep)
  · intro before executed after hbefore hstep hmem ⟨loc, hloc, htouched, hheap⟩
    obtain ⟨hne, hinput⟩ := hregion _ (hinside _ hmem)
    have hops := hstep.env_inputAt setter fun _ hindex heq => hinput (heq ▸ inputAt_mem hindex)
    refine ⟨loc, ?_, ?_, ?_⟩
    · rw [location_congr rfl rfl hops, hloc]
    · rw [hstep.touched_other setter (Ne.symm hne)]
      exact htouched
    · rw [hops 1 harity, ← hheap]
      exact hquiet _ _ _ hbefore hstep (hinside _ hmem) loc htouched

section Candidates

variable [DecidableEq Class] {loop : HLoopInformation graph.flow}

variable {isAssignableFrom : Class → Class → Bool} {setters : List (graph.Setter loop)}

/-- A setter is added to the candidates only if it does not alias any of them. -/
theorem candidateSettersFrom_pairwise {rest : List {insn // insn ∈ loop.preHeader}}
    (hsetters : setters.Pairwise fun first second =>
      graph.aliasCheck isAssignableFrom first.1 second.1 = .noAlias) :
    (graph.candidateSettersFrom loop isAssignableFrom setters rest).Pairwise
      fun first second => graph.aliasCheck isAssignableFrom first.1 second.1 = .noAlias := by
  induction rest generalizing setters with
  | nil => exact hsetters
  | cons insn rest ih =>
    rw [candidateSettersFrom]
    split
    · exact hsetters
    · split
      · split
        next hall =>
          refine ih (pairwise_cons.mpr ⟨fun setter hsetter => ?_, hsetters⟩)
          rw [aliasCheck_comm]
          exact of_decide_eq_true (all_eq_true.mp hall _ hsetter)
        · exact ih hsetters
      · exact ih hsetters

theorem noAlias_of_mem_candidates {first second : graph.Setter loop}
    (hfirst : first ∈ graph.getCandidateSetters loop isAssignableFrom)
    (hsnd : second ∈ graph.getCandidateSetters loop isAssignableFrom) (hne : first ≠ second) :
    graph.aliasCheck isAssignableFrom first.1 second.1 = .noAlias := by
  have hsymm : Std.Symm fun first second : graph.Setter loop =>
      graph.aliasCheck isAssignableFrom first.1 second.1 = .noAlias :=
    ⟨fun _ _ h => (aliasCheck_comm _ _).trans h⟩
  exact (candidateSettersFrom_pairwise List.Pairwise.nil).forall hfirst hsnd hne

variable (loop isAssignableFrom) in
/-- The search compares the setters that come before with this instruction. -/
def IsCompared (insn : Fin insns) : Prop :=
  ∃ candidate ∈ graph.getCandidateSetters loop isAssignableFrom, candidate.1 = insn

/-- Some getter of the loop must alias the setter, in the graph as rewritten so far. -/
def FindsGetter (isAssignableFrom : Class → Class → Bool) (replacement : Replacement graph)
    (setter : graph.Setter loop) : Prop :=
  ∃ getter ∈ graph.loopGetters loop,
    (graph.replaceUses replacement).aliasCheck isAssignableFrom setter.1 getter = .mustAlias

variable (graph loop) in
/-- What the pass does not check about a setter whose value it uses: writes between
the setter and the loop that it is not compared with, additions in memory in the
loop, and that the field keeps the whole value. -/
structure StoreKept (world : World Class) (setter : graph.Setter loop) : Prop where
  preHeader : ∀ before after, loop.preHeader = before ++ setter.1 :: after →
    ∀ insn ∈ after, (graph.kind insn).mayWrite = true →
    ¬ IsCompared loop world.isAssignableFrom insn →
    ∀ state, Reachable graph world state → Disjoint (state.touched setter.1) (state.touched insn)
  body : ∀ insn ∈ loop.body, (graph.kind insn).mayWrite = true →
    (graph.kind insn).hasWriteSideEffects = false →
    ∀ state, Reachable graph world state → Disjoint (state.touched setter.1) (state.touched insn)
  fits : StoreFits graph world setter.1

def Between (loop : HLoopInformation graph.flow) (after : List (Fin insns))
    (insn : Fin insns) : Prop :=
  insn ∈ after ∨ insn ∈ loop.body

variable {setter : graph.Setter loop}

omit [DecidableEq Class] in
theorem Between.ne_and_notMem_inputs {before after : List (Fin insns)}
    (hsplit : loop.preHeader = before ++ setter.1 :: after) (hbetween : Between loop after insn) :
    insn ≠ setter.1 ∧ insn ∉ graph.inputs setter.1 := by
  have hne : insn ≠ setter.1 := by
    rintro rfl
    rcases hbetween with hafter | hbody
    · have hnodup := loop.preHeader_nodup
      rw [hsplit] at hnodup
      exact (nodup_cons.mp (nodup_append.mp hnodup).2.1).1 hafter
    · exact loop.preHeader_notMem _ setter.2.1 hbody
  have hdom : graph.flow.Dominates setter.1 insn := by
    rcases hbetween with hafter | hbody
    · exact dominates_of_mem_after hsplit hafter
    · exact dominates_of_mem_preHeader setter.2.1 hbody
  refine ⟨hne, fun hinput => hne ?_⟩
  have hphi := kind_ne_phi (arity_of_isFieldSet setter.2.2)
  exact (graph.operands_dominate setter.1 hphi _ hinput).antisymm (graph.reachable setter.1) hdom

theorem accessesHeap_of_isFieldSet (hset : kind.isFieldSet) : (kind.isAccess || kind.mayWrite) := by
  rw [isAccess_of_isFieldSet hset, Bool.true_or]

variable {replacement : Replacement graph}

section

variable (hagrees : Agrees world replacement) (hsound : AliasIsSound graph world)
  (hcur : AliasIsSound (graph.replaceUses replacement) world)
  (hsetter : setter ∈ graph.getCandidateSetters loop world.isAssignableFrom)

include hagrees hsound hcur hsetter

section

variable (hkept : StoreKept graph loop world setter) (hloop : ∀ loopSetter ∈ graph.loopSetters loop,
  (graph.replaceUses replacement).aliasCheck world.isAssignableFrom setter.1 loopSetter = .noAlias)

include hkept hloop

/-- Nothing between a candidate and the end of the loop writes to its location. -/
theorem StoreKept.quiet {first after : List (Fin insns)}
    (hsplit : loop.preHeader = first ++ setter.1 :: after)
    (hbefore : Reachable graph world before) (hstep : Step graph world before insn s)
    (hbetween : Between loop after insn) :
    ∀ loc ∈ before.touched setter.1, s.heap loc = before.heap loc := by
  intro loc hloc
  have hne := (hbetween.ne_and_notMem_inputs hsplit).1
  have hstate : Reachable graph world s := .step hbefore hstep
  have haccess := accessesHeap_of_isFieldSet setter.2.2
  rcases hwrite : (graph.kind insn).mayWrite with _ | _
  · rw [hstep.heap_eq hwrite]
  have hinsn : ((graph.kind insn).isAccess || (graph.kind insn).mayWrite) = true := by
    rw [hwrite, Bool.or_true]
  have hdisj : Disjoint (s.touched setter.1) (s.touched insn) := by
    rcases hbetween with hafter | hbody
    · by_cases hcompared : IsCompared loop world.isAssignableFrom insn
      · obtain ⟨candidate, hmem, rfl⟩ := hcompared
        have hno := noAlias_of_mem_candidates hsetter hmem
          fun heq => hne (congrArg Subtype.val heq).symm
        exact (hsound _ hstate setter.1 candidate.1 haccess hinsn).no_alias hno
      · exact hkept.preHeader _ _ hsplit _ hafter hwrite hcompared _ hstate
    · cases heffects : (graph.kind insn).hasWriteSideEffects with
      | false => exact hkept.body _ hbody hwrite heffects _ hstate
      | true =>
        have hmem : insn ∈ graph.loopSetters loop := by
          rw [HGraph.loopSetters, Finset.mem_filter, heffects, Bool.or_true]
          exact ⟨hbody, rfl⟩
        exact (hcur s (hagrees.reachable hstate) setter.1 _ haccess hinsn).no_alias (hloop _ hmem)
  apply hstep.frame
  intro htouched
  rw [hstep.touched_other setter.1 (Ne.symm hne)] at hdisj
  exact Set.disjoint_left.mp hdisj hloc htouched

/-- A getter that must alias a candidate loads the value of the candidate. -/
theorem StoreKept.env_getter {getter : Fin insns} (hgetter : getter ∈ graph.loopGetters loop)
    (hmust : (graph.replaceUses replacement).aliasCheck world.isAssignableFrom setter.1 getter =
      .mustAlias) (hbefore : Reachable graph world before)
    (hstep : Step graph world before getter after) :
    after.env getter = before.env ((graph.replaceUses replacement).inputAt setter.1 1) := by
  obtain ⟨hbody, hkind⟩ := mem_filter.mp hgetter
  obtain ⟨-, hget⟩ := Bool.and_eq_true_iff.mp hkind
  -- The setter was executed before, and then only what lies between.
  obtain ⟨first, later, hsplit⟩ := append_of_mem setter.2.1
  obtain ⟨inside, earlier, htrace, hinside⟩ :=
    exists_setter_of_mem_body hsplit hbody
      ((Reachable.step hbefore hstep).trace_cons hstep.trace_eq)
  obtain ⟨loc, hloc, -, hheap⟩ := hbefore.stored setter.2.2 hkept.fits
    (fun insn hinsn => Between.ne_and_notMem_inputs hsplit hinsn)
    (fun _ _ _ hbefore hstep hinsn =>
      StoreKept.quiet hagrees hsound hcur hsetter hkept hloop hsplit hbefore hstep hinsn)
    htrace hinside
  -- The getter reads the location of the setter.
  have hdom := dominates_of_mem_preHeader setter.2.1 hbody
  have havail : Available graph before setter.1 := by
    have hne : setter.1 ≠ getter := fun heq => loop.preHeader_notMem _ setter.2.1 (heq ▸ hbody)
    rcases hstep.flows with ⟨hempty, -⟩ | ⟨previous, past, hpast, hedge⟩
    · rw [hempty] at htrace
      simp at htrace
    · exact ⟨previous, past, hpast, hdom.of_edge hne hedge⟩
  have hsetterAgree : OperandsAgree graph replacement before.env setter.1 :=
    fun hphi input hinput => hagrees.env_of_available hbefore (havail.input hphi hinput)
  have hgetterAgree := hagrees.operandsAgree hbefore hstep
  have hrewritten : Available (graph.replaceUses replacement) before setter.1 := havail
  have hsame := (hcur before (hagrees.reachable hbefore) setter.1 getter
    (accessesHeap_of_isFieldSet setter.2.2) (accessesHeap_of_isFieldGet hget)).must_alias hmust
    hrewritten.operands
    fun i hindex => (hstep.replaceUses hgetterAgree).available
      (kind_ne_phi hindex) (inputAt_mem hindex)
  rw [location_replaceUses hsetterAgree, location_replaceUses hgetterAgree, hloc] at hsame
  rw [hsetterAgree.env_inputAt (arity_of_isFieldSet setter.2.2), ← hheap]
  apply hstep.env_result
  rw [result_of_isFieldGet hget, ← hsame]
  rfl

end

theorem Agrees.propagateValue
    (hkept : FindsGetter world.isAssignableFrom replacement setter →
      StoreKept graph loop world setter) :
    Agrees world (graph.propagateValue loop world.isAssignableFrom replacement setter) := by
  unfold HGraph.propagateValue
  dsimp only
  split
  next hloop =>
    intro before insn after hbefore hstep hne
    simp only [replaceGetters] at hne ⊢
    split
    next hgetter =>
      obtain ⟨hmem, hmust⟩ := mem_filter.mp hgetter.1
      exact StoreKept.env_getter hagrees hsound hcur hsetter (hkept ⟨insn, hmem, hmust⟩) hloop
        hmem hmust hbefore hstep
    next hgetter =>
      rw [if_neg hgetter] at hne
      exact hagrees _ _ _ hbefore hstep hne
  · exact hagrees

end

omit [DecidableEq Class] in
theorem Agrees.identity : Agrees world (Replacement.identity graph) :=
  fun _ _ _ _ _ hne => absurd rfl hne

theorem agrees_propagateValueToGetters (hsound : AliasIsSound graph world)
    (hrewritten : ∀ done rest, setters = done ++ rest → AliasIsSound
      (graph.replaceUses (graph.propagateValueToGetters loop world.isAssignableFrom done)) world)
    (hmem : ∀ setter ∈ setters, setter ∈ graph.getCandidateSetters loop world.isAssignableFrom)
    (hkept : ∀ done setter rest, setters = done ++ setter :: rest →
      FindsGetter world.isAssignableFrom
        (graph.propagateValueToGetters loop world.isAssignableFrom done) setter →
      StoreKept graph loop world setter) :
    Agrees world (graph.propagateValueToGetters loop world.isAssignableFrom setters) := by
  induction setters using reverseRecOn with
  | nil => exact .identity
  | append_singleton setters setter ih =>
    have hagrees := ih
      (fun done rest heq => hrewritten done (rest ++ [setter]) (by rw [heq, append_assoc]))
      (fun other hother => hmem other (mem_append_left _ hother))
      (fun done other rest heq => hkept done other (rest ++ [setter]) (by rw [heq]; simp))
    rw [propagateValueToGetters, foldl_append]
    exact hagrees.propagateValue hsound (hrewritten setters [setter] rfl)
      (hmem setter (by simp)) (hkept setters setter [] rfl)

/-- Only getters of the loop are replaced. -/
theorem target_propagateValueToGetters (hinsn : insn ∉ graph.loopGetters loop) :
    (graph.propagateValueToGetters loop isAssignableFrom setters).target insn = insn := by
  induction setters using reverseRecOn with
  | nil => rfl
  | append_singleton setters setter ih =>
    rw [propagateValueToGetters, foldl_append, foldl_cons, foldl_nil]
    simp only [propagateValue]
    split
    · rw [replaceGetters]
      dsimp only
      rw [if_neg fun hgetter => hinsn (mem_filter.mp hgetter.1).1]
      exact ih
    · exact ih

end Candidates

/-- Alias analysis is sound if no base is loaded from the heap and unrelated types
have no common instance. -/
theorem aliasIsSound_of_plain [DecidableEq Class]
    (hplain : ∀ insn, (graph.kind insn).isAccess → ∀ input ∈ graph.inputs insn,
      (graph.kind input).isAccess = false ∧ graph.inputs input = [])
    (hsep : ∀ x y, TypesSeparate graph world x y) : AliasIsSound graph world := by
  have hvisible : ∀ {kind : Kind}, (kind.isAccess || kind.mayWrite) = true →
      kind.hidesAccess = false := by
    intro kind haccess
    cases kind with
    | other doesAnyWrite isMonitorOperation =>
      cases doesAnyWrite <;> cases isMonitorOperation <;> first | rfl | cases haccess
    | instanceFieldGet | instanceFieldSet | staticFieldGet | staticFieldSet | arrayGet
    | arraySet | addLHSMemory | nullCheck | boundsCheck | clinitCheck | loadClass
    | intConstant | phi => rfl
  -- The bases that are compared are operands behind null checks, which are no accesses.
  have hbases : ∀ {x y xBase yBase : Fin insns}, (graph.kind x).isAccess = true →
      ComparesBases graph x y xBase yBase → (graph.kind xBase).isAccess = false := by
    intro x y xBase yBase haccess hcompares
    obtain ⟨hkind, hempty⟩ := hplain _ haccess _ (inputAt_mem (arity_pos_of_isAccess haccess))
    have hskip : graph.skipNullCheck (graph.inputAt x 0) = graph.inputAt x 0 := by
      unfold skipNullCheck
      split
      next hcheck =>
        have hmem : graph.inputAt (graph.inputAt x 0) 0 ∈ graph.inputs (graph.inputAt x 0) :=
          inputAt_mem (by rw [hcheck]; decide)
        rw [hempty] at hmem
        cases hmem
      · rfl
    cases hcompares with
    | field | addedLeft | addedRight => rwa [hskip]
    | element => exact hkind
  intro s hstate x y hx hy
  refine ⟨hstate.disjoint_of_noAlias ⟨?_, ?_, fun _ _ _ => hsep _ _⟩, ?_⟩
  · rw [hvisible hx]
    exact nofun
  · rw [hvisible hy]
    exact nofun
  intro hmust hxOperands hyOperands
  refine hstate.location_eq_of_mustAlias _ (Nat.lt_succ_self _) hxOperands hyOperands ?_ hmust
  intro bases hchain location hlocation
  obtain ⟨first, hfirst, hrest⟩ := Relation.TransGen.head'_iff.mp hchain
  have hkind := hbases (isAccess_of_aliasCheck hmust).1 hfirst
  rcases hrest.cases_head with rfl | ⟨second, hsecond, -⟩
  · rw [location_eq_none hkind] at hlocation
    cases hlocation
  · rw [hsecond.isAccess] at hkind
    cases hkind

/-! ## A setter through a supertype -/

section SuperSetter

inductive SuperClass
  | super
  | t1
  | t2
  deriving DecidableEq

def superFlow : FlowGraph (Fin 12) where
  entry := 0
  succs := ![[1], [2], [3], [4], [5], [6], [7], [8], [9], [10], [9, 11], []]

/-- `a.f = 1; s.f = 2; b.f = 1; do { a.f } while (..)` with `a : T1`, `s : Super` and
`b : T2`; the setter of `s` can be left out. -/
def superSetter (withSuper : Bool) : HGraph SuperClass 12 where
  kind := ![.other false false false, .other false false false, .other false false false,
    .intConstant 1, .intConstant 2, .instanceFieldSet ⟨8, .int, false⟩,
    if withSuper then .instanceFieldSet ⟨8, .int, false⟩ else .other false false false,
    .instanceFieldSet ⟨8, .int, false⟩, .other false false false,
    .instanceFieldGet ⟨8, .int, false⟩, .other false false false, .other false false false]
  inputs := ![[], [], [], [], [], [0, 3], [1, 4], [2, 3], [], [0], [], []]
  referenceTypeInfo := ![some ⟨.t1, false⟩, some ⟨.super, false⟩, some ⟨.t2, false⟩,
    none, none, none, none, none, none, none, none, none]
  flow := superFlow
  rank insn := insn
  reachable := FlowGraph.reachable_of_earlier (by decide)
  arity_le := by cases withSuper <;> decide
  rank_lt := by cases withSuper <;> decide
  operands_dominate := by cases withSuper <;> decide +kernel
  operands_produce := by cases withSuper <;> decide

def superWorld : World SuperClass where
  isAssignableFrom target source := target = source || target = .super
  classOf value := if value = .object 2 then .t2 else .t1
  layout _ _ := some ⟨.int, false⟩
  componentType _ := .int
  loadedClass := id

def superLoop : HLoopInformation superFlow where
  header := 9
  body := {9, 10}
  header_mem := by decide
  entry_notMem := by decide
  header_reachable := FlowGraph.reachable_of_earlier (by decide) 9
  entered_at_header := by decide
  numberOfBlocks := 1
  preHeader := [5, 6, 7, 8]
  preHeader_nodup := by decide
  preHeader_notMem := by decide
  entered_from_preHeader := by decide
  falls_through := by decide

/-- The setter through `s` is executed on the object `a`. -/
def superStart : State 12 where
  trace := []
  env _ := .null
  heap _ := .integral 0
  seen _ _ := .integral 0
  touched _ := ∅

def superSchedule : List (Fin 12 × Value) :=
  [(0, .object 0), (1, .object 0), (2, .object 2), (3, .null), (4, .null), (5, .null),
    (6, .null), (7, .null), (8, .null)]

theorem superWorld_separate (graph : HGraph SuperClass 12) (x y : Fin 12) :
    TypesSeparate graph superWorld x y := by
  intro xRti yRti _ _ hxy hyx cls hcls
  cases hx : xRti.typeHandle <;> cases hy : yRti.typeHandle <;> cases cls <;>
    simp [superWorld, hx, hy] at hxy hyx hcls

theorem superSetter_plain (withSuper : Bool) (insn : Fin 12) :
    ∀ input ∈ (superSetter withSuper).inputs insn,
      input ∉ (superSetter withSuper).loopGetters superLoop ∧
        ((superSetter withSuper).kind input).isAccess = false ∧
        (superSetter withSuper).inputs input = [] := by
  revert insn
  cases withSuper <;> decide

theorem superSetter_aliasIsSound (withSuper : Bool) :
    AliasIsSound (superSetter withSuper) superWorld :=
  aliasIsSound_of_plain (fun insn _ input hinput => (superSetter_plain _ insn input hinput).2)
    (superWorld_separate _)

/-- The getter has no uses, so the rewritten graphs have the same operands. -/
theorem superSetter_rewritten_aliasIsSound (withSuper : Bool)
    (setters : List ((superSetter withSuper).Setter superLoop)) :
    AliasIsSound ((superSetter withSuper).replaceUses
      ((superSetter withSuper).propagateValueToGetters superLoop superWorld.isAssignableFrom
        setters)) superWorld := by
  have hinputs : ∀ insn, ((superSetter withSuper).replaceUses
      ((superSetter withSuper).propagateValueToGetters superLoop superWorld.isAssignableFrom
        setters)).inputs insn = (superSetter withSuper).inputs insn := by
    intro insn
    refine (map_congr_left fun input hinput => ?_).trans (map_id _)
    exact target_propagateValueToGetters (superSetter_plain _ _ _ hinput).1
  refine aliasIsSound_of_plain (fun insn _ input hinput => ?_) (superWorld_separate _)
  rw [hinputs] at hinput ⊢
  exact (superSetter_plain _ _ _ hinput).2

end SuperSetter

end NougatArt.Heap
