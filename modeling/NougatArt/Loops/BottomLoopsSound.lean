import NougatArt.Loops.BottomLoopsFixup

/-!
# Bottom tested loops compute what the loop computed

The original loop and the rewritten one run along the same blocks, but for the header
of all iterations after the first, which the rewritten loop executes as clones at the
end of the back edge block. Three relations between the states are carried along: in
the header the first time, in the clones, and in the body of the loop or at its exit.
-/

namespace NougatArt.BottomLoops

open List Bool HLoopInformation Code SsaGraph NaturalLoop Target FBLContext

variable {blocks insns : ℕ} {graph : HGraph blocks insns} {loop : HLoopInformation graph}
  {exit src b : Fin blocks} {list : List (Fin insns)} {user input : Fin insns}

/-! ## What the gate ensures -/

/-- A loop whose only exit edge leaves from the header. -/
structure TopTested (loop : HLoopInformation graph) (exit : Fin blocks) : Prop where
  exit_mem : exit ∈ graph.code.succs loop.header
  exit_notMem : exit ∉ loop.body
  first_mem : loop.firstBlock exit ∈ graph.code.succs loop.header
  first_body : loop.firstBlock exit ∈ loop.body
  header_succs : ∀ target ∈ graph.code.succs loop.header,
    target = exit ∨ target = loop.firstBlock exit
  two_succs : 1 < (graph.code.succs loop.header).length
  leaves : ∀ block ∈ loop.body, ∀ target ∈ graph.code.succs block, target ∉ loop.body →
    block = loop.header ∧ target = exit
  back_body : loop.backBlock ∈ loop.body
  back_mem : loop.header ∈ graph.code.succs loop.backBlock
  back_unique : ∀ block ∈ loop.body, loop.header ∈ graph.code.succs block → block = loop.backBlock

theorem topTested_of_shouldTransformLoop (hgate : loop.shouldTransformLoop exit) :
    TopTested loop exit := by
  simp only [shouldTransformLoop, and_eq_true, decide_eq_true_eq] at hgate
  obtain ⟨⟨⟨⟨⟨⟨⟨hexit, -⟩, hif⟩, hback⟩, hmem⟩, -⟩, -⟩, -⟩ := hgate
  have htargets := exitTargets_of_onlyExit hexit
  have htwo := graph.if_succs loop.header hif
  have hexitTarget : exit ∈ loop.exitTargets := by
    rw [htargets]
    exact mem_singleton_self _
  have hout : exit ∉ loop.body := by
    obtain ⟨b, -, hblock⟩ := mem_flatMap.mp hexitTarget
    simpa using (mem_filter.mp hblock).2
  -- Both successors outside of the loop would be two exit edges.
  have hfilter : ((graph.code.succs loop.header).filter (· ∉ loop.body)).length ≤ 1 := by
    have hsublist : ((graph.code.succs loop.header).filter (· ∉ loop.body)).Sublist
        loop.exitTargets :=
      sublist_flatten_of_mem (mem_map.mpr
        ⟨loop.header, mem_vertexList.mpr loop.header_mem, rfl⟩)
    rw [htargets] at hsublist
    exact hsublist.length_le
  obtain ⟨ifTrue, ifFalse, hsuccs⟩ := length_eq_two.mp htwo
  have hfirst : loop.firstBlock exit ∈ graph.code.succs loop.header ∧
      loop.firstBlock exit ∈ loop.body ∧ ∀ t ∈ graph.code.succs loop.header,
        t = exit ∨ t = loop.firstBlock exit := by
    rw [firstBlock, hsuccs]
    rw [hsuccs] at hmem hfilter
    dsimp only
    by_cases htrue : ifTrue = exit
    · rw [if_pos htrue]
      refine ⟨by simp, ?_, by simp [htrue]⟩
      by_contra hfalse
      rw [filter_cons_of_pos (by simpa [htrue] using hout),
        filter_cons_of_pos (by simpa using hfalse)] at hfilter
      simp at hfilter
    · have hfalse : ifFalse = exit := by
        rcases mem_cons.mp hmem with heq | hmem
        · exact absurd heq.symm htrue
        · exact (mem_singleton.mp hmem).symm
      rw [if_neg htrue]
      refine ⟨by simp, ?_, by simp [hfalse]⟩
      by_contra hnot
      rw [filter_cons_of_pos (by simpa using hnot),
        filter_cons_of_pos (by simpa [hfalse] using hout)] at hfilter
      simp at hfilter
  obtain ⟨back, hbacks⟩ := length_eq_one_iff.mp hback
  have hbackBlock : loop.backBlock = back := by
    rw [backBlock, hbacks]
    rfl
  have hbackEdge : loop.BackEdge back := by
    rw [← mem_backEdgeList, ← getBackEdges, hbacks]
    exact mem_singleton_self back
  refine ⟨hmem, hout, hfirst.1, hfirst.2.1, hfirst.2.2, by omega, ?_, ?_, ?_, ?_⟩
  · intro b hblock t hedge htarget
    obtain rfl := eq_of_onlyExit hexit hblock hedge htarget
    exact ⟨graph.no_critical_edges loop.header (by omega) _ hmem _ hedge, rfl⟩
  · rw [hbackBlock]
    exact hbackEdge.1
  · rw [hbackBlock]
    exact hbackEdge.2
  · intro b hblock hedge
    have hother : b ∈ loop.getBackEdges := mem_backEdgeList.mpr ⟨hblock, hedge⟩
    rw [hbacks] at hother
    rw [hbackBlock]
    exact mem_singleton.mp hother

namespace TopTested

variable (htop : TopTested loop exit)

include htop

theorem succs_back : graph.code.succs loop.backBlock = [loop.header] := by
  have hmem := htop.back_mem
  by_cases htwo : 1 < (graph.code.succs loop.backBlock).length
  · have hback := graph.no_critical_edges loop.backBlock htwo loop.header hmem loop.preHeader
      loop.preHeader_succs
    exact absurd htop.back_body (hback ▸ loop.preHeader_notMem)
  · obtain ⟨t, hsuccs⟩ : ∃ t, graph.code.succs loop.backBlock = [t] := by
      rw [← length_eq_one_iff]
      have := length_pos_of_mem hmem
      omega
    rw [hsuccs] at hmem ⊢
    rw [mem_singleton.mp hmem]

theorem header_notMem_succs : loop.header ∉ graph.code.succs loop.header := by
  intro hedge
  have hheader := graph.no_critical_edges loop.header htop.two_succs loop.header hedge
    loop.preHeader loop.preHeader_succs
  exact loop.preHeader_notMem (hheader ▸ loop.header_mem)

theorem first_ne_header : loop.firstBlock exit ≠ loop.header := by
  intro heq
  apply htop.header_notMem_succs
  have hmem := htop.first_mem
  rwa [heq] at hmem

theorem back_ne_header : loop.backBlock ≠ loop.header := by
  intro heq
  apply htop.header_notMem_succs
  have hmem := htop.back_mem
  rwa [heq] at hmem

theorem exit_ne_header : exit ≠ loop.header := fun heq => htop.exit_notMem (heq ▸ loop.header_mem)

theorem exit_ne_first : exit ≠ loop.firstBlock exit := fun heq =>
  htop.exit_notMem (heq ▸ htop.first_body)

theorem first_predecessor
    (hedge : loop.firstBlock exit ∈ graph.code.succs src) : src = loop.header :=
  graph.no_critical_edges loop.header htop.two_succs _ htop.first_mem _ hedge

theorem phis_first : graph.code.phis (loop.firstBlock exit) = [] :=
  graph.phis_of_one_predecessor loop.header _ fun _ hedge => htop.first_predecessor hedge

theorem phis_exit : graph.code.phis exit = [] :=
  graph.phis_of_one_predecessor loop.header _ fun src hedge =>
    graph.no_critical_edges loop.header htop.two_succs _ htop.exit_mem src hedge

end TopTested

/-! ## Degenerate phis -/

section Resolved

variable {Value Store : Type} {m : Machine HInstruction Value Store}
  {start state : Code.State (Fin insns) Value Store} {env : Fin insns → Value}

/-- Degenerate phis have the values that are used instead of them. -/
def Resolved (loop : HLoopInformation graph) (env : Fin insns → Value) : Prop :=
  ∀ insn, env (loop.resolve insn) = env insn

theorem resolved_iff : Resolved loop env ↔ ∀ phi ∈ graph.code.phis loop.header,
      graph.code.phiInput phi loop.backBlock = phi →
        env (graph.code.phiInput phi loop.preHeader) = env phi := by
  simp only [Resolved, resolve, isDegenerate, and_eq_true, decide_eq_true_eq]
  constructor
  · intro hresol phi hphi hback
    have hvalue := hresol phi
    rwa [if_pos ⟨hphi, hback⟩] at hvalue
  · intro hvalue insn
    split
    next hdegen => exact hvalue insn hdegen.1 hdegen.2
    · rfl

theorem Resolved.operands (hresol : Resolved loop env)
    (insn : Fin insns) : graph.code.operands env insn = (loop.inputs insn).map env := by
  rw [Code.operands, HLoopInformation.inputs, List.map_map]
  exact map_congr_left fun input _ => (hresol input).symm

theorem Resolved.steps (hblock : b ∈ loop.body)
    {after : Code.State (Fin insns) Value Store} (hresol : Resolved loop state.env)
    (hinsns : ∀ insn ∈ list, insn ∈ graph.code.instructions b)
    (hsteps : graph.code.steps m state list = some after) : Resolved loop after.env := by
  rw [resolved_iff] at hresol ⊢
  intro phi hphi hback
  have hinput : graph.code.phiInput phi loop.preHeader ∉ list := by
    intro hmem
    apply loop.phiInput_preHeader_notMem hphi
    rwa [getBlock_of_mem_instructions (hinsns _ hmem)]
  have hnot : phi ∉ list := fun hmem => notMem_phis_of_mem_instructions (hinsns phi hmem) _ hphi
  rw [steps_env_of_notMem hsteps hinput, steps_env_of_notMem hsteps hnot]
  exact hresol phi hphi hback

/-- Degenerate phis keep the values from the preheader. -/
theorem resolved_of_loopRun (htop : TopTested loop exit) {path : List (Fin blocks)}
    (hrun : Code.LoopRun graph.code m loop.toNaturalLoop loop.preHeader start path state) :
    Resolved loop state.env := by
  have hout : ∀ phi ∈ graph.code.phis loop.header, ∀ b ∈ loop.body,
      graph.code.phiInput phi loop.preHeader ∉ graph.code.phis b := by
    intro phi hphi b hblock hmem
    apply loop.phiInput_preHeader_notMem hphi
    rwa [getBlock_of_mem_phis hmem]
  induction hrun with
  | enter =>
    rw [resolved_iff]
    intro phi hphi _
    rw [enter_env_of_mem hphi, enter_env_of_notMem (hout phi hphi _ loop.header_mem)]
  | @step b t past state after hrun hsteps hnext hbody ih =>
    have hblock := hrun.mem_body _ mem_cons_self
    have hafter := resolved_iff.mp (ih.steps hblock (fun _ hinsn => hinsn) hsteps)
    rw [resolved_iff]
    intro phi hphi hback
    rw [enter_env_of_notMem (hout phi hphi _ hbody), hafter phi hphi hback]
    by_cases htarget : t = loop.header
    · subst htarget
      obtain rfl := htop.back_unique _ hblock (next_mem hnext)
      rw [enter_env_of_mem hphi, hback]
    · have hnot : phi ∉ graph.code.phis t := fun hmem =>
        htarget ((getBlock_of_mem_phis hmem).symm.trans (getBlock_of_mem_phis hphi))
      rw [enter_env_of_notMem hnot]

end Resolved

/-! ## Positions of users -/

theorem mem_users_of_mem_inputs
    (huser : user ∉ graph.code.phis (graph.getBlock user)) (hinput : input ∈ loop.inputs user) :
    user ∈ loop.users input := by
  have hdegen : loop.isDegenerate user = false := by
    rw [eq_false_iff]
    intro hdegen
    have hphi := mem_phis_of_isDegenerate hdegen
    rw [getBlock_of_mem_phis hphi] at huser
    exact huser hphi
  rw [users, mem_filter, allInputs, if_neg huser, hdegen]
  exact ⟨mem_finRange user, by simpa using hinput⟩

variable {insn phi : Fin insns}

theorem position_of_mem_body (hne : graph.getBlock insn ≠ loop.header)
    (hbody : graph.getBlock insn ∈ loop.body) : loop.getInstructionPosition insn = .backEdge := by
  rw [getInstructionPosition, if_pos hne, if_pos hbody, ite_self]

theorem position_of_outside (hout : graph.getBlock insn ∉ loop.body) :
    loop.getInstructionPosition insn = .exit := by
  have hne : graph.getBlock insn ≠ loop.header := fun heq => hout (heq ▸ loop.header_mem)
  have hsusp : loop.suspendCheck ≠ some insn := by
    intro hsusp
    exact hne (getBlock_of_mem_instructions (loop.suspendCheck_mem _ hsusp))
  rw [getInstructionPosition, if_neg hsusp, if_pos hne, if_neg hout]

theorem isDegenerate_of_mem_inputs (hinput : input ∈ loop.inputs user) :
    loop.isDegenerate input = false := by
  obtain ⟨insn, -, rfl⟩ := mem_map.mp hinput
  exact isDegenerate_resolve insn

theorem isDegenerate_of_getBlock (hne : graph.getBlock insn ≠ loop.header) :
    loop.isDegenerate insn = false := by
  rw [eq_false_iff]
  exact fun hdegen => hne (getBlock_of_mem_phis (mem_phis_of_isDegenerate hdegen))

theorem getBlock_of_mem_cloned (hinsn : insn ∈ loop.cloned) : graph.getBlock insn = loop.header :=
  getBlock_of_mem_instructions (mem_cloned.mp hinsn).1

/-- An operand that is not a phi of the header that is left is no phi of the header. -/
theorem notMem_phis_header (hdegen : loop.isDegenerate insn = false)
    (hnot : insn ∉ loop.headerPhis) : insn ∉ graph.code.phis loop.header :=
  fun hphi => hnot (mem_headerPhis.mpr ⟨hphi, hdegen⟩)

/-! ## In the loop and at its exit -/

section Runtime

variable {Value Store : Type}

/-- What the pass relies on: instructions that are used have results, suspend checks do
not change the state, a conversion to the type of its input returns the input, and a class
that was loaded or initialized once stays so. -/
structure Runtime (loop : HLoopInformation graph) (machine : Machine HInstruction Value Store)
    (start : Code.State (Fin insns) Value Store) : Prop where
  result : ∀ insn, loop.users insn ≠ [] → ∀ args store result,
    machine.execute (graph.code.op insn) args store = some result → result.1 ≠ none
  suspendCheck : ∀ insn, loop.suspendCheck = some insn → ∀ args store,
    machine.execute (graph.code.op insn) args store = some (none, store)
  conversion : ∀ insn, loop.isElided insn = true → ∀ value store,
    machine.execute (graph.code.op insn) [value] store = some (some value, store)
  again : ∀ past entered before insn after state, past ≠ [] →
    Code.LoopRun graph.code machine loop.toNaturalLoop loop.preHeader start
      (loop.header :: past) entered →
    graph.code.instructions loop.header = before ++ insn :: after → loop.isOwnClone insn = true →
    graph.code.steps machine entered before = some state →
      graph.code.step machine state insn = some state

theorem Runtime.step_suspendCheck {m : Machine HInstruction Value Store}
    {start : Code.State (Fin insns) Value Store} (hruntime : Runtime loop m start)
    {Insn : Type} [DecidableEq Insn] {code : Code (Fin blocks) Insn HInstruction}
    (hinsn : loop.suspendCheck = some insn) {insn' : Insn}
    (hop : code.op insn' = graph.code.op insn) (state : Code.State Insn Value Store) :
    code.step m state insn' = some state := by
  rw [step, hop, hruntime.suspendCheck _ hinsn]
  rfl

end Runtime

section Fixed

variable {Value Store : Type} {m : Machine HInstruction Value Store}
  {context : FBLContext insns} {place : Place}
  {state after : Code.State (Fin insns) Value Store}
  {state' : Code.State (Target insns) Value Store}

/-- The instructions of the header whose values of later iterations are not computed by
themselves: they have clones or are elided. -/
def HLoopInformation.RunsAgain (loop : HLoopInformation graph) (insn : Fin insns) : Prop :=
  insn ∈ loop.cloned ∨ loop.isElided insn = true

theorem HLoopInformation.RunsAgain.mem_instructions (hinsn : loop.RunsAgain insn) :
    insn ∈ graph.code.instructions loop.header :=
  hinsn.elim (fun hcloned => (mem_cloned.mp hcloned).1)
    fun helided => (inputs_of_isElided helided).1

theorem HLoopInformation.RunsAgain.position (hinsn : loop.RunsAgain insn) :
    loop.getInstructionPosition insn = .header :=
  hinsn.elim position_of_mem_cloned fun helided =>
    position_of_mem_instructions hinsn.mem_instructions (inputs_of_isElided helided).2.1

/-- The position of the users that take the fixups of a place. -/
def Place.position : Place → HLoopInformation.InstructionPosition
  | .inside => .backEdge
  | .outside => .exit

variable (loop context place state state') in
/-- The fixups of a place have the values of what they stand for. -/
structure Fixed : Prop where
  store : state'.store = state.store
  old : ∀ insn, insn ∉ graph.code.phis loop.header → ¬ loop.RunsAgain insn →
    state'.env (.old insn) = state.env insn
  header : ∀ insn ∈ context.headerFixup place, state'.env (.headerFixup place insn) = state.env insn
  interlace : ∀ phi ∈ context.interlacePhiFixup place,
    state'.env (.interlaceFixup place phi) = state.env phi

section Uses

variable (hcompl : Complete loop context) (hfixed : Fixed loop context place state state')

include hcompl hfixed

theorem Fixed.replaceInput (huser : user ∈ loop.users input)
    (hposition : loop.getInstructionPosition user = place.position)
    (hdegen : loop.isDegenerate input = false) :
    state'.env (loop.replaceInput context (loop.getInstructionPosition user) input) =
      state.env input := by
  rw [replaceInput.eq_def, hposition]
  by_cases hphi : input ∈ loop.headerPhis
  · rw [if_pos hphi]
    cases place with
    | inside => exact hfixed.interlace input ((hcompl.phi _ hphi).inside _ huser hposition)
    | outside =>
      exact hfixed.interlace input ((hcompl.phi _ hphi).outside _ huser hposition)
  · rw [if_neg hphi]
    by_cases hcloned : input ∈ loop.cloned
    · rw [if_pos hcloned]
      cases place with
      | inside =>
        exact hfixed.header input (hcompl.header .inside _ hcloned _ huser (.inl hposition))
      | outside =>
        exact hfixed.header input (hcompl.header .outside _ hcloned _ huser hposition)
    · rw [if_neg hcloned]
      refine hfixed.old _ (notMem_phis_header hdegen hphi) (not_or.mpr ⟨hcloned, fun helided => ?_⟩)
      obtain ⟨hinside, houtside⟩ := hcompl.conversions _ helided _ huser
      cases place with
      | inside => exact hinside hposition
      | outside => exact houtside hposition

theorem Fixed.operands (hresol : Resolved loop state.env)
    (huser : user ∉ graph.code.phis (graph.getBlock user))
    (hposition : loop.getInstructionPosition user = place.position) :
    (loop.rewriteLoop context exit).operands state'.env (.old user) =
      graph.code.operands state.env user := by
  rw [hresol.operands]
  change map _ (map _ _) = _
  rw [map_map]
  refine map_congr_left fun input hinput => ?_
  exact hfixed.replaceInput hcompl (mem_users_of_mem_inputs huser hinput) hposition
    (isDegenerate_of_mem_inputs hinput)

theorem Fixed.phiInput (hresol : Resolved loop state.env)
    (hphi : phi ∈ graph.code.phis b) (hne : b ≠ loop.header) (hedge : b ∈ graph.code.succs src)
    (hposition : loop.getInstructionPosition phi = place.position) :
    state'.env ((loop.rewriteLoop context exit).phiInput (.old phi) src) =
      state.env (graph.code.phiInput phi src) := by
  have hdegen := isDegenerate_of_getBlock ((getBlock_of_mem_phis hphi).symm ▸ hne)
  rw [← hresol (graph.code.phiInput phi src)]
  exact hfixed.replaceInput hcompl (mem_users_phiInput hphi hdegen hedge) hposition
    (isDegenerate_resolve _)

end Uses

/-- Both graphs assign the result of an instruction that is not in the header. -/
theorem Fixed.assign (hfixed : Fixed loop context place state state')
    (hne : graph.getBlock insn ≠ loop.header) (result : Option Value × Store)
    (hheaders : context.headerFixup place ⊆ loop.cloned)
    (hphis : context.interlacePhiFixup place ⊆ graph.code.phis loop.header) :
    Fixed loop context place (state.assign insn result) (state'.assign (.old insn) result) := by
  have hheader : ∀ other, graph.getBlock other = loop.header →
      (state.assign insn result).env other = state.env other := fun other hother =>
    assign_env_of_ne result fun heq => hne (heq ▸ hother)
  refine ⟨by simp, ?_, ?_, ?_⟩
  · intro other hphi hcloned
    exact assign_env_map (fun _ _ => old.inj) result.1 fun _ => hfixed.old _ hphi hcloned
  · intro other hother
    rw [assign_env_of_ne result (by exact nofun),
      hheader other (getBlock_of_mem_cloned (hheaders hother))]
    exact hfixed.header _ hother
  · intro phi hphi
    rw [assign_env_of_ne result (by exact nofun), hheader phi (getBlock_of_mem_phis (hphis hphi))]
    exact hfixed.interlace phi hphi

theorem Fixed.step (hcompl : Complete loop context)
    (hfixed : Fixed loop context .inside state state') (hresol : Resolved loop state.env)
    (hblock : b ∈ loop.body) (hne : b ≠ loop.header) (hinsn : insn ∈ graph.code.instructions b)
    (hstep : graph.code.step m state insn = some after) :
    ∃ after', (loop.rewriteLoop context exit).step m state' (.old insn) = some after' ∧
      Fixed loop context .inside after after' := by
  have hgetBlock := getBlock_of_mem_instructions hinsn
  have hposition := position_of_mem_body (hgetBlock ▸ hne) (hgetBlock ▸ hblock)
  obtain ⟨result, -, rfl, hstep'⟩ := exists_step_of_same (loop.rewriteLoop context exit)
    (hfixed.operands hcompl hresol (notMem_phis_of_mem_instructions hinsn _) hposition) rfl
    hfixed.store hstep
  refine ⟨_, hstep', hfixed.assign (hgetBlock ▸ hne) result (hcompl.wellFormed.header .inside) ?_⟩
  intro phi hphi
  exact (mem_headerPhis.mp (hcompl.wellFormed.interlace .inside phi hphi).1).1

theorem Fixed.steps (hcompl : Complete loop context)
    (hblock : b ∈ loop.body) (hne : b ≠ loop.header)
    (hlist : ∀ insn ∈ list, insn ∈ graph.code.instructions b)
    (hfixed : Fixed loop context .inside state state') (hresol : Resolved loop state.env)
    (hsteps : graph.code.steps m state list = some after) :
    ∃ after', (loop.rewriteLoop context exit).steps m state' (list.map .old) = some after' ∧
      Fixed loop context .inside after after' := by
  rw [map_eq_flatMap]
  refine exists_steps_of_sim (R := fun _ => Fixed loop context .inside) ?_ hfixed hsteps
  rintro front insn back now now' next rfl hfront hnow hstep
  rw [forall_mem_append, forall_mem_cons] at hlist
  obtain ⟨next', hstep', hnext⟩ :=
    hnow.step hcompl (hresol.steps hblock hlist.1 hfront) hblock hne hlist.2.1 hstep
  exact ⟨next', by rw [steps_singleton, hstep'], hnext⟩

/-- Going on in the loop to a block that is neither its header nor its first block. -/
theorem Fixed.enter (htop : TopTested loop exit) (hcompl : Complete loop context)
    (hfixed : Fixed loop context .inside state state') (hresol : Resolved loop state.env)
    {t : Fin blocks} (hedge : t ∈ graph.code.succs src)
    (htarget : t ∈ loop.body) (hne : t ≠ loop.header) (hfirst : t ≠ loop.firstBlock exit) :
    Fixed loop context .inside (graph.code.enter src t state)
      ((loop.rewriteLoop context exit).enter src t state') := by
  have hexit : t ≠ exit := fun heq => htop.exit_notMem (heq ▸ htarget)
  have hphis : (loop.rewriteLoop context exit).phis t = (graph.code.phis t).map .old := by
    simp [rewriteLoop, hne, hfirst, hexit]
  have hheader : ∀ insn, graph.getBlock insn = loop.header →
      (graph.code.enter src t state).env insn = state.env insn := fun insn hinsn =>
    enter_env_of_notMem fun hmem => hne ((getBlock_of_mem_phis hmem).symm.trans hinsn)
  refine ⟨hfixed.store, ?_, ?_, ?_⟩
  · intro insn hphi hcloned
    by_cases hmem : insn ∈ graph.code.phis t
    · have hgetBlock := getBlock_of_mem_phis hmem
      rw [enter_env_of_mem hmem, enter_env_of_mem (by rw [hphis]; exact mem_map_of_mem hmem)]
      exact hfixed.phiInput hcompl hresol hmem hne hedge
        (position_of_mem_body (hgetBlock ▸ hne) (hgetBlock ▸ htarget))
    · rw [enter_env_of_notMem hmem, enter_env_of_notMem (by simpa [hphis] using hmem)]
      exact hfixed.old _ hphi hcloned
  · intro insn hinsn
    rw [hheader insn (getBlock_of_mem_cloned (hcompl.wellFormed.header .inside _ hinsn)),
      enter_env_of_notMem (by simp [hphis])]
    exact hfixed.header _ hinsn
  · intro phi hphi
    have hmem := (mem_headerPhis.mp (hcompl.wellFormed.interlace .inside phi hphi).1).1
    rw [hheader phi (getBlock_of_mem_phis hmem), enter_env_of_notMem (by simp [hphis])]
    exact hfixed.interlace phi hphi

end Fixed

/-! ## In the header the first time -/

section Header

variable {Value Store : Type} {m : Machine HInstruction Value Store}
  {context : FBLContext insns} {place : Place}
  {start state after : Code.State (Fin insns) Value Store}
  {start' state' : Code.State (Target insns) Value Store}

variable (loop state state') in
/-- The phis of the header are gone; what they take from the preheader is used. -/
structure InHeader : Prop where
  store : state'.store = state.store
  old : ∀ insn, insn ∉ graph.code.phis loop.header → state'.env (.old insn) = state.env insn
  phi : ∀ phi ∈ loop.headerPhis,
    state'.env (.old (loop.phiInput phi loop.preHeader)) = state.env phi

theorem position_of_header (hblock : graph.getBlock insn = loop.header)
    (hphi : insn ∉ graph.code.phis loop.header) (hsusp : loop.suspendCheck ≠ some insn) :
    loop.getInstructionPosition insn = .header := by
  rw [getInstructionPosition, if_neg hsusp, if_neg (not_not.mpr hblock), if_neg hphi]

theorem phiInput_preHeader (hphi : phi ∈ graph.code.phis loop.header) :
    loop.phiInput phi loop.preHeader = graph.code.phiInput phi loop.preHeader := by
  apply resolve_of_not_degenerate
  apply isDegenerate_of_getBlock
  intro heq
  exact loop.phiInput_preHeader_notMem hphi (heq ▸ loop.header_mem)

variable (start start') in
structure SameStart : Prop where
  store : start'.store = start.store
  env : ∀ insn, start'.env (.old insn) = start.env insn

theorem SameStart.enter (hstart : SameStart start start') (context : FBLContext insns)
    (exit : Fin blocks) : InHeader loop (graph.code.enter loop.preHeader loop.header start)
      ((loop.rewriteLoop context exit).enter loop.preHeader loop.header start') := by
  have hphis : ∀ insn, insn ∉ (loop.rewriteLoop context exit).phis loop.header := by
    intro insn
    simp [rewriteLoop]
  refine ⟨hstart.store, fun insn hphi => ?_, fun phi hphi => ?_⟩
  · rw [enter_env_of_notMem (hphis _), enter_env_of_notMem hphi, hstart.env]
  · have hmem := (mem_headerPhis.mp hphi).1
    rw [enter_env_of_notMem (hphis _), enter_env_of_mem hmem, hstart.env, phiInput_preHeader hmem]

section

variable (hheader : InHeader loop state state') (hresol : Resolved loop state.env)

include hheader hresol

theorem InHeader.operands (hposition : loop.getInstructionPosition user = .header) :
    (loop.rewriteLoop context exit).operands state'.env (.old user) =
      graph.code.operands state.env user := by
  rw [hresol.operands]
  change map _ (map _ _) = _
  rw [map_map]
  refine map_congr_left fun input hinput => ?_
  change state'.env (loop.replaceInput context _ input) = _
  rw [replaceInput.eq_def, hposition]
  have hdegen := isDegenerate_of_mem_inputs hinput
  by_cases hphi : input ∈ loop.headerPhis
  · rw [if_pos hphi]
    exact hheader.phi _ hphi
  · have hold := hheader.old input (notMem_phis_header hdegen hphi)
    rw [if_neg hphi]
    rwa [ite_self]

theorem InHeader.step (hinsn : insn ∈ graph.code.instructions loop.header)
    (hsusp : loop.suspendCheck ≠ some insn) (hstep : graph.code.step m state insn = some after) :
    ∃ after', (loop.rewriteLoop context exit).step m state' (.old insn) = some after' ∧
      InHeader loop after after' := by
  have hblock := getBlock_of_mem_instructions hinsn
  have hphi := notMem_phis_of_mem_instructions hinsn loop.header
  obtain ⟨result, -, rfl, hstep'⟩ := exists_step_of_same (loop.rewriteLoop context exit)
    (hheader.operands hresol (position_of_header hblock hphi hsusp)) rfl hheader.store hstep
  refine ⟨_, hstep', by simp, fun other hother => ?_, fun phi hmem => ?_⟩
  · exact assign_env_map (fun _ _ => old.inj) result.1 fun _ => hheader.old _ hother
  · have hmem' := (mem_headerPhis.mp hmem).1
    have hne : phi ≠ insn := fun heq => hphi (heq ▸ hmem')
    have hinput : Target.old (loop.phiInput phi loop.preHeader) ≠ .old insn := by
      intro heq
      apply loop.phiInput_preHeader_notMem hmem'
      rw [← phiInput_preHeader hmem', old.inj heq, hblock]
      exact loop.header_mem
    rw [assign_env_of_ne _ hne, assign_env_of_ne _ hinput]
    exact hheader.phi phi hmem

end

theorem map_filter_eq_flatMap {α β : Type} (p : α → Bool) (f : α → β) (list : List α) :
    (list.filter p).map f = list.flatMap fun a => if p a then [f a] else [] := by
  induction list with
  | nil => rfl
  | cons a list ih => cases hp : p a <;> simp [hp, ih]

theorem InHeader.steps (hruntime : Runtime loop m start)
    (hlist : ∀ insn ∈ list, insn ∈ graph.code.instructions loop.header)
    (hheader : InHeader loop state state') (hresol : Resolved loop state.env)
    (hsteps : graph.code.steps m state list = some after) :
    ∃ after', (loop.rewriteLoop context exit).steps m state'
        ((list.filter fun insn => loop.suspendCheck ≠ some insn).map .old) = some after' ∧
      InHeader loop after after' := by
  rw [map_filter_eq_flatMap]
  refine exists_steps_of_sim (R := fun _ => InHeader loop) ?_ hheader hsteps
  rintro front insn back now now' next rfl hfront hnow hstep
  rw [forall_mem_append, forall_mem_cons] at hlist
  by_cases hsusp : loop.suspendCheck = some insn
  · rw [hruntime.step_suspendCheck hsusp rfl] at hstep
    cases hstep
    exact ⟨now', by simp [hsusp], hnow⟩
  · obtain ⟨next', hstep', hnext⟩ :=
      hnow.step (hresol.steps loop.header_mem hlist.1 hfront) hlist.2.1 hsusp hstep
    exact ⟨next', by rw [if_pos (by simpa using hsusp), steps_singleton, hstep'], hnext⟩

def Place.block (loop : HLoopInformation graph) (exit : Fin blocks) : Place → Fin blocks
  | .inside => loop.firstBlock exit
  | .outside => exit

section

variable (htop : TopTested loop exit)

include htop

theorem TopTested.phis_block (context : FBLContext insns)
    (place : Place) : graph.code.phis (place.block loop exit) = [] ∧
      (loop.rewriteLoop context exit).phis (place.block loop exit) = context.fixups place := by
  cases place with
  | inside =>
    refine ⟨htop.phis_first, ?_⟩
    simp [rewriteLoop, Place.block, htop.phis_first, htop.first_ne_header, htop.exit_ne_first.symm]
  | outside =>
    refine ⟨htop.phis_exit, ?_⟩
    simp [rewriteLoop, Place.block, htop.phis_exit, htop.exit_ne_header, htop.exit_ne_first]

/-- Both edges out of a test assign the fixups of their target. -/
theorem fixed_enter (hstore : state'.store = state.store)
    (hold : ∀ insn, insn ∉ graph.code.phis loop.header → ¬ loop.RunsAgain insn →
      state'.env (.old insn) = state.env insn) (hheader : ∀ insn ∈ context.headerFixup place,
      state'.env ((loop.rewriteLoop context exit).phiInput (.headerFixup place insn) src) =
        state.env insn) (hinterlace : ∀ phi ∈ context.interlacePhiFixup place,
      state'.env ((loop.rewriteLoop context exit).phiInput (.interlaceFixup place phi) src) =
        state.env phi) :
    Fixed loop context place (graph.code.enter loop.header (place.block loop exit) state)
      ((loop.rewriteLoop context exit).enter src (place.block loop exit) state') := by
  obtain ⟨hphis, hphis'⟩ := htop.phis_block context place
  have henv : ∀ insn, (graph.code.enter loop.header (place.block loop exit) state).env insn =
      state.env insn := fun insn => enter_env_of_notMem (by simp [hphis])
  refine ⟨hstore, fun insn hphi hcloned => ?_, fun insn hinsn => ?_, fun phi hphi => ?_⟩
  · rw [henv, enter_env_of_notMem (by simp [hphis', fixups])]
    exact hold _ hphi hcloned
  · rw [henv, enter_env_of_mem (by simpa [hphis', fixups] using hinsn)]
    exact hheader _ hinsn
  · rw [henv, enter_env_of_mem (by simpa [hphis', fixups] using hphi)]
    exact hinterlace phi hphi

theorem InHeader.enter (hcompl : Complete loop context)
    (hheader : InHeader loop state state') (place : Place) :
    Fixed loop context place (graph.code.enter loop.header (place.block loop exit) state)
      ((loop.rewriteLoop context exit).enter loop.header (place.block loop exit) state') := by
  refine fixed_enter htop hheader.store (fun insn hphi _ => hheader.old _ hphi)
    (fun insn hinsn => ?_) (fun phi hphi => ?_)
  · change state'.env (if loop.header = loop.header then _ else _) = _
    rw [if_pos rfl]
    have hmem := (mem_cloned.mp (hcompl.wellFormed.header _ _ hinsn)).1
    exact hheader.old insn (notMem_phis_of_mem_instructions hmem _)
  · change state'.env (if loop.header = loop.header then _ else _) = _
    rw [if_pos rfl]
    exact hheader.phi phi (hcompl.wellFormed.interlace _ phi hphi).1

end

end Header

/-! ## In the clones of the header -/

section Clone

variable {Value Store : Type} {m : Machine HInstruction Value Store}
  {context : FBLContext insns} {place : Place}
  {start state after entered : Code.State (Fin insns) Value Store}
  {state' : Code.State (Target insns) Value Store} {before : List (Fin insns)}

variable (loop context before) in
/-- The header is executed again: some of its instructions are done, and the phis have
the values of their fixups. -/
structure InClone (state : Code.State (Fin insns) Value Store)
    (state' : Code.State (Target insns) Value Store) : Prop where
  store : state'.store = state.store
  old : ∀ insn, insn ∉ graph.code.phis loop.header → ¬ loop.RunsAgain insn →
    state'.env (.old insn) = state.env insn
  clone : ∀ insn ∈ before, insn ∈ loop.cloned → loop.users insn ≠ [] →
    state'.env (.clone insn) = state.env insn
  fixup : ∀ phi ∈ loop.headerPhis, context.Created (loop.fixupOf phi) →
    state'.env (loop.fixupOf phi) = state.env phi
  elided : ∀ insn ∈ before, loop.isElided insn = true → ∀ input, loop.inputs insn = [input] →
    state.env insn = state.env input

/-- The back edge assigns the phis of the original header. -/
theorem Fixed.enter_header (hfixed : Fixed loop context .inside state state')
    (hresol : Resolved loop state.env) :
    InClone loop context [] (graph.code.enter loop.backBlock loop.header state) state' := by
  refine ⟨hfixed.store, fun insn hphi hagain => ?_, by simp, fun phi hphi hcreated => ?_, by simp⟩
  · rw [enter_env_of_notMem hphi]
    exact hfixed.old _ hphi hagain
  · rw [enter_env_of_mem (mem_headerPhis.mp hphi).1,
      ← hresol (graph.code.phiInput phi loop.backBlock)]
    -- The fixup of a value that is not of the header is the value.
    have hother : loop.getInstructionPosition (loop.phiInput phi loop.backBlock) ≠ .phi →
        loop.getInstructionPosition (loop.phiInput phi loop.backBlock) ≠ .header →
        state'.env (.old (loop.phiInput phi loop.backBlock)) =
          state.env (loop.phiInput phi loop.backBlock) := fun hne hne' =>
      hfixed.old _ (fun hmem => hne (position_of_mem_phis hmem))
        (fun hagain => hne' hagain.position)
    rw [fixupOf] at hcreated ⊢
    cases hposition : loop.getInstructionPosition (loop.phiInput phi loop.backBlock) with
    | header =>
      rw [hposition] at hcreated
      exact hfixed.header _ hcreated
    | phi =>
      rw [hposition] at hcreated
      exact hfixed.interlace _ hcreated
    | exit | backEdge | clone => exact hother (by simp [hposition]) (by simp [hposition])

variable {rest : List (Fin insns)}

variable (loop before state) in
/-- An operand that was executed, if it is of the header, and has a user. -/
structure Executed (input : Fin insns) (value : Value) : Prop where
  value : state.env input = value
  before : input ∈ graph.code.instructions loop.header → input ∈ before
  used : ∃ user, user ∉ graph.code.phis (graph.getBlock user) ∧ input ∈ loop.inputs user

/-- What is used in a clone for an operand has its value. -/
theorem InClone.executed_cloneSource (hclone : InClone loop context before state state')
    (hinitial : before <+: graph.code.instructions loop.header) {value : Value}
    (hinput : Executed loop state before input value) (fuel : ℕ) :
    Executed loop state before (loop.cloneSource fuel input) value := by
  refine cloneSource_induction (P := fun input => Executed loop state before input value)
    (fun insn input helided hinputs hinsn => ?_) fuel _ hinput
  obtain ⟨hmem, -, -⟩ := inputs_of_isElided helided
  have hinsnBefore := hinsn.before hmem
  have huse : input ∈ loop.inputs insn := by
    rw [hinputs]
    exact mem_singleton_self _
  refine ⟨?_, fun hheader => ?_, insn, notMem_phis_of_mem_instructions hmem _, huse⟩
  · rw [← hclone.elided _ hinsnBefore helided _ hinputs]
    exact hinsn.value
  · obtain ⟨front, back, rfl⟩ := append_of_mem hinsnBefore
    obtain ⟨rest, hsplit⟩ := hinitial
    rw [append_assoc, cons_append] at hsplit
    exact mem_append_left _ (mem_before_of_mem_inputs hsplit.symm huse hheader)

theorem InClone.operands (hcompl : Complete loop context)
    (hclone : InClone loop context before state state') (hresol : Resolved loop state.env)
    (hinitial : before <+: graph.code.instructions loop.header)
    (huser : user ∈ loop.cloned ++ [graph.code.terminator loop.header])
    (hphi : user ∉ graph.code.phis (graph.getBlock user))
    (hbefore : ∀ input ∈ loop.inputs user,
      input ∈ graph.code.instructions loop.header → input ∈ before) :
    (loop.rewriteLoop context exit).operands state'.env (.clone user) =
      graph.code.operands state.env user := by
  rw [hresol.operands]
  change map _ (map _ (map _ _)) = _
  rw [map_map, map_map]
  refine map_congr_left fun input hinput => ?_
  obtain ⟨hvalue, hexecuted, other, hother, hused⟩ := hclone.executed_cloneSource hinitial
    ⟨rfl, hbefore _ hinput, user, hphi, hinput⟩ (graph.code.instructions loop.header).length
  have hsource : loop.cloneSource (graph.code.instructions loop.header).length input ∈
      loop.cloneInputs user := mem_map_of_mem hinput
  have hnotElided : loop.isElided
      (loop.cloneSource (graph.code.instructions loop.header).length input) = false :=
    isElided_cloneSource _ _ fun helided => idxOf_lt_length_of_mem (inputs_of_isElided helided).1
  change state'.env (loop.replaceInput context .clone (loop.cloneSource _ input)) = _
  rw [← hvalue]
  generalize loop.cloneSource (graph.code.instructions loop.header).length input = source at *
  rw [replaceInput]
  by_cases hheader : source ∈ loop.headerPhis
  · rw [if_pos hheader]
    have hne : loop.clonedUsers source ≠ [] := ne_nil_of_mem
      (mem_filter.mpr ⟨huser, decide_eq_true hsource⟩)
    obtain ⟨fixup, hfixup⟩ := (hcompl.phi _ hheader).clone hne
    obtain ⟨rfl, hcreated⟩ := hcompl.wellFormed.fixup _ _ hfixup
    rw [hfixup]
    exact hclone.fixup _ hheader hcreated
  · rw [if_neg hheader]
    by_cases hcloned : source ∈ loop.cloned
    · rw [if_pos hcloned]
      exact hclone.clone _ (hexecuted (mem_cloned.mp hcloned).1) hcloned
        (ne_nil_of_mem (mem_users_of_mem_inputs hother hused))
    · rw [if_neg hcloned]
      exact hclone.old _ (notMem_phis_header (isDegenerate_of_mem_inputs hused) hheader)
        (not_or.mpr ⟨hcloned, by simp [hnotElided]⟩)

/-- The inputs of what was executed before do not come later. -/
theorem ne_of_mem_before {before : List (Fin insns)} {other : Fin insns}
    (hsplit : graph.code.instructions loop.header = before ++ insn :: rest)
    (hother : other ∈ before) : other ≠ insn ∧ insn ∉ loop.inputs other := by
  have hinsn := notMem_before_of_split hsplit
  refine ⟨fun heq => hinsn (heq ▸ hother), fun hinput => hinsn ?_⟩
  obtain ⟨front, back, rfl⟩ := append_of_mem hother
  rw [append_assoc, cons_append] at hsplit
  exact mem_append_left _ (mem_before_of_mem_inputs hsplit hinput (by simp [hsplit]))

/-- Assigning an instruction leaves the values of conversions and their inputs before it. -/
theorem InClone.elided_assign (hclone : InClone loop context before state state')
    (hsplit : graph.code.instructions loop.header = before ++ insn :: rest)
    (result : Option Value × Store) {other : Fin insns} (hother : other ∈ before)
    (helided : loop.isElided other) (hinputs : loop.inputs other = [input]) :
    (state.assign insn result).env other = (state.assign insn result).env input := by
  obtain ⟨hne, hnot⟩ := ne_of_mem_before hsplit hother
  have hinput : input ≠ insn := by
    rintro rfl
    exact hnot (by rw [hinputs]; exact mem_singleton_self _)
  rw [assign_env_of_ne _ hne, assign_env_of_ne _ hinput]
  exact hclone.elided _ hother helided _ hinputs

theorem InClone.step (hruntime : Runtime loop m start) (hcompl : Complete loop context)
    (hclone : InClone loop context before state state') (hresol : Resolved loop state.env)
    (hsplit : graph.code.instructions loop.header = before ++ insn :: rest)
    (hcloned : insn ∈ loop.cloned) (hstep : graph.code.step m state insn = some after) :
    ∃ after', (loop.rewriteLoop context exit).step m state' (.clone insn) = some after' ∧
      InClone loop context (before ++ [insn]) after after' := by
  have hinsn := (mem_cloned.mp hcloned).1
  obtain ⟨result, hexec, rfl, hstep'⟩ := exists_step_of_same (loop.rewriteLoop context exit)
    (hclone.operands hcompl hresol ⟨_, hsplit.symm⟩ (mem_append_left _ hcloned)
      (notMem_phis_of_mem_instructions hinsn _)
      fun _ hinput hmem => mem_before_of_mem_inputs hsplit hinput hmem) rfl hclone.store hstep
  refine ⟨_, hstep', by simp, fun other hphi hnot => ?_, fun other hmem hother hused => ?_,
    fun phi hphi hcreated => ?_, fun other hmem helided input hinputs => ?_⟩
  · have hne : other ≠ insn := fun heq => hnot (.inl (heq ▸ hcloned))
    rw [assign_env_of_ne _ hne, assign_env_of_ne result (by simp)]
    exact hclone.old _ hphi hnot
  · refine assign_env_map (fun _ _ => clone.inj) result.1 fun hnone => ?_
    have hne : other ≠ insn := by
      rintro rfl
      exact hruntime.result _ hused _ _ _ hexec (hnone rfl)
    exact hclone.clone _ ((mem_append.mp hmem).resolve_right (by simpa using hne)) hother hused
  · have hne : phi ≠ insn := fun heq =>
      notMem_phis_of_mem_instructions hinsn _ (heq ▸ (mem_headerPhis.mp hphi).1)
    have hfixup : loop.fixupOf phi ≠ .clone insn := by
      rw [fixupOf]
      split <;> simp
    rw [assign_env_of_ne _ hne, assign_env_of_ne _ hfixup]
    exact hclone.fixup phi hphi hcreated
  · have hne : other ≠ insn := by
      rintro rfl
      rw [(mem_cloned.mp hcloned).2.2.2] at helided
      cases helided
    exact hclone.elided_assign hsplit result
      ((mem_append.mp hmem).resolve_right (by simpa using hne)) helided hinputs

/-- An instruction that is its own clone has no effect when the header is executed again. -/
theorem InClone.skip (hclone : InClone loop context before state state')
    (hnot : ¬ loop.RunsAgain insn) :
    InClone loop context (before ++ [insn]) state state' := by
  have hbefore : ∀ {other}, other ∈ before ++ [insn] → loop.RunsAgain other → other ∈ before := by
    intro other hmem hagain
    have hne : other ≠ insn := fun heq => hnot (heq ▸ hagain)
    exact (mem_append.mp hmem).resolve_right (by simpa using hne)
  exact ⟨hclone.store, hclone.old,
    fun _ hmem hcloned => hclone.clone _ (hbefore hmem (.inl hcloned)) hcloned, hclone.fixup,
    fun _ hmem helided => hclone.elided _ (hbefore hmem (.inr helided)) helided⟩

/-- A conversion that is elided takes the value of its input. -/
theorem InClone.elide (hruntime : Runtime loop m start)
    (hclone : InClone loop context before state state') (hresol : Resolved loop state.env)
    (hsplit : graph.code.instructions loop.header = before ++ insn :: rest)
    (helided : loop.isElided insn) (hstep : graph.code.step m state insn = some after) :
    InClone loop context (before ++ [insn]) after state' := by
  obtain ⟨hinsn, -, input, hinputs⟩ := inputs_of_isElided helided
  obtain ⟨result, hexec, rfl⟩ := step_eq_some.mp hstep
  rw [hresol.operands, hinputs, map_singleton, hruntime.conversion _ helided] at hexec
  obtain rfl := Option.some.inj hexec
  have hinputNe : input ≠ insn := by
    rintro rfl
    have huse : input ∈ loop.inputs input := by
      rw [hinputs]
      exact mem_singleton_self _
    exact notMem_before_of_split hsplit (mem_before_of_mem_inputs hsplit huse hinsn)
  refine ⟨hclone.store, fun other hphi hnot => ?_, fun other hmem hcloned hused => ?_,
    fun phi hphi hcreated => ?_, fun other hmem hother input' hinputs' => ?_⟩
  · have hne : other ≠ insn := fun heq => hnot (.inr (heq ▸ helided))
    rw [assign_env_of_ne _ hne]
    exact hclone.old _ hphi hnot
  · have hne : other ≠ insn := by
      rintro rfl
      rw [(mem_cloned.mp hcloned).2.2.2] at helided
      cases helided
    rw [assign_env_of_ne _ hne]
    exact hclone.clone _ ((mem_append.mp hmem).resolve_right (by simpa using hne)) hcloned hused
  · have hne : phi ≠ insn := fun heq =>
      notMem_phis_of_mem_instructions hinsn _ (heq ▸ (mem_headerPhis.mp hphi).1)
    rw [assign_env_of_ne _ hne]
    exact hclone.fixup phi hphi hcreated
  · rcases mem_append.mp hmem with hbefore | hlast
    · exact hclone.elided_assign hsplit _ hbefore hother hinputs'
    · obtain rfl := mem_singleton.mp hlast
      obtain rfl : input = input' := by simpa [hinputs] using hinputs'
      rw [assign_env_of_ne _ hinputNe]
      exact Function.update_self ..

theorem InClone.steps (hruntime : Runtime loop m start) (hcompl : Complete loop context)
    {past : List (Fin blocks)} (hpast : past ≠ [])
    (hrun : Code.LoopRun graph.code m loop.toNaturalLoop loop.preHeader start
      (loop.header :: past) state) (hresol : Resolved loop state.env)
    (hsplit : graph.code.instructions loop.header = before ++ rest)
    (hclone : InClone loop context [] state state')
    (hsteps : graph.code.steps m state before = some after) :
    ∃ after', (loop.rewriteLoop context exit).steps m state'
        ((before.filter (· ∈ loop.cloned)).map .clone) = some after' ∧
      InClone loop context before after after' := by
  rw [map_filter_eq_flatMap]
  refine exists_steps_of_sim (R := InClone loop context) ?_ hclone hsteps
  rintro front insn back now now' next rfl hfront hnow hstep
  rw [append_assoc, cons_append] at hsplit
  have hnowResol :=
    hresol.steps loop.header_mem (fun other hother => by simp [hsplit, hother]) hfront
  by_cases hcloned : insn ∈ loop.cloned
  · obtain ⟨next', hstep', hnext⟩ := hnow.step hruntime hcompl hnowResol hsplit hcloned hstep
    exact ⟨next', by rw [if_pos (by simpa using hcloned), steps_singleton, hstep'], hnext⟩
  · refine ⟨now', by simp [hcloned], ?_⟩
    by_cases helided : loop.isElided insn
    · exact hnow.elide hruntime hnowResol hsplit helided hstep
    have hsame : graph.code.step m now insn = some now := by
      by_cases hsusp : loop.suspendCheck = some insn
      · exact hruntime.step_suspendCheck hsusp rfl now
      · refine hruntime.again _ _ _ _ _ now hpast hrun hsplit ?_ hfront
        by_contra hown
        exact hcloned (mem_cloned.mpr
          ⟨by simp [hsplit], hsusp, by simpa using hown, by simpa using helided⟩)
    obtain rfl := Option.some.inj (hsame.symm.trans hstep)
    exact hnow.skip (not_or.mpr ⟨hcloned, helided⟩)

theorem filter_mem_cloned :
    (graph.code.instructions loop.header).filter (· ∈ loop.cloned) = loop.cloned := by
  rw [cloned]
  refine filter_congr fun insn hinsn => ?_
  simp [hinsn]

/-- The edges out of the test at the end of the back edge block. -/
theorem InClone.enter (htop : TopTested loop exit) (hcompl : Complete loop context)
    (hclone : InClone loop context (graph.code.instructions loop.header) state state')
    (place : Place) :
    Fixed loop context place (graph.code.enter loop.header (place.block loop exit) state)
      ((loop.rewriteLoop context exit).enter loop.backBlock (place.block loop exit) state') := by
  refine fixed_enter htop hclone.store hclone.old (fun insn hinsn => ?_) (fun phi hphi => ?_)
  · change state'.env (if loop.backBlock = loop.header then _ else _) = _
    rw [if_neg htop.back_ne_header]
    have hcloned := hcompl.wellFormed.header _ _ hinsn
    exact hclone.clone _ (mem_cloned.mp hcloned).1 hcloned (hcompl.used _ _ hinsn)
  · change state'.env (if loop.backBlock = loop.header then _ else _) = _
    rw [if_neg htop.back_ne_header]
    obtain ⟨hheader, hstate⟩ := hcompl.wellFormed.interlace _ phi hphi
    obtain ⟨hinput, hcreated⟩ := hstate.resolve_left not_mem_nil
    rw [hinput]
    exact hclone.fixup phi hheader hcreated

end Clone

end NougatArt.BottomLoops
