import NougatArt.CodeMotion.LicmMove

/-!
# The graph with a moved instruction behaves the same

The relation between the executions of both graphs is kept from block to block.
-/

namespace NougatArt.CodeMotion

open List Option Function

variable {blocks insns : ℕ} {Value Component Event Exception : Type}
  {frame : Frame blocks insns Exception} {machine : Machine Value Component Event Exception}

namespace Frame.Hoistable

section Relations

variable (frame : Frame blocks insns Exception)
  (machine : Machine Value Component Event Exception) (placement : Placement blocks insns)
  (info : HLoopInformation blocks) (insn : Fin insns)

/-- Executed now, the instruction yields the value it has. -/
def Stable (state : State insns Value Component) : Prop :=
  machine.execute (frame.op insn) (frame.operands state.env insn) state.heap =
    ⟨[], state.heap, .ok (state.env insn)⟩

/-- The states of both graphs in a block, after some of its instructions in the
graph before the move. -/
structure Related (place : Fin blocks) (executed : List (Fin insns))
    (state state' : State insns Value Component) : Prop where
  heap : state.heap = state'.heap
  agree : ∀ value, frame.AvailableAt placement place executed value →
    state.env value = state'.env value
  stable : place ∈ info.body → Stable frame machine insn state'

/-- Both graphs have executed instructions with the same observations, or have raised
the same exception. -/
inductive SameOutcome (place : Fin blocks) (executed : List (Fin insns)) :
    List (Observation insns Value Event Exception) ×
        Except (Thrown insns Value Component Exception) (State insns Value Component) →
      List (Observation insns Value Event Exception) ×
        Except (Thrown insns Value Component Exception) (State insns Value Component) → Prop
  | ok {observed state state'} :
      Related frame machine placement info insn place executed state state' →
      SameOutcome place executed (observed, .ok state) (observed, .ok state')
  | thrown {observed exception registers partly state state'} :
      Related frame machine placement info insn place partly state state' →
      SameOutcome place executed (observed, .error ⟨exception, registers, state⟩)
        (observed, .error ⟨exception, registers, state'⟩)

def SameBlock (place : Fin blocks) (state state' : State insns Value Component) : Prop :=
  SameOutcome frame machine placement info insn place (frame.code placement place)
    (frame.execAll machine placement state (frame.code placement place))
    (frame.execAll machine (frame.hoist placement info insn) state'
      (frame.code (frame.hoist placement info insn) place))

inductive ConfigRelated : Config blocks insns Value Component Exception →
    Config blocks insns Value Component Exception → Prop
  | running {place state state'} : Related frame machine placement info insn place [] state state' →
      ConfigRelated (.running place state) (.running place state')
  | finished {value} : ConfigRelated (.finished value) (.finished value)

/-- A block of the graph with the moved instruction is followed by the other graph. -/
def Followed [Inhabited Value] (place : Fin blocks) (state state' : State insns Value Component) :
    Prop :=
  ∃ steps, 0 < steps ∧ ((frame.system machine placement).run steps (.running place state)).1 =
      ((frame.system machine (frame.hoist placement info insn)).step (.running place state')).1 ∧
    ConfigRelated frame machine placement info insn
      ((frame.system machine placement).run steps (.running place state)).2
      ((frame.system machine (frame.hoist placement info insn)).step (.running place state')).2

end Relations

variable {placement : Placement blocks insns} {info : HLoopInformation blocks}
  {insn : Fin insns} {b place : Fin blocks} {before after executed : List (Fin insns)}
  {s state' : State insns Value Component}
  {result result' : List (Observation insns Value Event Exception) ×
    Except (Thrown insns Value Component Exception) (State insns Value Component)}

/-- The registers of the moved instruction are those of the first iteration. -/
theorem registers_hoist {env env' : Fin insns → Value}
    (henv : ∀ input, some input ∈ placement.environment insn →
      env' (if input ∈ frame.phis info.header then frame.phiInput input info.preHeader else input) =
        env input) :
    (frame.hoist placement info insn).registers env' insn = placement.registers env insn := by
  unfold Placement.registers
  rw [show (frame.hoist placement info insn).environment insn =
    frame.updateLoopPhisIn info (placement.environment insn) from update_self _ _ _]
  unfold updateLoopPhisIn
  rw [List.map_map]
  refine map_congr_left fun register hregister => ?_
  cases register with
  | none => rfl
  | some input => exact congrArg some (henv _ hregister)

theorem code_preHeader : frame.code (frame.hoist placement info insn) info.preHeader =
    placement.instructions info.preHeader ++ [insn, frame.lastInstruction info.preHeader] := by
  rw [code, hoist_instructions_preHeader, append_assoc]
  rfl

theorem SameOutcome.prepend (observed : List (Observation insns Value Event Exception))
    (hsame : SameOutcome frame machine placement info insn place executed result result') :
    SameOutcome frame machine placement info insn place executed
      (observed ++ result.1, result.2) (observed ++ result'.1, result'.2) := by
  cases hsame with
  | ok hrel => exact .ok hrel
  | thrown hrel => exact .thrown hrel

theorem SameOutcome.append {placement' : Placement blocks insns}
    {executed' first rest first' rest' : List (Fin insns)}
    (hfirst : SameOutcome frame machine placement info insn place executed
      (frame.execAll machine placement s first) (frame.execAll machine placement' state' first'))
    (hrest : ∀ next next', Related frame machine placement info insn place executed next next' →
      SameOutcome frame machine placement info insn place executed'
        (frame.execAll machine placement next rest)
        (frame.execAll machine placement' next' rest')) :
    SameOutcome frame machine placement info insn place executed'
      (frame.execAll machine placement s (first ++ rest))
      (frame.execAll machine placement' state' (first' ++ rest')) := by
  generalize hall : frame.execAll machine placement s first = result at hfirst
  generalize hall' : frame.execAll machine placement' state' first' = result' at hfirst
  cases hfirst with
  | ok hrel =>
    rw [execAll_append_of_ok hall, execAll_append_of_ok hall']
    exact (hrest _ _ hrel).prepend _
  | thrown hrel =>
    rw [execAll_append_of_error hall, execAll_append_of_error hall']
    exact .thrown hrel

variable {t : Fin blocks} {v : Value} {exception : Exception}
variable (h : frame.Hoistable placement info insn b before after)

include h

/-- The value stays right while the operands and the memory that is read do not change. -/
theorem stable_of_same (hstable : Stable frame machine insn s)
    (hinputs : ∀ input ∈ frame.inputs insn, state'.env input = s.env input)
    (hvalue : state'.env insn = s.env insn)
    (hheap : ∀ bit : MemoryBit, bit.1 ∈ (frame.op insn).sideEffects.dependsOn →
      state'.heap bit = s.heap bit) : Stable frame machine insn state' := by
  have hops : frame.operands state'.env insn = frame.operands s.env insn := map_congr_left hinputs
  have hreads := machine.reads (frame.op insn) (frame.operands s.env insn) state'.heap
    s.heap h.doesAnyWrite hheap
  have hsilent := machine.silent (frame.op insn) (frame.operands s.env insn) state'.heap
    h.doesAnyWrite
  have hframe := machine.heap_of_doesAnyWrite h.doesAnyWrite (frame.operands s.env insn) state'.heap
  rw [hstable] at hreads
  rw [Stable, hops, hvalue]
  exact Executed.ext hsilent hframe hreads

/-- An instruction of the loop is not an operand of the moved one. -/
theorem ne_input {inner : Fin blocks} (hinner : inner ∈ info.body) {other : Fin insns}
    (hother : other ∈ frame.code placement inner) {input : Fin insns}
    (hinput : input ∈ frame.inputs insn) : input ≠ other := by
  rintro rfl
  rcases mem_append.mp hother with hmem | hlast
  · exact h.inputs_outside _ hinput (h.placed.getBlock_of_mem hmem ▸ hinner)
  · rw [mem_singleton] at hlast
    exact h.placed.ne_last_of_available (h.input_available_preHeader hinput) _ hlast

theorem exec_related {front back : List (Fin insns)} {item : Fin insns}
    (hsplit : frame.code placement place = front ++ item :: back) (hitem : item ≠ insn)
    (hrel : Related frame machine placement info insn place front s state') :
    SameOutcome frame machine placement info insn place (front ++ [item])
      (frame.exec machine placement s item)
      (frame.exec machine (frame.hoist placement info insn) state' item) := by
  have hops : frame.operands state'.env item = frame.operands s.env item :=
    map_congr_left fun input hinput => (hrel.agree input
      (h.placed.inputs_available _ _ _ _ hsplit _ hinput)).symm
  have hregisters : (frame.hoist placement info insn).registers state'.env item =
      placement.registers s.env item := by
    unfold Placement.registers
    rw [hoist_environment_of_ne hitem]
    refine map_congr_left fun register hregister => ?_
    cases register with
    | none => rfl
    | some input =>
      exact congrArg _ (hrel.agree input
        (h.placed.environment_available _ _ _ _ hsplit _ hregister)).symm
  have hmem : item ∈ frame.code placement place := by
    rw [hsplit]
    exact mem_append_right _ mem_cons_self
  obtain ⟨executed, hexecuted⟩ : ∃ executed, machine.execute (frame.op item)
      (frame.operands s.env item) s.heap = executed := ⟨_, rfl⟩
  have hexecuted' : machine.execute (frame.op item) (frame.operands state'.env item)
      state'.heap = executed := by rw [hops, ← hrel.heap, hexecuted]
  have hframe : place ∈ info.body → ∀ bit : MemoryBit,
      bit.1 ∈ (frame.op insn).sideEffects.dependsOn → executed.heap bit = state'.heap bit := by
    intro hplace bit hbit
    rw [← hrel.heap, ← hexecuted]
    exact machine.frame _ _ _ bit (h.independent _ hplace _ hmem bit hbit)
  cases hout : executed.outcome with
  | ok v =>
    rw [exec_of_ok hexecuted hout, exec_of_ok hexecuted' hout]
    refine .ok ⟨rfl, ?_, ?_⟩
    · intro other hother
      by_cases heq : other = item
      · subst heq
        show update s.env other v other = update state'.env other v other
        rw [update_self, update_self]
      · show update s.env item v other = update state'.env item v other
        rw [update_of_ne heq, update_of_ne heq]
        refine hrel.agree other (hother.imp_right (Or.imp_left fun hexecuted => ?_))
        exact (mem_append.mp hexecuted).resolve_right fun hlast => heq (mem_singleton.mp hlast)
    · intro hplace
      refine h.stable_of_same (hrel.stable hplace) (fun input hinput => ?_) ?_ (hframe hplace)
      · exact update_of_ne (h.ne_input hplace hmem hinput) _ _
      · exact update_of_ne hitem.symm _ _
  | error exception =>
    rw [exec_of_error hexecuted hout, exec_of_error hexecuted' hout, hregisters]
    refine .thrown ⟨rfl, hrel.agree, fun hplace => ?_⟩
    exact h.stable_of_same (hrel.stable hplace) (fun _ _ => rfl) rfl (hframe hplace)

theorem execAll_related (middle : List (Fin insns)) :
    ∀ {front back : List (Fin insns)} {s state' : State insns Value Component},
      frame.code placement place = front ++ (middle ++ back) → insn ∉ middle →
      Related frame machine placement info insn place front s state' →
      SameOutcome frame machine placement info insn place (front ++ middle)
        (frame.execAll machine placement s middle)
        (frame.execAll machine (frame.hoist placement info insn) state' middle) := by
  induction middle with
  | nil =>
    intro front back s state' _ _ hrel
    exact .ok (by rwa [append_nil])
  | cons item middle ih =>
    intro front back s state' hsplit hnotMem hrel
    rw [mem_cons, not_or] at hnotMem
    have hsplit' : frame.code placement place = (front ++ [item]) ++ (middle ++ back) := by
      rw [hsplit]
      simp
    have hitem := h.exec_related hsplit (Ne.symm hnotMem.1) hrel
    generalize hexec : frame.exec machine placement s item = executed at hitem
    generalize hexec' : frame.exec machine (frame.hoist placement info insn) state' item =
      executed' at hitem
    cases hitem with
    | ok hnext =>
      rw [execAll_cons_of_ok hexec, execAll_cons_of_ok hexec']
      have hrest := ih hsplit' hnotMem.2 hnext
      rw [append_assoc, singleton_append] at hrest
      exact hrest.prepend _
    | thrown hthrown =>
      rw [execAll_cons_of_error hexec, execAll_cons_of_error hexec']
      exact .thrown hthrown

/-! ## From block to block -/

/-- The value does not change when control enters a block of the loop. -/
theorem stable_of_phis (hplace : place ∈ info.body) (hstable : Stable frame machine insn s)
    (hheap : state'.heap = s.heap) (henv : ∀ v, v ∉ frame.phis place → state'.env v = s.env v) :
    Stable frame machine insn state' := by
  refine h.stable_of_same hstable (fun input hinput => henv input fun hphi => ?_)
    (henv insn fun hphi => h.ne_of_phi hphi rfl) (fun bit _ => by rw [hheap])
  exact h.inputs_outside _ hinput (h.placed.getBlock_of_phi hphi ▸ hplace)

theorem enter_related (hedge : t ∈ frame.normalSuccs place)
    (hrel : Related frame machine placement info insn place (frame.code placement place)
      s state') (hpreHeader : place = info.preHeader → Stable frame machine insn state') :
    Related frame machine placement info insn t [] (frame.enter place t s)
      (frame.enter place t state') where
  heap := hrel.heap
  agree v havail := by
    have hedge' := h.normalSuccs_subset _ hedge
    by_cases hphi : v ∈ frame.phis t
    · simp only [enter, if_pos hphi]
      refine hrel.agree _ ((h.placed.phiInput_available _ _ hedge _ hphi).imp_right
        (Or.imp_left fun hmem => mem_append_left _ hmem))
    · simp only [enter, if_neg hphi]
      obtain ⟨definition, hdefined, hdom, hne⟩ :=
        (havail.resolve_left hphi).resolve_left not_mem_nil
      apply hrel.agree
      by_cases heq : definition = place
      · subst heq
        exact hdefined.imp_right fun hmem => .inl (mem_append_left _ hmem)
      · exact .inr (.inr ⟨definition, hdefined, hdom.of_edge hne hedge', heq⟩)
  stable htarget := by
    have hstable : Stable frame machine insn state' := by
      rcases h.loop.source_of_edge (h.normalSuccs_subset _ hedge) htarget with
        hplace | ⟨hplace, -⟩
      · exact hrel.stable hplace
      · exact hpreHeader hplace
    exact h.stable_of_phis htarget hstable rfl fun v hphi => if_neg hphi

theorem execAll_block (hrel : Related frame machine placement info insn b [] s state') :
    SameBlock frame machine placement info insn b s state' := by
  have hcode : frame.code placement b =
      before ++ (insn :: (after ++ [frame.lastInstruction b])) := h.split_eq
  have hcode' : frame.code (frame.hoist placement info insn) b =
      before ++ (after ++ [frame.lastInstruction b]) := by
    rw [code, h.hoist_instructions_block, append_assoc]
  rw [SameBlock, hcode']
  nth_rewrite 2 [hcode]
  refine (h.execAll_related _ (by rw [nil_append]; exact hcode) h.notMem_before
    hrel).append fun next next' hnext => ?_
  -- The operands agree, so the instruction yields the value it has after the move.
  have hops : frame.operands next.env insn = frame.operands next'.env insn :=
    map_congr_left fun input hinput =>
      hnext.agree _ (h.placed.inputs_available _ _ _ _ h.split_eq _ hinput)
  have hexecuted : machine.execute (frame.op insn) (frame.operands next.env insn) next.heap =
      ⟨[], next'.heap, .ok (next'.env insn)⟩ := by
    rw [hops, hnext.heap]
    exact hnext.stable h.mem_body
  have hexec : frame.exec machine placement next insn =
      ([], .ok ⟨update next.env insn (next'.env insn), next'.heap⟩) :=
    exec_of_ok hexecuted rfl
  have hassigned : Related frame machine placement info insn b (before ++ [insn])
      ⟨update next.env insn (next'.env insn), next'.heap⟩ next' := by
    refine ⟨rfl, fun v havail => ?_, hnext.stable⟩
    by_cases hvalue : v = insn
    · subst hvalue
      exact update_self _ _ _
    · refine (update_of_ne hvalue _ _).trans
        (hnext.agree v (havail.imp_right (Or.imp_left fun hmem => ?_)))
      exact (mem_append.mp hmem).resolve_right fun heq => hvalue (mem_singleton.mp heq)
  have hnotMem : insn ∉ after ++ [frame.lastInstruction b] := by
    rw [mem_append, mem_singleton, not_or]
    exact ⟨h.notMem_after, (h.last_ne b).symm⟩
  have hrest := h.execAll_related (after ++ [frame.lastInstruction b])
    (by rw [hcode, append_nil]; simp) hnotMem hassigned
  rw [execAll_cons_of_ok hexec, hcode]
  rw [append_assoc, singleton_append] at hrest
  exact hrest

theorem execAll_other (hblock : place ≠ b) (hpreHeader : place ≠ info.preHeader)
    (hrel : Related frame machine placement info insn place [] s state') :
    SameBlock frame machine placement info insn place s state' := by
  have hcode : frame.code (frame.hoist placement info insn) place = frame.code placement place := by
    rw [code, code, h.hoist_instructions_of_ne hblock hpreHeader]
  have hnotMem : insn ∉ frame.code placement place := by
    rw [code, mem_append, mem_singleton, not_or]
    exact ⟨h.notMem_of_ne hblock, (h.last_ne place).symm⟩
  rw [SameBlock, hcode]
  exact h.execAll_related (frame.code placement place) (by rw [nil_append, append_nil]) hnotMem hrel

section

variable {v : Fin insns}
  (havail : frame.AvailableAt placement info.preHeader (placement.instructions info.preHeader) v)

include havail

theorem getBlock_of_available_preHeader : placement.getBlock v ∉ info.body := by
  intro hbody
  rcases h.placed.getBlock_of_available (List.Subset.refl _) havail with heq | ⟨hdom, -⟩
  · exact h.loop.preHeader_notMem (heq ▸ hbody)
  · exact h.loop.not_dominates_preHeader hbody hdom

theorem ne_of_available_preHeader : v ≠ insn := by
  rintro rfl
  exact h.getBlock_of_available_preHeader havail (h.getBlock_eq ▸ h.mem_body)

end

theorem stable_assigned
    (hout : (machine.execute (frame.op insn) (frame.operands s.env insn) s.heap).outcome = .ok v) :
    Stable frame machine insn ⟨update s.env insn v, s.heap⟩ := by
  have hops : frame.operands (update s.env insn v) insn = frame.operands s.env insn :=
    map_congr_left fun input hinput => update_of_ne (h.input_ne hinput) _ _
  unfold Stable
  rw [hops]
  refine Executed.ext (machine.silent _ _ _ h.doesAnyWrite)
    (machine.heap_of_doesAnyWrite h.doesAnyWrite _ _) (hout.trans ?_)
  exact congrArg Except.ok (update_self insn v s.env).symm

section

variable (hrel : Related frame machine placement info insn info.preHeader
  (placement.instructions info.preHeader) s state')

include hrel

/-- The end of the preheader, if the moved instruction does not throw. -/
theorem execAll_preHeader_of_ok
    (hout : (machine.execute (frame.op insn) (frame.operands state'.env insn)
      state'.heap).outcome = .ok v) :
    SameOutcome frame machine placement info insn info.preHeader
        (frame.code placement info.preHeader)
        (frame.execAll machine placement s [frame.lastInstruction info.preHeader])
        (frame.execAll machine (frame.hoist placement info insn) state'
          [insn, frame.lastInstruction info.preHeader]) ∧
      ∀ last, (frame.execAll machine (frame.hoist placement info insn) state'
          [insn, frame.lastInstruction info.preHeader]).2 = .ok last →
        Stable frame machine insn last := by
  have hexec : frame.exec machine (frame.hoist placement info insn) state' insn =
      ([], .ok ⟨update state'.env insn v, state'.heap⟩) := by
    rw [exec_of_ok rfl hout, machine.silent _ _ _ h.doesAnyWrite,
      machine.heap_of_doesAnyWrite h.doesAnyWrite]
    rfl
  have hassigned : Related frame machine placement info insn info.preHeader
      (placement.instructions info.preHeader) s
      ⟨update state'.env insn v, state'.heap⟩ := by
    refine ⟨hrel.heap, fun other hother => ?_, fun hbody => absurd hbody h.loop.preHeader_notMem⟩
    exact (hrel.agree _ hother).trans (update_of_ne (h.ne_of_available_preHeader hother) _ _).symm
  rw [execAll_cons_of_ok hexec]
  constructor
  · exact h.execAll_related [frame.lastInstruction info.preHeader] (by rw [append_nil]; rfl)
      (by rw [mem_singleton]; exact (h.last_ne _).symm) hassigned
  · intro last hlast
    obtain ⟨result, hlast'⟩ := exec_of_invisible h.loop.preHeader_goto.1 h.loop.preHeader_goto.2
    rw [execAll_cons_of_ok hlast'] at hlast
    cases hlast
    refine h.stable_of_same (h.stable_assigned hout) (fun input hinput => ?_) ?_ (fun _ _ => rfl)
    · exact update_of_ne (h.placed.ne_last_of_available (h.input_available_preHeader hinput) _) _ _
    · exact update_of_ne (h.last_ne _).symm _ _

/-- If the moved instruction throws in the preheader, the other graph goes on to the
header and raises the same exception there. -/
theorem execAll_preHeader_of_error
    (hout : (machine.execute (frame.op insn) (frame.operands state'.env insn)
      state'.heap).outcome = .error exception) : ∃ last registers env,
      frame.execAll machine placement s [frame.lastInstruction info.preHeader] = ([], .ok last) ∧
      frame.execAll machine placement (frame.enter info.preHeader info.header last)
          (frame.code placement info.header) =
        ([.thrown insn exception registers], .error ⟨exception, registers, ⟨env, s.heap⟩⟩) ∧
      frame.execAll machine (frame.hoist placement info insn) state'
          [insn, frame.lastInstruction info.preHeader] =
        ([.thrown insn exception registers], .error ⟨exception, registers, state'⟩) ∧
      Related frame machine placement info insn info.preHeader
        (placement.instructions info.preHeader) ⟨env, s.heap⟩ state' := by
  obtain ⟨rfl, hinvisible⟩ := h.first (machine.throws _ _ _ _ hout)
  obtain ⟨v, hlast⟩ := exec_of_invisible h.loop.preHeader_goto.1 h.loop.preHeader_goto.2
  obtain ⟨env, hbefore, hothers⟩ := execAll_of_invisible (fun other hother =>
    (hinvisible _ hother).1) (fun other hother => (hinvisible _ hother).2)
    (frame.enter info.preHeader info.header
      ⟨update s.env (frame.lastInstruction info.preHeader) v, s.heap⟩)
  -- Values from outside of the loop are those at the end of the preheader.
  have hphi : ∀ phi ∈ frame.phis info.header, env phi =
      s.env (frame.phiInput phi info.preHeader) := by
    intro phi hphi
    have hnotMem : phi ∉ before := by
      intro hmem
      refine h.placed.phi_notMem hphi info.header ?_
      rw [h.instructions_eq]
      exact mem_append_left _ hmem
    have havail := h.placed.phiInput_available info.preHeader info.header
      (by rw [h.loop.preHeader_normalSuccs]; exact mem_singleton_self _) phi hphi
    rw [hothers phi hnotMem]
    exact (if_pos hphi).trans (update_of_ne (h.placed.ne_last_of_available havail _) _ _)
  have houtside : ∀ other, frame.AvailableAt placement info.preHeader
      (placement.instructions info.preHeader) other → env other = s.env other := by
    intro other hother
    have hblock := h.getBlock_of_available_preHeader hother
    have hnotMem : other ∉ before := by
      intro hmem
      have hheader : other ∈ placement.instructions info.header := by
        rw [h.instructions_eq]
        exact mem_append_left _ hmem
      exact hblock (h.placed.getBlock_of_mem hheader ▸ h.mem_body)
    have hnotPhi : other ∉ frame.phis info.header := fun hphi =>
      hblock (h.placed.getBlock_of_phi hphi ▸ h.mem_body)
    rw [hothers _ hnotMem]
    exact (if_neg hnotPhi).trans (update_of_ne (h.placed.ne_last_of_available hother _) _ _)
  have hops : frame.operands env insn = frame.operands state'.env insn :=
    map_congr_left fun input hinput => (houtside input (h.input_available_preHeader hinput)).trans
        (hrel.agree input (h.input_available_preHeader hinput))
  have hregisters : (frame.hoist placement info insn).registers state'.env insn =
      placement.registers env insn := by
    refine registers_hoist fun input hregister => ?_
    by_cases hinput : input ∈ frame.phis info.header
    · have havail := h.placed.phiInput_available info.preHeader info.header
        (by rw [h.loop.preHeader_normalSuccs]; exact mem_singleton_self _) _ hinput
      rw [if_pos hinput, hphi _ hinput, hrel.agree _ havail]
    · have havail := h.available_preHeader
        (h.placed.environment_available _ _ _ _ h.split_eq _ hregister)
        ((h.environment_outside _ hregister).resolve_right hinput)
      rw [if_neg hinput, houtside _ havail, hrel.agree _ havail]
  have hexecuted : machine.execute (frame.op insn) (frame.operands env insn) s.heap =
      ⟨[], s.heap, .error exception⟩ := by
    rw [hops, hrel.heap]
    exact Executed.ext (machine.silent _ _ _ h.doesAnyWrite)
      (machine.heap_of_doesAnyWrite h.doesAnyWrite _ _) hout
  have hexecuted' : machine.execute (frame.op insn) (frame.operands state'.env insn)
      state'.heap = ⟨[], state'.heap, .error exception⟩ := by
    rw [← hrel.heap, ← hops]
    exact hexecuted
  refine ⟨_, placement.registers env insn, env, execAll_cons_of_ok hlast [], ?_, ?_,
    hrel.heap, fun other hother => (houtside _ hother).trans (hrel.agree _ hother),
    fun hbody => absurd hbody h.loop.preHeader_notMem⟩
  · rw [show frame.code placement info.header =
      before ++ (insn :: (after ++ [frame.lastInstruction info.header])) from h.split_eq]
    rw [execAll_append_of_ok hbefore]
    rw [execAll_cons_of_error (exec_of_error hexecuted rfl)]
    rfl
  · rw [execAll_cons_of_error (exec_of_error hexecuted' rfl), hregisters]
    rfl

end

theorem related_entry (s : State insns Value Component) :
    Related frame machine placement info insn frame.flow.entry [] s s :=
  ⟨rfl, fun _ _ => rfl, fun hbody => absurd hbody h.loop.entry_notMem⟩

/-! ## Whole executions -/

variable [Inhabited Value]

theorem enterCatch_related
    (hhandler : frame.handler place exception = some t) {registers : List (Option Value)}
    (hrel : Related frame machine placement info insn place executed s state') :
    Related frame machine placement info insn t [] (frame.enterCatch t ⟨exception, registers, s⟩)
      (frame.enterCatch t ⟨exception, registers, state'⟩) where
  heap := hrel.heap
  agree v havail := by
    by_cases hphi : v ∈ frame.phis t
    · simp only [enterCatch, if_pos hphi]
    · simp only [enterCatch, if_neg hphi]
      obtain ⟨definition, hdefined, hdom, hne⟩ :=
        (havail.resolve_left hphi).resolve_left not_mem_nil
      obtain ⟨hplace, hne'⟩ := h.handler_dominated _ _ _ hhandler _ hdom hne
      exact hrel.agree _ (.inr (.inr ⟨definition, hdefined, hplace, hne'⟩))
  stable htarget := h.stable_of_phis htarget
    (hrel.stable (h.handler_inside _ _ _ hhandler htarget)) rfl
    fun v hphi => if_neg hphi

theorem leave_related
    (hsame : SameOutcome frame machine placement info insn place (frame.code placement place)
      result result') (hpreHeader : place = info.preHeader → ∀ state', result'.2 = .ok state' →
      Stable frame machine insn state') :
    result.1 = result'.1 ∧ ConfigRelated frame machine placement info insn
      (frame.leave machine place result.2) (frame.leave machine place result'.2) := by
  cases hsame with
  | @ok observed s state' hrel =>
    refine ⟨rfl, ?_⟩
    have hops : frame.operands s.env (frame.lastInstruction place) =
        frame.operands state'.env (frame.lastInstruction place) := by
      refine map_congr_left fun input hinput => hrel.agree input ?_
      exact (h.placed.inputs_available _ _ _ [] rfl _ hinput).imp_right
        (Or.imp_left fun hmem => mem_append_left _ hmem)
    have hnext : frame.next machine place s.env = frame.next machine place state'.env := by
      unfold next
      rw [hops]
    simp only [leave, hnext]
    rcases htarget : frame.next machine place state'.env with _ | t
    · simp only [hops, hrel.heap]
      exact .finished
    have hedge : t ∈ frame.normalSuccs place := by
      unfold next at htarget
      split at htarget
      next single hsuccs =>
        rw [hsuccs, ← some.inj htarget]
        exact mem_singleton_self _
      · exact mem_of_getElem? htarget
    exact .running (h.enter_related hedge hrel fun heq => hpreHeader heq state' rfl)
  | @thrown observed exception registers partly s state' hrel =>
    refine ⟨rfl, ?_⟩
    simp only [leave]
    cases hhandler : frame.handler place exception with
    | none =>
      simp only [hrel.heap]
      exact .finished
    | some t => exact .running (h.enterCatch_related hhandler hrel)

theorem followed_of_sameBlock (hsame : SameBlock frame machine placement info insn place s state')
    (hpreHeader : place = info.preHeader → ∀ last, (frame.execAll machine
      (frame.hoist placement info insn) state'
        (frame.code (frame.hoist placement info insn) place)).2 = .ok last →
      Stable frame machine insn last) :
    Followed frame machine placement info insn place s state' := by
  obtain ⟨hobserved, hconfig⟩ := h.leave_related hsame hpreHeader
  exact ⟨1, Nat.one_pos, (append_nil _).trans hobserved, hconfig⟩

/-- The exception of the moved instruction, which the other graph raises in the header. -/
theorem followed_of_error {next next' : State insns Value Component}
    {observed : List (Observation insns Value Event Exception)}
    (hall : frame.execAll machine placement s (placement.instructions info.preHeader) =
      (observed, .ok next)) (hall' : frame.execAll machine (frame.hoist placement info insn) state'
      (placement.instructions info.preHeader) = (observed, .ok next'))
    (hnext : Related frame machine placement info insn info.preHeader
      (placement.instructions info.preHeader) next next')
    (hout : (machine.execute (frame.op insn) (frame.operands next'.env insn)
      next'.heap).outcome = .error exception) :
    Followed frame machine placement info insn info.preHeader s state' := by
  obtain ⟨last, registers, env, hlast, hheader, hthrown, hrel⟩ :=
    h.execAll_preHeader_of_error hnext hout
  have hfirst : (frame.system machine placement).step (.running info.preHeader s) =
      (observed, .running info.header (frame.enter info.preHeader info.header last)) := by
    show (_, _) = _
    rw [code, execAll_append_of_ok hall, hlast, append_nil]
    simp only [leave, Frame.next, h.loop.preHeader_normalSuccs]
  have hsnd : (frame.system machine placement).step
      (.running info.header (frame.enter info.preHeader info.header last)) =
      ([.thrown insn exception registers],
        frame.leave machine info.preHeader (.error ⟨exception, registers, ⟨env, next.heap⟩⟩)) := by
    show (_, _) = _
    rw [hheader]
    simp only [leave, h.loop.preHeader_handler]
  have hmoved : (frame.system machine (frame.hoist placement info insn)).step
      (.running info.preHeader state') = (observed ++ [.thrown insn exception registers],
        frame.leave machine info.preHeader (.error ⟨exception, registers, next'⟩)) := by
    show (_, _) = _
    rw [code_preHeader, execAll_append_of_ok hall', hthrown]
  have hsame : SameOutcome frame machine placement info insn info.preHeader
      (frame.code placement info.preHeader)
      (observed ++ [.thrown insn exception registers],
        .error ⟨exception, registers, ⟨env, next.heap⟩⟩)
      (observed ++ [.thrown insn exception registers], .error ⟨exception, registers, next'⟩) :=
    .thrown hrel
  obtain ⟨-, hconfig⟩ := h.leave_related hsame fun _ _ hok => by cases hok
  refine ⟨2, Nat.two_pos, ?_, ?_⟩
  · rw [hmoved, OutputSystem.run, OutputSystem.run, OutputSystem.run, hfirst]
    simp only [hsnd, append_nil]
  · rw [hmoved, OutputSystem.run, OutputSystem.run, OutputSystem.run, hfirst]
    simp only [hsnd]
    exact hconfig

theorem step_related (hrel : Related frame machine placement info insn place [] s state') :
    Followed frame machine placement info insn place s state' := by
  by_cases hpreHeader : place = info.preHeader
  · subst hpreHeader
    have hfirst := h.execAll_related (placement.instructions info.preHeader)
      (by rw [nil_append]; rfl) (h.notMem_of_ne h.block_ne_preHeader.symm) hrel
    generalize hall : frame.execAll machine placement s
      (placement.instructions info.preHeader) = result at hfirst
    generalize hall' : frame.execAll machine (frame.hoist placement info insn) state'
      (placement.instructions info.preHeader) = result' at hfirst
    cases hfirst with
    | thrown hthrown =>
      refine h.followed_of_sameBlock ?_ fun _ last hlast => ?_
      · rw [SameBlock, code_preHeader, code, execAll_append_of_error hall,
          execAll_append_of_error hall']
        exact .thrown hthrown
      · rw [code_preHeader, execAll_append_of_error hall'] at hlast
        cases hlast
    | @ok observed next next' hnext =>
      rcases hout : (machine.execute (frame.op insn) (frame.operands next'.env insn)
          next'.heap).outcome with exception | v
      · exact h.followed_of_error hall hall' hnext hout
      obtain ⟨hsame, hstable⟩ := h.execAll_preHeader_of_ok hnext hout
      refine h.followed_of_sameBlock ?_ fun _ last hlast => ?_
      · rw [SameBlock, code_preHeader]
        nth_rewrite 2 [code]
        rw [execAll_append_of_ok hall, execAll_append_of_ok hall']
        exact hsame.prepend _
      · rw [code_preHeader, execAll_append_of_ok hall'] at hlast
        exact hstable _ hlast
  · refine h.followed_of_sameBlock ?_ fun heq => absurd heq hpreHeader
    by_cases hblock : place = b
    · subst hblock
      exact h.execAll_block hrel
    · exact h.execAll_other hblock hpreHeader hrel

theorem matched : (frame.system machine placement).Matched
    (frame.system machine (frame.hoist placement info insn))
    (ConfigRelated frame machine placement info insn) := by
  intro config config' hconfig
  cases hconfig with
  | finished => exact ⟨rfl, fun hnone => by cases hnone⟩
  | @running place s state' hrel =>
    refine ⟨rfl, fun _ => ?_⟩
    obtain ⟨steps, hpos, hobserved, hnext⟩ := h.step_related hrel
    refine ⟨steps, 1, hpos, Nat.one_pos, hobserved.trans (append_nil _).symm, hnext⟩

/-- Moving the instruction does not change what is observed of the method. -/
theorem sameBehaviour (s : State insns Value Component) :
    (frame.system machine placement).SameBehaviour
      (frame.system machine (frame.hoist placement info insn))
      (.running frame.flow.entry s) (.running frame.flow.entry s) :=
  h.matched.sameBehaviour (.running (h.related_entry s))

/-- Each configuration of the graph with the moved instruction is related to one of the
other graph. -/
theorem exists_configRelated (s : State insns Value Component) (steps : ℕ) :
    ∃ config, ConfigRelated frame machine placement info insn config
      ((frame.system machine (frame.hoist placement info insn)).run steps
        (.running frame.flow.entry s)).2 := by
  induction steps with
  | zero => exact ⟨_, .running (h.related_entry s)⟩
  | succ steps ih =>
    obtain ⟨config, hconfig⟩ := ih
    rw [OutputSystem.run_succ]
    generalize ((frame.system machine (frame.hoist placement info insn)).run steps
      (.running frame.flow.entry s)).2 = config' at hconfig
    cases hconfig with
    | finished => exact ⟨_, .finished⟩
    | running hrel =>
      obtain ⟨_, -, -, hnext⟩ := h.step_related hrel
      exact ⟨_, hnext⟩

/-- In every iteration the moved instruction would yield the value it has. -/
theorem stable_of_run (s : State insns Value Component) (steps : ℕ) {place : Fin blocks}
    {cur : State insns Value Component} (hplace : place ∈ info.body)
    (hrun : ((frame.system machine (frame.hoist placement info insn)).run steps
      (.running frame.flow.entry s)).2 = .running place cur) :
    Stable frame machine insn cur := by
  obtain ⟨config, hconfig⟩ := hrun ▸ h.exists_configRelated s steps
  cases hconfig with
  | running hrel => exact hrel.stable hplace

end Frame.Hoistable

end NougatArt.CodeMotion
