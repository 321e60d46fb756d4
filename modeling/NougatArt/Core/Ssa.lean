import NougatArt.Core.NaturalLoop

/-!
# Code in SSA form and its execution

Code is divided into blocks. Entering a block from a predecessor assigns its phis
at once, then the instructions are executed in order, and the terminator selects
the next block. What an instruction does is left to a machine: it maps the values
of the operands and a store to an optional result and a new store, or is stuck.
-/

namespace NougatArt

open List Option Function

universe u

structure Machine (Op Value Store : Type u) where
  execute : Op → List Value → Store → Option (Option Value × Store)
  -- The position of the next block among the successors.
  branch : Op → List Value → ℕ

structure Code (Block Insn Op : Type u) where
  op : Insn → Op
  inputs : Insn → List Insn
  phis : Block → List Insn
  phiInput : Insn → Block → Insn
  instructions : Block → List Insn
  terminator : Block → Insn
  succs : Block → List Block

structure Code.State (Insn Value Store : Type u) where
  env : Insn → Value
  store : Store

namespace Code

variable {Block Insn Op Value Store : Type u} [DecidableEq Insn]
  (code : Code Block Insn Op) (machine : Machine Op Value Store)

omit [DecidableEq Insn] in
def instructionsOf (block : Block) : List Insn :=
  code.phis block ++ code.instructions block ++ [code.terminator block]

omit [DecidableEq Insn] in
def operands (env : Insn → Value) (insn : Insn) : List Value := (code.inputs insn).map env

def State.assign (state : State Insn Value Store) (insn : Insn) :
    Option Value × Store → State Insn Value Store
  | (none, store) => { state with store }
  | (some value, store) => { env := update state.env insn value, store }

def step (state : State Insn Value Store) (insn : Insn) : Option (State Insn Value Store) :=
  (machine.execute (code.op insn) (code.operands state.env insn) state.store).map
    (state.assign insn)

def steps (state : State Insn Value Store) (insns : List Insn) : Option (State Insn Value Store) :=
  insns.foldlM (code.step machine) state

def enter (source target : Block) (state : State Insn Value Store) : State Insn Value Store where
  env insn :=
    if insn ∈ code.phis target then state.env (code.phiInput insn source) else state.env insn
  store := state.store

omit [DecidableEq Insn] in
def next (block : Block) (env : Insn → Value) : Option Block :=
  (code.succs block)[machine.branch (code.op (code.terminator block))
    (code.operands env (code.terminator block))]?

variable {code machine}

section

variable (s : State Insn Value Store)

include s

@[simp]
theorem steps_nil : code.steps machine s [] = some s :=
  rfl

theorem steps_cons (insn : Insn) (insns : List Insn) : code.steps machine s (insn :: insns) =
      (code.step machine s insn).bind fun after => code.steps machine after insns :=
  rfl

theorem steps_singleton (insn : Insn) : code.steps machine s [insn] = code.step machine s insn :=
  bind_fun_some _

theorem steps_append (first second : List Insn) : code.steps machine s (first ++ second) =
      (code.steps machine s first).bind fun after => code.steps machine after second := by
  rw [steps, foldlM_append]
  rfl

end

variable {s after : State Insn Value Store} {insn : Insn}

theorem step_eq_some : code.step machine s insn = some after ↔
      ∃ result, machine.execute (code.op insn) (code.operands s.env insn) s.store =
        some result ∧ s.assign insn result = after :=
  map_eq_some_iff

variable {other : Insn} {Insn' Block' : Type u} {insn' : Insn'} {insns : List Insn}

theorem assign_env_of_ne (result : Option Value × Store) (hne : other ≠ insn) :
    (s.assign insn result).env other = s.env other := by
  rcases result with ⟨_ | v, store⟩
  · rfl
  · exact update_of_ne hne _ _

/-- The renamed instructions of another code have the same values after the assignment. -/
theorem assign_env_map [DecidableEq Insn'] {state' : State Insn' Value Store} {f : Insn → Insn'}
    (hf : Injective f) (value : Option Value) {store store' : Store}
    (hsame : (other = insn → value = none) → state'.env (f other) = s.env other) :
    (state'.assign (f insn) (value, store')).env (f other) =
      (s.assign insn (value, store)).env other := by
  by_cases hother : other = insn
  · subst hother
    rcases value with _ | v
    · exact hsame fun _ => rfl
    · change update state'.env _ v _ = update s.env _ v _
      rw [update_self, update_self]
  · rw [assign_env_of_ne _ hother, assign_env_of_ne _ (hf.ne hother)]
    exact hsame fun heq => absurd heq hother

@[simp]
theorem assign_store (s : State Insn Value Store) (insn : Insn)
    (result : Option Value × Store) : (s.assign insn result).store = result.2 := by
  rcases result with ⟨_ | v, store⟩ <;> rfl

theorem step_env_of_ne (hstep : code.step machine s insn = some after) (hne : other ≠ insn) :
    after.env other = s.env other := by
  obtain ⟨result, -, rfl⟩ := step_eq_some.mp hstep
  exact assign_env_of_ne _ hne

/-- An instruction of another code with the same operation, operands and store. -/
theorem exists_step_of_same [DecidableEq Insn']
    (code' : Code Block' Insn' Op) {state' : State Insn' Value Store}
    (hops : code'.operands state'.env insn' = code.operands s.env insn)
    (hop : code'.op insn' = code.op insn)
    (hstore : state'.store = s.store) (hstep : code.step machine s insn = some after) :
    ∃ result, machine.execute (code.op insn) (code.operands s.env insn) s.store =
        some result ∧ after = s.assign insn result ∧
      code'.step machine state' insn' = some (state'.assign insn' result) := by
  obtain ⟨result, hexecute, rfl⟩ := step_eq_some.mp hstep
  refine ⟨result, hexecute, rfl, ?_⟩
  rw [step, hop, hops, hstore, hexecute]
  rfl

/-- Executing instructions leaves the values of the others. -/
theorem steps_env_of_notMem
    (hsteps : code.steps machine s insns = some after) (hother : other ∉ insns) :
    after.env other = s.env other := by
  induction insns generalizing s with
  | nil =>
    cases hsteps
    rfl
  | cons insn insns ih =>
    obtain ⟨middle, hstep, hrest⟩ := bind_eq_some_iff.mp hsteps
    rw [mem_cons, not_or] at hother
    rw [ih hrest hother.2, step_env_of_ne hstep hother.1]

/-- Instructions that are followed one by one in another code are followed in order. -/
theorem exists_steps_of_sim {Op' : Type u} [DecidableEq Insn']
    {code' : Code Block' Insn' Op'} {machine' : Machine Op' Value Store}
    {state' : State Insn' Value Store} {image : Insn → List Insn'}
    {R : List Insn → State Insn Value Store → State Insn' Value Store → Prop}
    (hstep : ∀ front insn back now now' next, insns = front ++ insn :: back →
      code.steps machine s front = some now → R front now now' →
      code.step machine now insn = some next →
      ∃ next', code'.steps machine' now' (image insn) = some next' ∧ R (front ++ [insn]) next next')
    (hsim : R [] s state') (hsteps : code.steps machine s insns = some after) :
    ∃ after', code'.steps machine' state' (insns.flatMap image) = some after' ∧
      R insns after after' := by
  induction insns using reverseRecOn generalizing after with
  | nil =>
    cases hsteps
    exact ⟨state', rfl, hsim⟩
  | append_singleton front insn ih =>
    rw [steps_append, bind_eq_some_iff] at hsteps
    obtain ⟨middle, hfront, hlast⟩ := hsteps
    rw [steps_singleton] at hlast
    obtain ⟨middle', hfront', hmiddle⟩ := ih (fun first other back now now' next hsplit =>
      hstep first other (back ++ [insn]) now now' next (by simp [hsplit])) hfront
    obtain ⟨after', hlast', hafter⟩ := hstep _ _ [] middle _ _ rfl hfront hmiddle hlast
    refine ⟨after', ?_, hafter⟩
    rw [flatMap_append, flatMap_singleton, steps_append, hfront']
    exact hlast'

variable {t src b : Block} {env : Insn → Value}

theorem enter_env_of_mem (hphi : insn ∈ code.phis t) :
    (code.enter src t s).env insn = s.env (code.phiInput insn src) :=
  if_pos hphi

theorem enter_env_of_notMem (hphi : insn ∉ code.phis t) :
    (code.enter src t s).env insn = s.env insn :=
  if_neg hphi

omit [DecidableEq Insn] in
theorem next_mem (hnext : code.next machine b env = some t) : t ∈ code.succs b :=
  mem_of_getElem? hnext

omit [DecidableEq Insn] in
theorem next_of_same {code' : Code Block Insn' Op} {block' : Block} {env' : Insn' → Value}
    (hterminator : code'.terminator block' = insn')
    (hops : code'.operands env' insn' = code.operands env (code.terminator b))
    (hop : code'.op insn' = code.op (code.terminator b))
    (hsuccs : code'.succs block' = code.succs b) :
    code'.next machine block' env' = code.next machine b env := by
  rw [next, next, hsuccs, hterminator, hop, hops]

/-! ## Runs of a loop -/

section Loop

variable (code machine) {flow : FlowGraph Block} (loop : NaturalLoop flow) (preHeader : Block)
  (start : State Insn Value Store)

/-- A run of the loop that has entered the latest block of a path, the latest first,
and has assigned its phis. -/
inductive LoopRun : List Block → State Insn Value Store → Prop
  | enter : LoopRun [loop.header] (code.enter preHeader loop.header start)
  | step {block target : Block} {past : List Block} {state after : State Insn Value Store} :
      LoopRun (block :: past) state →
      code.steps machine state (code.instructions block) = some after →
      code.next machine block after.env = some target → target ∈ loop.body →
      LoopRun (target :: block :: past) (code.enter block target after)

structure LeavesLoop (past : List Block) (block target : Block)
    (after : State Insn Value Store) : Prop where
  run : ∃ state, LoopRun code machine loop preHeader start (block :: past) state ∧
    code.steps machine state (code.instructions block) = some after
  next : code.next machine block after.env = some target
  outside : target ∉ loop.body

def Executes (state : State Insn Value Store) (insn : Insn) : Prop :=
  ∃ block past entered before after,
    LoopRun code machine loop preHeader start (block :: past) entered ∧
      code.instructions block = before ++ insn :: after ∧
      code.steps machine entered before = some state

/-- The run is about to execute an instruction in the latest block of a path. -/
def ExecutesAt (path : List Block) (state : State Insn Value Store) (insn : Insn) : Prop :=
  ∃ block past entered before after, path = block :: past ∧
    LoopRun code machine loop preHeader start path entered ∧
      code.instructions block = before ++ insn :: after ∧
      code.steps machine entered before = some state

variable {code machine loop preHeader start}

variable {path : List Block}

section

variable (hrun : LoopRun code machine loop preHeader start path s)

include hrun

theorem LoopRun.mem_body : ∀ b ∈ path, b ∈ loop.body := by
  induction hrun with
  | enter => simpa using loop.header_mem
  | step _ _ _ hbody ih =>
    intro b hblock
    rcases mem_cons.mp hblock with rfl | hpast
    · exact hbody
    · exact ih _ hpast

/-- The blocks before the latest one were executed. -/
theorem LoopRun.visited : ∀ b ∈ path.tail, ∃ past entered after,
      LoopRun code machine loop preHeader start (b :: past) entered ∧
        code.steps machine entered (code.instructions b) = some after := by
  induction hrun with
  | enter => simp
  | step hrun hsteps _ _ ih =>
    intro b hblock
    rcases mem_cons.mp hblock with rfl | hpast
    · exact ⟨_, _, _, hrun, hsteps⟩
    · exact ih _ hpast

/-- A run is cut at the header into the iteration in progress and the earlier ones. -/
theorem LoopRun.exists_iteration (hsuccs : ∀ src t, t ∈ code.succs src → t ∈ flow.succs src) :
    ∃ b past completed, path = (b :: past) ++ completed ∧ loop.Iteration (b :: past) := by
  induction hrun with
  | enter => exact ⟨loop.header, [], [], rfl, .start⟩
  | @step b t trail s after _ _ hnext hbody ih =>
    obtain ⟨_, past, completed, hpath, hcur⟩ := ih
    obtain ⟨rfl, htrail⟩ := cons.inj hpath
    by_cases hheader : t = loop.header
    · subst hheader
      exact ⟨loop.header, [], b :: trail, rfl, .start⟩
    · refine ⟨t, b :: past, completed, by rw [htrail]; rfl, ?_⟩
      exact .step hcur (hsuccs b t (next_mem hnext)) hbody hheader

end

variable {past : List Block}

theorem LoopRun.executes {entered : State Insn Value Store}
    (hrun : LoopRun code machine loop preHeader start (b :: past) entered)
    (hsteps : code.steps machine entered (code.instructions b) = some after)
    (hinsn : insn ∈ code.instructions b) :
    ∃ s next, Executes code machine loop preHeader start s insn ∧
      code.step machine s insn = some next := by
  obtain ⟨first, second, hsplit⟩ := append_of_mem hinsn
  rw [hsplit, steps_append, bind_eq_some_iff] at hsteps
  obtain ⟨s, hfirst, hsteps⟩ := hsteps
  rw [steps_cons, bind_eq_some_iff] at hsteps
  obtain ⟨next, hstep, -⟩ := hsteps
  exact ⟨s, next, ⟨b, past, entered, first, second, hrun, hsplit, hfirst⟩, hstep⟩

/-- When the loop is left, the blocks that dominate the target were executed. -/
theorem LeavesLoop.executes (hsuccs : ∀ src t, t ∈ code.succs src → t ∈ flow.succs src) {t : Block}
    (hleaves : LeavesLoop code machine loop preHeader start past b t after)
    {visited : Block} (hbody : visited ∈ loop.body) (hdom : flow.Dominates visited t)
    (hinsn : insn ∈ code.instructions visited) :
    ∃ s next, Executes code machine loop preHeader start s insn ∧
      code.step machine s insn = some next := by
  obtain ⟨⟨s, hrun, hsteps⟩, hnext, hout⟩ := hleaves
  obtain ⟨_, cur, completed, hpath, hcur⟩ := hrun.exists_iteration hsuccs
  obtain ⟨rfl, htrail⟩ := cons.inj hpath
  have hmem := hcur.mem_of_dominates_exit hbody (hsuccs b t (next_mem hnext)) hout hdom
  rcases mem_cons.mp hmem with rfl | hpast
  · exact hrun.executes hsteps hinsn
  · have htail : visited ∈ past := by
      rw [htrail]
      exact mem_append_left _ hpast
    obtain ⟨_, entered, done, hvis, hdone⟩ := hrun.visited _ htail
    exact hvis.executes hdone hinsn

section

variable (hphis : ∀ b ∈ loop.body, other ∉ code.phis b)
  (hinstr : ∀ b ∈ loop.body, other ∉ code.instructions b)

include hphis hinstr

/-- The values of instructions outside of the loop do not change in a run. -/
theorem LoopRun.env_of_outside (hrun : LoopRun code machine loop preHeader start path s) :
    s.env other = start.env other := by
  induction hrun with
  | enter => exact if_neg (hphis _ loop.header_mem)
  | @step b t past s after hrun hsteps _ hbody ih =>
    have hblock := hrun.mem_body b mem_cons_self
    rw [← ih, ← steps_env_of_notMem hsteps (hinstr _ hblock)]
    exact if_neg (hphis _ hbody)

theorem Executes.env_of_outside (hexec : Executes code machine loop preHeader start s insn) :
    s.env other = start.env other := by
  obtain ⟨b, past, entered, before, after, hrun, hsplit, hsteps⟩ := hexec
  have hblock := hrun.mem_body b mem_cons_self
  rw [← hrun.env_of_outside hphis hinstr]
  apply steps_env_of_notMem hsteps
  intro hmem
  exact hinstr _ hblock (by rw [hsplit]; exact mem_append_left _ hmem)

end

end Loop

end Code

/-! ## Graphs in SSA form -/

/-- Every instruction is in one place, and operands are computed before they are
used. -/
structure SsaGraph (Block Insn Op : Type u) [DecidableEq Insn] where
  entry : Block
  code : Code Block Insn Op
  getBlock : Insn → Block
  mem_iff : ∀ insn block, insn ∈ code.instructionsOf block ↔ getBlock insn = block
  nodup : ∀ block, (code.instructionsOf block).Nodup
  operands_dominate : ∀ insn, insn ∉ code.phis (getBlock insn) → ∀ input ∈ code.inputs insn,
    FlowGraph.Dominates ⟨entry, code.succs⟩ (getBlock input) (getBlock insn)
  operands_before : ∀ insn, insn ∉ code.phis (getBlock insn) → ∀ input ∈ code.inputs insn,
    getBlock input = getBlock insn → (code.instructionsOf (getBlock insn)).idxOf input <
        (code.instructionsOf (getBlock insn)).idxOf insn
  phi_operands_dominate : ∀ block, ∀ phi ∈ code.phis block, ∀ source, block ∈ code.succs source →
      FlowGraph.Dominates ⟨entry, code.succs⟩ (getBlock (code.phiInput phi source)) source
  entry_notMem_succs : ∀ block, entry ∉ code.succs block

namespace SsaGraph

variable {Block Insn Op : Type u} [DecidableEq Insn] (graph : SsaGraph Block Insn Op)

def flow : FlowGraph Block := ⟨graph.entry, graph.code.succs⟩

variable {graph}

variable {insn : Insn} {b : Block}

theorem getBlock_of_mem_phis (hphi : insn ∈ graph.code.phis b) : graph.getBlock insn = b := by
  rw [← graph.mem_iff]
  exact mem_append_left _ (mem_append_left _ hphi)

theorem getBlock_of_mem_instructions (hinsn : insn ∈ graph.code.instructions b) :
    graph.getBlock insn = b := by
  rw [← graph.mem_iff]
  exact mem_append_left _ (mem_append_right _ hinsn)

theorem getBlock_terminator (b : Block) : graph.getBlock (graph.code.terminator b) = b := by
  rw [← graph.mem_iff]
  exact mem_append_right _ mem_cons_self

theorem notMem_phis (hblock : graph.getBlock insn = b)
    (hinsn : insn ∈ graph.code.instructions b ++ [graph.code.terminator b])
    (other : Block) : insn ∉ graph.code.phis other := by
  intro hphi
  obtain rfl : other = b := (getBlock_of_mem_phis hphi).symm.trans hblock
  have hnodup := graph.nodup other
  rw [Code.instructionsOf, append_assoc] at hnodup
  exact (nodup_append.mp hnodup).2.2 insn hphi _ hinsn rfl

theorem notMem_phis_of_mem_instructions (hinsn : insn ∈ graph.code.instructions b)
    (other : Block) : insn ∉ graph.code.phis other :=
  notMem_phis (getBlock_of_mem_instructions hinsn) (mem_append_left _ hinsn) other

theorem terminator_notMem_phis (b other : Block) :
    graph.code.terminator b ∉ graph.code.phis other :=
  notMem_phis (getBlock_terminator b) (mem_append_right _ (mem_singleton_self _)) other

theorem terminator_notMem_instructions (b other : Block) :
    graph.code.terminator b ∉ graph.code.instructions other := by
  intro hinsn
  obtain rfl : other = b := (getBlock_of_mem_instructions hinsn).symm.trans (getBlock_terminator b)
  have hnodup := graph.nodup other
  exact (nodup_append.mp hnodup).2.2 _ (mem_append_right _ hinsn) _ (mem_singleton_self _) rfl

section Split

variable {before after : List Insn}
  (hsplit : graph.code.instructionsOf b = before ++ insn :: after)

include hsplit

theorem getBlock_of_split : graph.getBlock insn = b := by
  rw [← graph.mem_iff, hsplit]
  simp

theorem notMem_before : insn ∉ before := by
  have hnodup := graph.nodup b
  rw [hsplit] at hnodup
  intro hmem
  exact (nodup_append.mp hnodup).2.2 insn hmem insn mem_cons_self rfl

theorem idxOf_of_split : (graph.code.instructionsOf b).idxOf insn = before.length := by
  rw [hsplit, idxOf_append_of_notMem (notMem_before hsplit), idxOf_cons_self]
  rfl

/-- An operand in the same block comes before. -/
theorem mem_before_of_operand (hphi : insn ∉ graph.code.phis b) {operand : Insn}
    (hoperand : operand ∈ graph.code.inputs insn) (heq : graph.getBlock operand = b) :
    operand ∈ before := by
  have hblock := getBlock_of_split hsplit
  rw [← hblock] at hphi
  have hlt := graph.operands_before _ hphi _ hoperand (heq.trans hblock.symm)
  rw [hblock, idxOf_of_split hsplit] at hlt
  have hmem : operand ∈ (graph.code.instructionsOf b).take before.length := by
    rw [mem_take_iff_idxOf_lt]
    · exact hlt
    · rw [graph.mem_iff]
      exact heq
  rwa [hsplit, take_left] at hmem

end Split

end SsaGraph

structure SsaLoop {Block Insn Op : Type u} [DecidableEq Insn] (graph : SsaGraph Block Insn Op)
    extends NaturalLoop graph.flow where
  preHeader : Block
  preHeader_notMem : preHeader ∉ body
  preHeader_succs : header ∈ graph.code.succs preHeader
  entered_from_preHeader : ∀ source, source ∉ body → header ∈ graph.code.succs source →
    source = preHeader

/-- What a phi of the header takes from the preheader is not in the loop. -/
theorem SsaLoop.phiInput_preHeader_notMem {Block Insn Op : Type u} [DecidableEq Insn]
    {graph : SsaGraph Block Insn Op} (loop : SsaLoop graph) {phi : Insn}
    (hphi : phi ∈ graph.code.phis loop.header) :
    graph.getBlock (graph.code.phiInput phi loop.preHeader) ∉ loop.body := by
  intro hbody
  have hdom := graph.phi_operands_dominate loop.header phi hphi loop.preHeader loop.preHeader_succs
  obtain ⟨past, htrace, hout⟩ := loop.exists_entering_trace
  cases past with
  | nil => exact absurd loop.header_mem (htrace.eq_entry ▸ loop.entry_notMem)
  | cons src past =>
    have hsrc := loop.entered_from_preHeader _ (hout src mem_cons_self) htrace.edge
    subst hsrc
    exact hout _ (hdom _ htrace.tail) hbody

end NougatArt
