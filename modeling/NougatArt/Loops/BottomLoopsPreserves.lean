import NougatArt.Loops.BottomLoopsSound

/-!
# Runs of bottom tested loops

Every run of the original loop is matched by a run of the rewritten loop along the same
blocks, without the header after the first time.
-/

namespace NougatArt.BottomLoops

open List HLoopInformation Code SsaGraph

variable {blocks insns : ℕ} {graph : HGraph blocks insns} {loop : HLoopInformation graph}
  {exit : Fin blocks}

namespace HLoopInformation

variable (loop)

/-- The path of the rewritten loop, the latest block first: the header is executed once. -/
def rotatePath (path : List (Fin blocks)) : List (Fin blocks) :=
  path.filter (· ≠ loop.header) ++ [loop.header]

/-- What is executed in the rewritten loop for an instruction at the end of a path. -/
def counterpart (path : List (Fin blocks)) (insn : Fin insns) : Target insns :=
  if path ≠ [loop.header] ∧ insn ∈ loop.cloned then .clone insn else .old insn

/-- The instructions of a block of the rewritten loop before the clones. -/
def leading (exit block : Fin blocks) : List (Target insns) :=
  (if block = loop.firstBlock exit then loop.suspendCheck.toList.map .old else []) ++
    (graph.code.instructions block).map .old

end HLoopInformation

theorem rotatePath_cons {b : Fin blocks} (hne : b ≠ loop.header) (past : List (Fin blocks)) :
    loop.rotatePath (b :: past) = b :: loop.rotatePath past := by
  simp [rotatePath, hne]

theorem rotatePath_header (past : List (Fin blocks)) :
    loop.rotatePath (loop.header :: past) = loop.rotatePath past := by
  simp [rotatePath]

section Instructions

variable {b : Fin blocks}
variable {ctx : FBLContext insns} (htop : TopTested loop exit)

include htop

theorem instructions_header : (loop.rewriteLoop ctx exit).instructions loop.header =
      ((graph.code.instructions loop.header).filter fun insn =>
        loop.suspendCheck ≠ some insn).map .old := by
  simp [rewriteLoop, htop.first_ne_header.symm, htop.back_ne_header.symm]

omit htop in
theorem filter_suspendCheck (hne : b ≠ loop.header) :
    ((graph.code.instructions b).filter fun insn => loop.suspendCheck ≠ some insn) =
      graph.code.instructions b := by
  refine filter_eq_self.mpr fun insn hinsn => decide_eq_true fun hsusp => ?_
  have hheader := getBlock_of_mem_instructions (loop.suspendCheck_mem _ hsusp)
  exact hne ((getBlock_of_mem_instructions hinsn).symm.trans hheader)

omit htop in
theorem instructions_of_ne (hne : b ≠ loop.header) : (loop.rewriteLoop ctx exit).instructions b =
      loop.leading exit b ++ if b = loop.backBlock then loop.cloned.map .clone else [] := by
  simp only [rewriteLoop, leading, filter_suspendCheck hne]

theorem instructions_back : (loop.rewriteLoop ctx exit).instructions loop.backBlock =
      loop.leading exit loop.backBlock ++
        ((graph.code.instructions loop.header).filter (· ∈ loop.cloned)).map .clone := by
  rw [instructions_of_ne htop.back_ne_header, if_pos rfl, filter_mem_cloned]

end Instructions

section Runs

variable {Value Store : Type} {m : Machine HInstruction Value Store}
  {ctx : FBLContext insns} {start s after : Code.State (Fin insns) Value Store}
  {start' state' : Code.State (Target insns) Value Store} {past : List (Fin blocks)}

/-- The suspend check at the beginning of the first block has no effect. -/
theorem steps_leading (hruntime : Runtime loop m start) (b : Fin blocks)
    (state' : Code.State (Target insns) Value Store) (list : List (Target insns)) :
    (loop.rewriteLoop ctx exit).steps m state'
        ((if b = loop.firstBlock exit then loop.suspendCheck.toList.map .old else []) ++ list) =
      (loop.rewriteLoop ctx exit).steps m state' list := by
  by_cases hfirst : b = loop.firstBlock exit
  · rw [if_pos hfirst]
    cases hsusp : loop.suspendCheck with
    | none => rfl
    | some insn =>
      have hop : (loop.rewriteLoop ctx exit).op (.old insn) = graph.code.op insn := rfl
      rw [Option.toList_some, map_singleton, singleton_append, steps_cons,
        hruntime.step_suspendCheck hsusp hop]
      rfl
  · rw [if_neg hfirst]
    rfl

/-- Where the rewritten loop is when the original one has entered a block. -/
inductive Matches (loop : HLoopInformation graph) (exit : Fin blocks) (context : FBLContext insns)
    (machine : Machine HInstruction Value Store) (start' : Code.State (Target insns) Value Store) :
    List (Fin blocks) → Code.State (Fin insns) Value Store → Prop
  | first {state : Code.State (Fin insns) Value Store}
      {state' : Code.State (Target insns) Value Store} :
      Code.LoopRun (loop.rewriteLoop context exit) machine loop.toNaturalLoop loop.preHeader start'
        [loop.header] state' →
      InHeader loop state state' → Matches loop exit context machine start' [loop.header] state
  | body {block : Fin blocks} {past : List (Fin blocks)}
      {state : Code.State (Fin insns) Value Store}
      {state' : Code.State (Target insns) Value Store} :
      block ≠ loop.header →
      Code.LoopRun (loop.rewriteLoop context exit) machine loop.toNaturalLoop loop.preHeader start'
        (block :: loop.rotatePath past) state' →
      Fixed loop context .inside state state' →
      Matches loop exit context machine start' (block :: past) state
  -- The header is entered again: the rewritten loop is before the clones.
  | again {past : List (Fin blocks)} {state : Code.State (Fin insns) Value Store}
      {entered' state' : Code.State (Target insns) Value Store} :
      Code.LoopRun (loop.rewriteLoop context exit) machine loop.toNaturalLoop loop.preHeader start'
        (loop.backBlock :: loop.rotatePath past) entered' →
      (loop.rewriteLoop context exit).steps machine entered' (loop.leading exit loop.backBlock) =
        some state' →
      InClone loop context [] state state' →
      Matches loop exit context machine start' (loop.header :: loop.backBlock :: past) state

section Blocks

variable (htop : TopTested loop exit)

include htop

section

variable (hruntime : Runtime loop m start)

include hruntime

/-- The header is executed the first time. -/
theorem InHeader.executed (hheader : InHeader loop s state') (hresol : Resolved loop s.env)
    (hsteps : graph.code.steps m s (graph.code.instructions loop.header) = some after) :
    ∃ after', (loop.rewriteLoop ctx exit).steps m state'
        ((loop.rewriteLoop ctx exit).instructions loop.header) = some after' ∧
      InHeader loop after after' ∧ (loop.rewriteLoop ctx exit).next m loop.header after'.env =
        graph.code.next m loop.header after.env := by
  obtain ⟨after', hsteps', hafter⟩ := hheader.steps hruntime (fun _ hinsn => hinsn) hresol hsteps
  refine ⟨after', by rw [instructions_header htop]; exact hsteps', hafter, ?_⟩
  have hresol' := hresol.steps loop.header_mem (fun _ hinsn => hinsn) hsteps
  have hsusp : loop.suspendCheck ≠ some (graph.code.terminator loop.header) := fun hsusp =>
    terminator_notMem_instructions _ _ (loop.suspendCheck_mem _ hsusp)
  have hposition := position_of_header (getBlock_terminator _) (terminator_notMem_phis _ _) hsusp
  have hne := htop.back_ne_header.symm
  exact next_of_same (if_neg hne) (hafter.operands hresol' hposition) rfl (if_neg hne)

/-- The clones are executed when the header is executed again. -/
theorem InClone.executed (hcompl : Complete loop ctx) (hpast : past ≠ [])
    (hrun : Code.LoopRun graph.code m loop.toNaturalLoop loop.preHeader start
      (loop.header :: past) s) {entered' : Code.State (Target insns) Value Store}
    (hleading : (loop.rewriteLoop ctx exit).steps m entered'
      (loop.leading exit loop.backBlock) = some state')
    (hclone : InClone loop ctx [] s state')
    (hsteps : graph.code.steps m s (graph.code.instructions loop.header) = some after) :
    ∃ after', (loop.rewriteLoop ctx exit).steps m entered'
        ((loop.rewriteLoop ctx exit).instructions loop.backBlock) = some after' ∧
      InClone loop ctx (graph.code.instructions loop.header) after after' ∧
      (loop.rewriteLoop ctx exit).next m loop.backBlock after'.env =
        graph.code.next m loop.header after.env := by
  have hresol := resolved_of_loopRun htop hrun
  obtain ⟨after', hsteps', hafter⟩ :=
    hclone.steps hruntime hcompl hpast hrun hresol (append_nil _).symm hsteps
  refine ⟨after', ?_, hafter, ?_⟩
  · rw [instructions_back htop, steps_append, hleading]
    exact hsteps'
  · have hresol' := hresol.steps loop.header_mem (fun _ hinsn => hinsn) hsteps
    refine next_of_same (if_pos rfl) ?_ rfl (if_pos rfl)
    exact hafter.operands hcompl hresol' prefix_rfl (by simp) (terminator_notMem_phis _ _)
      fun _ _ hmem => hmem

omit htop in
/-- A block of the loop is executed up to the clones. -/
theorem Fixed.executed (hcompl : Complete loop ctx)
    {b : Fin blocks} (hblock : b ∈ loop.body) (hne : b ≠ loop.header)
    (hfixed : Fixed loop ctx .inside s state') (hresol : Resolved loop s.env)
    (hsteps : graph.code.steps m s (graph.code.instructions b) = some after) :
    ∃ after', (loop.rewriteLoop ctx exit).steps m state' (loop.leading exit b) =
        some after' ∧ Fixed loop ctx .inside after after' ∧
      (b ≠ loop.backBlock → (loop.rewriteLoop ctx exit).next m b after'.env =
        graph.code.next m b after.env) := by
  obtain ⟨after', hsteps', hafter⟩ :=
    hfixed.steps hcompl hblock hne (fun _ hinsn => hinsn) hresol hsteps
  refine ⟨after', ?_, hafter, fun hback => ?_⟩
  · rw [leading, steps_leading hruntime]
    exact hsteps'
  · have hresol' := hresol.steps hblock (fun _ hinsn => hinsn) hsteps
    have hgetBlock : graph.getBlock (graph.code.terminator b) = b := getBlock_terminator b
    refine next_of_same (if_neg hback) ?_ rfl (if_neg hback)
    exact hafter.operands hcompl hresol' (terminator_notMem_phis _ _)
      (position_of_mem_body (hgetBlock.symm ▸ hne) (hgetBlock.symm ▸ hblock))

end

end Blocks

section Whole

variable (htop : TopTested loop exit) (hruntime : Runtime loop m start)
  (hcompl : Complete loop ctx)

include htop hruntime hcompl

/-- One block of the original loop is matched by one block of the rewritten loop, but for the
header after the back edge block. -/
theorem Matches.step {b t : Fin blocks} (hmatches : Matches loop exit ctx m start' (b :: past) s)
    (hrun : Code.LoopRun graph.code m loop.toNaturalLoop loop.preHeader start (b :: past) s)
    (hsteps : graph.code.steps m s (graph.code.instructions b) = some after)
    (hnext : graph.code.next m b after.env = some t) (htarget : t ∈ loop.body) :
    Matches loop exit ctx m start' (t :: b :: past) (graph.code.enter b t after) := by
  have hresol := resolved_of_loopRun htop hrun
  have hblock := hrun.mem_body _ mem_cons_self
  -- From the header the loop goes on to its first block.
  have hfirst : b = loop.header → t = loop.firstBlock exit := by
    rintro rfl
    refine (htop.header_succs t (next_mem hnext)).resolve_left fun heq => ?_
    exact htop.exit_notMem (heq ▸ htarget)
  cases hmatches with
  | first hrun' hheader =>
    obtain rfl := hfirst rfl
    obtain ⟨after', hsteps', hafter, hnext'⟩ := hheader.executed htop hruntime hresol hsteps
    refine .body htop.first_ne_header ?_ (hafter.enter htop hcompl .inside)
    rw [rotatePath_header]
    exact .step hrun' hsteps' (hnext'.trans hnext) htarget
  | @body _ _ _ state' hne hrun' hfixed =>
    obtain ⟨after', hsteps', hafter, hnext'⟩ :=
      hfixed.executed hruntime hcompl hblock hne hresol hsteps
    have hresol' := hresol.steps hblock (fun _ hinsn => hinsn) hsteps
    by_cases hheader : t = loop.header
    · subst hheader
      obtain rfl := htop.back_unique _ hblock (next_mem hnext)
      exact .again hrun' hsteps' (hafter.enter_header hresol')
    have hback : b ≠ loop.backBlock := by
      rintro rfl
      have hmem := next_mem hnext
      rw [htop.succs_back] at hmem
      exact hheader (mem_singleton.mp hmem)
    have hnotFirst : t ≠ loop.firstBlock exit := fun heq =>
      hne (htop.first_predecessor (heq ▸ next_mem hnext))
    have hinstr : (loop.rewriteLoop ctx exit).instructions b = loop.leading exit b := by
      rw [instructions_of_ne hne, if_neg hback, append_nil]
    refine .body hheader ?_
      (hafter.enter htop hcompl hresol' (next_mem hnext) htarget hheader hnotFirst)
    rw [rotatePath_cons hne]
    exact .step hrun' (hinstr ▸ hsteps') ((hnext' hback).trans hnext) htarget
  | again hrun' hleading hclone =>
    obtain rfl := hfirst rfl
    obtain ⟨after', hsteps', hafter, hnext'⟩ :=
      hclone.executed htop hruntime hcompl (cons_ne_nil _ _) hrun hleading hsteps
    refine .body htop.first_ne_header ?_ (hafter.enter htop hcompl .inside)
    rw [rotatePath_header, rotatePath_cons htop.back_ne_header]
    exact .step hrun' hsteps' (hnext'.trans hnext) htarget

section

variable {path : List (Fin blocks)}
variable (hstart : SameStart start start')

include hstart

/-- Every run of the loop is matched by a run of the rewritten loop. -/
theorem matches_of_loopRun
    (hrun : Code.LoopRun graph.code m loop.toNaturalLoop loop.preHeader start path s) :
    Matches loop exit ctx m start' path s := by
  induction hrun with
  | enter => exact .first .enter (hstart.enter ctx exit)
  | step hrun hsteps hnext htarget ih =>
    exact ih.step htop hruntime hcompl hrun hsteps hnext htarget

/-- When the loop is left, so is the rewritten loop. -/
theorem exists_leavesLoop {b t : Fin blocks}
    (hleaves : Code.LeavesLoop graph.code m loop.toNaturalLoop loop.preHeader start past
      b t after) :
    ∃ past' block' after', Code.LeavesLoop (loop.rewriteLoop ctx exit) m
        loop.toNaturalLoop loop.preHeader start' past' block' t after' ∧
      block' :: past' = loop.rotatePath past ∧ Fixed loop ctx .outside (graph.code.enter b t after)
        ((loop.rewriteLoop ctx exit).enter block' t after') := by
  obtain ⟨⟨s, hrun, hsteps⟩, hnext, hout⟩ := hleaves
  have hblock := hrun.mem_body b mem_cons_self
  obtain ⟨rfl, rfl⟩ := htop.leaves _ hblock _ (next_mem hnext) hout
  have hmatches := matches_of_loopRun htop hruntime hcompl hstart hrun
  cases hmatches with
  | first hrun' hheader =>
    obtain ⟨after', hsteps', hafter, hnext'⟩ :=
      hheader.executed htop hruntime (resolved_of_loopRun htop hrun) hsteps
    exact ⟨[], loop.header, after', ⟨⟨_, hrun', hsteps'⟩, hnext'.trans hnext, hout⟩, rfl,
      hafter.enter htop hcompl .outside⟩
  | body hne => exact absurd rfl hne
  | @again past _ _ _ hrun' hleading hclone =>
    obtain ⟨after', hsteps', hafter, hnext'⟩ :=
      hclone.executed htop hruntime hcompl (cons_ne_nil _ _) hrun hleading hsteps
    exact ⟨loop.rotatePath past, loop.backBlock, after',
      ⟨⟨_, hrun', hsteps'⟩, hnext'.trans hnext, hout⟩,
      (rotatePath_cons htop.back_ne_header past).symm, hafter.enter htop hcompl .outside⟩

/-- Every instruction is executed on the same values, but for suspend checks, elided conversions
and classes that are loaded again. -/
theorem exists_executesAt {insn : Fin insns}
    (hexec : Code.ExecutesAt graph.code m loop.toNaturalLoop loop.preHeader start path
      s insn) (hinsn : graph.getBlock insn = loop.header →
      loop.suspendCheck ≠ some insn ∧ (path = [loop.header] ∨ insn ∈ loop.cloned)) :
    ∃ state', Code.ExecutesAt (loop.rewriteLoop ctx exit) m loop.toNaturalLoop
        loop.preHeader start' (loop.rotatePath path) state' (loop.counterpart path insn) ∧
      (loop.rewriteLoop ctx exit).operands state'.env (loop.counterpart path insn) =
        graph.code.operands s.env insn ∧
      state'.store = s.store := by
  obtain ⟨b, past, entered, before, after, rfl, hrun, hsplit, hsteps⟩ := hexec
  have hmem : insn ∈ graph.code.instructions b := by simp [hsplit]
  have hgetBlock := getBlock_of_mem_instructions hmem
  have hbefore : ∀ other ∈ before, other ∈ graph.code.instructions b := by
    intro other hother
    rw [hsplit]
    exact mem_append_left _ hother
  have hblock := hrun.mem_body _ mem_cons_self
  have hentered := resolved_of_loopRun htop hrun
  have hresol := hentered.steps hblock hbefore hsteps
  have hphi := notMem_phis_of_mem_instructions hmem
  cases matches_of_loopRun htop hruntime hcompl hstart hrun with
  | @first _ entered' hrun' hheader =>
    have hsusp := (hinsn hgetBlock).1
    obtain ⟨state', hsteps', hstate⟩ := hheader.steps hruntime hbefore hentered hsteps
    have hold : loop.counterpart [loop.header] insn = .old insn := if_neg fun hne => hne.1 rfl
    rw [hold, rotatePath_header]
    refine ⟨state', ⟨loop.header, [], entered', _,
      (after.filter fun insn => loop.suspendCheck ≠ some insn).map .old, rfl, hrun', ?_, hsteps'⟩,
      hstate.operands hresol (position_of_header hgetBlock (hphi _) hsusp), hstate.store⟩
    rw [instructions_header htop, hsplit, filter_append,
      filter_cons_of_pos (by simpa using hsusp), map_append, map_cons]
  | @body _ _ _ entered' hne hrun' hfixed =>
    obtain ⟨state', hsteps', hstate⟩ := hfixed.steps hcompl hblock hne hbefore hentered hsteps
    have hold : loop.counterpart (b :: past) insn = .old insn := if_neg fun hcloned =>
      hne (hgetBlock.symm.trans (getBlock_of_mem_cloned hcloned.2))
    rw [hold, rotatePath_cons hne]
    refine ⟨state', ⟨b, _, entered', _, after.map .old ++
      (if b = loop.backBlock then loop.cloned.map .clone else []), rfl, hrun', ?_,
      (steps_leading hruntime b entered' _).trans hsteps'⟩,
      hstate.operands hcompl hresol (hphi _)
        (position_of_mem_body (hgetBlock ▸ hne) (hgetBlock ▸ hblock)), hstate.store⟩
    rw [instructions_of_ne hne, leading, hsplit, map_append, map_cons]
    simp only [append_assoc, cons_append]
  | @again past _ entered' middle' hrun' hleading hclone =>
    have hcloned : insn ∈ loop.cloned := (hinsn hgetBlock).2.resolve_left (by simp)
    obtain ⟨state', hsteps', hstate⟩ :=
      hclone.steps hruntime hcompl (cons_ne_nil _ _) hrun hentered hsplit hsteps
    have hnew : loop.counterpart (loop.header :: loop.backBlock :: past) insn = .clone insn :=
      if_pos ⟨by simp, hcloned⟩
    rw [hnew, rotatePath_header, rotatePath_cons htop.back_ne_header]
    refine ⟨state', ⟨loop.backBlock, _, entered', loop.leading exit loop.backBlock ++
      (before.filter (· ∈ loop.cloned)).map .clone, (after.filter (· ∈ loop.cloned)).map .clone,
      rfl, hrun', ?_, ?_⟩,
      hstate.operands hcompl hresol ⟨_, hsplit.symm⟩ (mem_append_left _ hcloned) (hphi _)
        fun input hinput hmem => mem_before_of_mem_inputs hsplit hinput hmem, hstate.store⟩
    · rw [instructions_back htop, hsplit, filter_append,
        filter_cons_of_pos (by simpa using hcloned), map_append, map_cons,
        append_assoc]
    · rw [steps_append, hleading]
      exact hsteps'

end

end Whole

end Runs

/-! ## What is preserved -/

/-- The rewritten loop executes the instructions of the original one on the same values, in
the same order, and is left with the same values for all uses after the loop. -/
structure Preserves (loop : HLoopInformation graph) (exit : Fin blocks)
    (context : FBLContext insns) {Value Store : Type} (machine : Machine HInstruction Value Store)
    (start : Code.State (Fin insns) Value Store) : Prop where
  executes : ∀ start', SameStart start start' → ∀ path state insn,
    Code.ExecutesAt graph.code machine loop.toNaturalLoop loop.preHeader start path state insn →
    (graph.getBlock insn = loop.header →
      loop.suspendCheck ≠ some insn ∧ (path = [loop.header] ∨ insn ∈ loop.cloned)) →
    ∃ state', Code.ExecutesAt (loop.rewriteLoop context exit) machine loop.toNaturalLoop
        loop.preHeader start' (loop.rotatePath path) state' (loop.counterpart path insn) ∧
      (loop.rewriteLoop context exit).operands state'.env (loop.counterpart path insn) =
        graph.code.operands state.env insn ∧
      state'.store = state.store
  leaves : ∀ start', SameStart start start' → ∀ past block target after,
    Code.LeavesLoop graph.code machine loop.toNaturalLoop loop.preHeader start past block target
      after →
    ∃ past' block' after', Code.LeavesLoop (loop.rewriteLoop context exit) machine
        loop.toNaturalLoop loop.preHeader start' past' block' target after' ∧
      block' :: past' = loop.rotatePath past ∧
      ((loop.rewriteLoop context exit).enter block' target after').store =
        (graph.code.enter block target after).store ∧
      (∀ user, graph.getBlock user ∉ loop.body → user ∉ graph.code.phis (graph.getBlock user) →
        (loop.rewriteLoop context exit).operands
            ((loop.rewriteLoop context exit).enter block' target after').env (.old user) =
          graph.code.operands (graph.code.enter block target after).env user) ∧
      ∀ outside, outside ∉ loop.body → ∀ phi ∈ graph.code.phis outside, ∀ source,
        outside ∈ graph.code.succs source →
          ((loop.rewriteLoop context exit).enter block' target after').env
              ((loop.rewriteLoop context exit).phiInput (.old phi) source) =
            (graph.code.enter block target after).env (graph.code.phiInput phi source)

theorem preserves_of_complete (htop : TopTested loop exit) {ctx : FBLContext insns}
    (hcompl : Complete loop ctx) {Value Store : Type}
    {m : Machine HInstruction Value Store} {start : Code.State (Fin insns) Value Store}
    (hruntime : Runtime loop m start) : Preserves loop exit ctx m start where
  executes start' hstart path s insn hexec hinsn :=
    exists_executesAt htop hruntime hcompl hstart hexec hinsn
  leaves start' hstart past b t after hleaves := by
    obtain ⟨past', block', after', hleaves', hpath, hfixed⟩ :=
      exists_leavesLoop htop hruntime hcompl hstart hleaves
    obtain ⟨⟨s, hrun, hsteps⟩, hnext, hout⟩ := hleaves
    have hblock := hrun.mem_body b mem_cons_self
    obtain ⟨rfl, rfl⟩ := htop.leaves _ hblock _ (next_mem hnext) hout
    have hresol : Resolved loop (graph.code.enter loop.header t after).env := by
      have hafter := (resolved_of_loopRun htop hrun).steps hblock (fun _ hinsn => hinsn) hsteps
      intro insn
      rw [enter_env_of_notMem (by simp [htop.phis_exit]),
        enter_env_of_notMem (by simp [htop.phis_exit])]
      exact hafter insn
    refine ⟨past', block', after', hleaves', hpath, hfixed.store, ?_, ?_⟩
    · intro user huser hphi
      exact hfixed.operands hcompl hresol hphi (position_of_outside huser)
    · intro outside hnot phi hphi src hedge
      have hne : outside ≠ loop.header := fun heq => hnot (heq ▸ loop.header_mem)
      have hgetBlock := getBlock_of_mem_phis hphi
      exact hfixed.phiInput hcompl hresol hphi hne hedge (position_of_outside (hgetBlock ▸ hnot))

/-- Unless a conversion that is elided is used in the loop or after it, the rotation of a loop
that the pass accepts is defined and preserves what the loop computes exactly if no phi of the
header whose value is needed takes an instruction of the header that is not cloned. -/
theorem rotation_preserves_iff (hgate : loop.shouldTransformLoop exit = true)
    (hlocal : ConversionsLocal loop) :
    (∃ context, loop.cloneInstructions = some context ∧
      ∀ {Value Store : Type} (machine : Machine HInstruction Value Store)
        (start : Code.State (Fin insns) Value Store), Runtime loop machine start →
          Preserves loop exit context machine start) ↔
      ∀ phi ∈ loop.headerPhis, loop.FixupNeeded phi → ¬ loop.TakesOwnClone phi := by
  have htop := topTested_of_shouldTransformLoop hgate
  have hheader : loop.checkLoopHeader = true := by
    rw [shouldTransformLoop, Bool.and_eq_true] at hgate
    exact hgate.2
  rw [← exists_cloneInstructions_iff hheader htop.back_mem]
  constructor
  · rintro ⟨context, hclone, -⟩
    exact ⟨context, hclone⟩
  · rintro ⟨context, hclone⟩
    exact ⟨context, hclone, fun machine start hruntime =>
      preserves_of_complete htop (complete_of_cloneInstructions hlocal hclone) hruntime⟩

/-! ## A phi that takes an instruction of the header -/

/-- A loop that goes on while `prev` is not the value of an instruction of the header, which
becomes `prev` in the next iteration; the instruction may be a class load. -/
def previousCode (classLoad : Bool) : Code (Fin 4) (Fin 9) HInstruction where
  op := ![⟨.other false false true, 0, .not⟩, ⟨.hGoto, 0, .void⟩,
    ⟨.other false false true, 1, .not⟩,
    ⟨if classLoad then .loadClass else .other false false true, 2, .not⟩,
    ⟨.other false false true, 3, .boolean⟩, ⟨.hIf, 0, .void⟩, ⟨.other false false true, 4, .not⟩,
    ⟨.hGoto, 0, .void⟩, ⟨.other true false false, 5, .void⟩]
  inputs := ![[], [], [], [], [2, 3], [4], [2], [], [2]]
  phis := ![[], [2], [], []]
  phiInput _ source := if source = 0 then 0 else 3
  instructions := ![[0], [3, 4], [6], []]
  terminator := ![1, 5, 7, 8]
  succs := ![[1], [2, 3], [1], []]

def previous (classLoad : Bool) : HGraph 4 9 where
  entry := 0
  code := previousCode classLoad
  getBlock := ![0, 0, 1, 1, 1, 1, 2, 2, 3]
  mem_iff := by cases classLoad <;> decide
  nodup := by cases classLoad <;> decide
  operands_dominate := by cases classLoad <;> decide +kernel
  operands_before := by cases classLoad <;> decide
  phi_operands_dominate := by cases classLoad <;> decide +kernel
  entry_notMem_succs := by cases classLoad <;> decide
  if_succs := by cases classLoad <;> decide
  no_critical_edges := by cases classLoad <;> decide
  phis_of_one_predecessor := by cases classLoad <;> decide

def previousLoop (classLoad : Bool) : HLoopInformation (previous classLoad) where
  header := 1
  body := {1, 2}
  header_mem := by decide
  entry_notMem := by cases classLoad <;> decide
  header_reachable := FlowGraph.reachable_of_earlier (by cases classLoad <;> decide) 1
  entered_at_header := by cases classLoad <;> decide
  preHeader := 0
  preHeader_notMem := by decide
  preHeader_succs := by cases classLoad <;> decide
  entered_from_preHeader := by cases classLoad <;> decide
  isOrHasIrreducibleLoop := false
  hasTryCatchHandler := false
  suspendCheck := none
  suspendCheck_mem := nofun

/-- The loop is accepted, but there is no fixup for the class that becomes `prev`. -/
theorem previousLoop_undefined : (previousLoop true).shouldTransformLoop 3 = true ∧
      (previousLoop true).cloneInstructions = none := by
  decide +kernel

/-- Every instruction counts its operands and is executed once more. -/
def previousMachine : Machine HInstruction ℕ ℕ where
  execute _ args store := some (some (args.sum + 1), store + 1)
  branch _ args := args.sum % 2

def previousStart : Code.State (Fin 9) ℕ ℕ where
  env _ := 0
  store := 0

theorem previousLoop_isElided (insn : Fin 9) : (previousLoop false).isElided insn = false := by
  revert insn
  decide

theorem previousLoop_runtime (start : Code.State (Fin 9) ℕ ℕ) :
    Runtime (previousLoop false) previousMachine start where
  result _ _ _ _ result hexecute := by
    cases hexecute
    exact nofun
  suspendCheck := nofun
  conversion insn helided := by
    rw [previousLoop_isElided] at helided
    cases helided
  again _ _ _ insn _ _ _ _ _ hown _ := by
    have hnot : ∀ insn, (previousLoop false).isOwnClone insn = false := by decide
    rw [hnot insn] at hown
    cases hown

/-- With another instruction the loop is rotated and computes the same. -/
theorem previousLoop_preserves : (previousLoop false).shouldTransformLoop 3 = true ∧
      Runtime (previousLoop false) previousMachine previousStart ∧
      ∃ context, (previousLoop false).cloneInstructions = some context ∧
        Preserves (previousLoop false) 3 context previousMachine previousStart := by
  have hgate : (previousLoop false).shouldTransformLoop 3 = true := by decide +kernel
  have hnot : ∀ phi, ¬ (previousLoop false).TakesOwnClone phi := by
    intro phi htakes
    have hcloned : ∀ phi, (previousLoop false).phiInput phi (previousLoop false).backBlock ∈
        (previousLoop false).cloned := by decide +kernel
    induction htakes with
    | @here phi _ hnot => exact hnot (hcloned phi)
    | there _ _ ih => exact ih
  have hlocal : ConversionsLocal (previousLoop false) := by
    intro insn helided
    rw [previousLoop_isElided] at helided
    cases helided
  obtain ⟨context, hclone, hpreserves⟩ :=
    (rotation_preserves_iff hgate hlocal).mpr fun phi _ _ => hnot phi
  exact ⟨hgate, previousLoop_runtime previousStart, context, hclone,
    hpreserves previousMachine previousStart (previousLoop_runtime previousStart)⟩

end NougatArt.BottomLoops
