import NougatArt.CodeMotion.LicmEffects
import NougatArt.CodeMotion.LicmSimulation

/-!
# Loop-invariant code motion keeps the behaviour

`LICM` also moves instructions across writes to memory, and writes themselves. A move
is ordered if it does neither; then the instruction was found in its block behind
instructions that are not observed, and it can be moved. A pass whose moves are
ordered, each in the placement that the earlier ones have left, keeps the behaviour.
-/

namespace NougatArt.CodeMotion

open List Option Function Bool

open NougatArt.CodeMotion.Frame

variable {blocks insns : ℕ} {Value Component Event Exception : Type} [Inhabited Value]
  {insn : Fin insns}

def Frame.replay (frame : Frame blocks insns Exception) (placement : Placement blocks insns)
    (moves : List (Move blocks insns)) : Placement blocks insns :=
  moves.foldl (fun current move => frame.hoist current move.info move.insn) placement

/-- The moved instruction does not write; if it can throw, nothing that writes stands before it in
the header. An exception that is caught in the loop was raised in it. -/
structure Frame.MoveOrdered (frame : Frame blocks insns Exception)
    (placement : Placement blocks insns) (move : Move blocks insns) : Prop where
  doesAnyWrite : (frame.op move.insn).sideEffects.doesAnyWrite = false
  first : (frame.op move.insn).canThrow = true → ∀ before after,
    placement.instructions move.info.header = before ++ move.insn :: after →
    ∀ other ∈ before, (frame.op other).sideEffects.doesAnyWrite = false
  handler_inside : ∀ block exception target, frame.handler block exception = some target →
    target ∈ move.info.body → block ∈ move.info.body

/-- Each move is ordered in the placement before it. -/
def Frame.MovesOrdered (frame : Frame blocks insns Exception) (placement : Placement blocks insns)
    (moves : List (Move blocks insns)) : Prop :=
  ∀ earlier move later, moves = earlier ++ move :: later →
    frame.MoveOrdered (frame.replay placement earlier) move

/-- The graph before and after a move behave the same, the moved instruction has in
each iteration the value it would yield there, and its environment holds what it
held when the loop is entered. -/
structure Frame.MoveSound (frame : Frame blocks insns Exception)
    (machine : Machine Value Component Event Exception) (placement : Placement blocks insns)
    (move : Move blocks insns) : Prop where
  behaviour : ∀ state, (frame.system machine placement).SameBehaviour
    (frame.system machine (frame.hoist placement move.info move.insn))
    (.running frame.flow.entry state) (.running frame.flow.entry state)
  value : ∀ state steps place current, place ∈ move.info.body →
    ((frame.system machine (frame.hoist placement move.info move.insn)).run steps
      (.running frame.flow.entry state)).2 = .running place current →
    machine.execute (frame.op move.insn) (frame.operands current.env move.insn) current.heap =
      ⟨[], current.heap, .ok (current.env move.insn)⟩
  environment : ∀ state : State insns Value Component,
    (frame.hoist placement move.info move.insn).registers state.env move.insn =
      placement.registers (frame.enter move.info.preHeader move.info.header state).env move.insn

/-- A sequence of moves, each of them sound, and the same behaviour at its ends. -/
structure Frame.MovesSound (frame : Frame blocks insns Exception)
    (machine : Machine Value Component Event Exception) (placement : Placement blocks insns)
    (moves : List (Move blocks insns)) : Prop where
  each : ∀ earlier move later, moves = earlier ++ move :: later →
    frame.MoveSound machine (frame.replay placement earlier) move
  behaviour : ∀ state, (frame.system machine placement).SameBehaviour
    (frame.system machine (frame.replay placement moves))
    (.running frame.flow.entry state) (.running frame.flow.entry state)

namespace Frame

variable {frame : Frame blocks insns Exception} {machine : Machine Value Component Event Exception}
  {placement : Placement blocks insns}

theorem Hoistable.moveSound {info : HLoopInformation blocks} {b : Fin blocks}
    {before after : List (Fin insns)} (h : frame.Hoistable placement info insn b before after) :
    frame.MoveSound machine placement ⟨info, insn⟩ where
  behaviour := h.sameBehaviour
  value _ _ _ _ hplace hrun := h.stable_of_run _ _ hplace hrun
  environment s := registers_hoist fun _ _ => apply_ite s.env _ _ _

theorem MovesSound.nil : frame.MovesSound machine placement [] where
  each earlier move later hsplit := by simp at hsplit
  behaviour s := .refl _

theorem MovesSound.append_singleton {moves : List (Move blocks insns)} {move : Move blocks insns}
    (h : frame.MovesSound machine placement moves)
    (hmove : frame.MoveSound machine (frame.replay placement moves) move) :
    frame.MovesSound machine placement (moves ++ [move]) where
  each earlier other later hsplit := by
    rcases append_eq_append_iff.mp hsplit with ⟨middle, rfl, hrest⟩ | ⟨middle, rfl, hrest⟩
    · cases middle with
      | nil =>
        obtain ⟨rfl, -⟩ := cons.inj hrest
        rwa [append_nil]
      | cons head middle => simp at hrest
    · cases middle with
      | nil =>
        obtain ⟨rfl, -⟩ := cons.inj hrest
        rwa [append_nil] at hmove
      | cons head middle =>
        obtain ⟨rfl, -⟩ := cons.inj hrest
        exact h.each earlier other middle rfl
  behaviour s := by
    rw [replay, foldl_append]
    exact (h.behaviour s).trans (hmove.behaviour s)

end Frame

section Prefix

variable {frame : Frame blocks insns Exception} {placement : Placement blocks insns}

omit [Inhabited Value]

theorem Frame.MovesOrdered.of_initial {moves moves' : List (Move blocks insns)}
    (h : frame.MovesOrdered placement moves') (hinitial : moves <+: moves') :
    frame.MovesOrdered placement moves := by
  rintro earlier move later rfl
  obtain ⟨rest, rfl⟩ := hinitial
  exact h earlier move (later ++ rest) (by rw [append_assoc, cons_append])

theorem Frame.prefix_visitInstructions (info : HLoopInformation blocks) (effects : SideEffects)
    (list : List (Fin insns)) (progress : Progress blocks insns) (found : Bool) :
    progress.moves <+: (frame.visitInstructions info effects progress found list).moves := by
  induction list generalizing progress found with
  | nil => exact prefix_rfl
  | cons insn rest ih =>
    rw [visitInstructions]
    split
    · exact (prefix_append progress.moves _).trans
        (ih ⟨frame.hoist progress.placement info insn, progress.moves ++ [⟨info, insn⟩]⟩ found)
    · exact ih _ _

theorem Frame.prefix_visitBlock (info : HLoopInformation blocks) (effects : SideEffects)
    (progress : Progress blocks insns) (b : Fin blocks) :
    progress.moves <+: (frame.visitBlock info effects progress b).moves := by
  unfold visitBlock
  split
  · exact prefix_visitInstructions _ _ _ _ _
  · exact prefix_rfl

theorem prefix_foldl {step : Progress blocks insns → Fin blocks → Progress blocks insns}
    (hstep : ∀ progress b, progress.moves <+: (step progress b).moves) (list : List (Fin blocks))
    (progress : Progress blocks insns) : progress.moves <+: (list.foldl step progress).moves := by
  induction list generalizing progress with
  | nil => exact prefix_rfl
  | cons head rest ih => exact (hstep _ _).trans (ih _)

theorem Frame.prefix_visitLoop (effects : LoopEffects blocks) (progress : Progress blocks insns)
    (b : Fin blocks) : progress.moves <+: (frame.visitLoop effects progress b).moves := by
  unfold visitLoop
  rcases frame.loopOfHeader b with _ | info
  · exact prefix_rfl
  simp only
  split
  · exact prefix_rfl
  · exact prefix_foldl (prefix_visitBlock _ _) _ _

/-- What each step keeps if its moves are ordered, a sequence of steps with ordered moves keeps. -/
theorem foldl_ordered {step : Progress blocks insns → Fin blocks → Progress blocks insns}
    {holds : Progress blocks insns → Prop} {list : List (Fin blocks)}
    (hinitial : ∀ progress b, progress.moves <+: (step progress b).moves)
    (hstep : ∀ progress, ∀ b ∈ list, holds progress →
      frame.MovesOrdered placement (step progress b).moves → holds (step progress b))
    (progress : Progress blocks insns) (hstart : holds progress)
    (hordered : frame.MovesOrdered placement (list.foldl step progress).moves) :
    holds (list.foldl step progress) := by
  induction list generalizing progress with
  | nil => exact hstart
  | cons head rest ih =>
    have hfirst := hstep progress head mem_cons_self hstart
      (hordered.of_initial (prefix_foldl hinitial _ _))
    exact ih (fun progress b hmem => hstep progress b (mem_cons_of_mem _ hmem)) _ hfirst hordered

end Prefix

namespace HGraph

variable (graph : HGraph blocks insns Exception) (machine : Machine Value Component Event Exception)

structure Kept (progress : Progress blocks insns) : Prop where
  placed : graph.WellPlaced progress.placement
  effects : ∀ info, graph.loopInformation info.header = some info →
    info.containsIrreducibleLoop = false → ∀ block ∈ info.body,
    ∀ insn ∈ graph.code progress.placement block, ∀ bit : MemoryBit,
      bit.1 ∈ (graph.op insn).sideEffects.changes →
      bit.1 ∈ (graph.loopEffects graph.placement info.header).changes
  replay_eq : progress.placement = graph.replay graph.placement progress.moves
  sound : graph.MovesSound machine graph.placement progress.moves

variable {graph machine}

variable {info : HLoopInformation blocks} {b : Fin blocks}

omit [Inhabited Value] in
theorem notMem_body_of_isIn (hloop : graph.WellFormedLoop info)
    (houtside : graph.isIn b info = false) : b ∉ info.body := by
  intro hblock
  obtain ⟨inner, hinner, -, hmem, -⟩ := hloop.nested b hblock
  rw [isIn, hinner, any_some, decide_eq_false_iff_not] at houtside
  exact houtside hmem

variable {progress : Progress blocks insns} {kept rest : List (Fin insns)}

/-- What is moved by an ordered move can be moved. -/
theorem hoistable_of_canHoist (hordered : graph.MoveOrdered progress.placement ⟨info, insn⟩)
    (hkept : graph.Kept machine progress) (hinfo : graph.loopInformation info.header = some info)
    (hreduc : info.containsIrreducibleLoop = false) (hblock : b ∈ info.body) {found : Bool}
    (hcode : progress.placement.instructions b = kept ++ insn :: rest)
    (hfound : found = false → b = info.header ∧ ∀ other ∈ kept, (graph.op other).canThrow = false)
    (hcan : graph.canHoist info (graph.loopEffects graph.placement info.header)
      progress.placement found insn) :
    graph.Hoistable progress.placement info insn b kept rest := by
  simp only [canHoist, and_eq_true, or_eq_true, not_eq_true',
    Frame.inputsAreDefinedBeforeLoop, List.all_eq_true] at hcan
  obtain ⟨⟨⟨-, hthrow⟩, hdepend⟩, hinputs, henvironment⟩ := hcan
  have hloop := graph.wellFormedLoop info hinfo hreduc
  exact {
    loop := hloop
    placed := hkept.placed
    normalSuccs_subset := graph.normalSuccs_subset
    handler_dominated := graph.handler_dominated
    handler_inside := hordered.handler_inside
    mem_body := hblock
    instructions_eq := hcode
    doesAnyWrite := hordered.doesAnyWrite
    independent := fun inner hinner other hother bit hbit hchange =>
      SideEffects.notMem_changes_of_mayDependOn hdepend hbit
        (hkept.effects info hinfo hreduc inner hinner other hother bit hchange)
    inputs_outside := fun input hinput => notMem_body_of_isIn hloop (hinputs input hinput)
    environment_outside := fun input hinput => by
      have hregister := henvironment (some input) hinput
      rw [all_some, or_eq_true, not_eq_true', decide_eq_true_eq] at hregister
      exact hregister.imp_left (notMem_body_of_isIn hloop)
    first := fun hcanThrow => by
      have hnone := hthrow.resolve_left (by rw [hcanThrow]; exact false_ne_true.symm)
      obtain ⟨rfl, hthrows⟩ := hfound hnone
      exact ⟨rfl, fun other hother =>
        ⟨hthrows other hother, hordered.first hcanThrow kept rest hcode other hother⟩⟩ }

theorem kept_hoist (hkept : graph.Kept machine progress)
    (hoistable : graph.Hoistable progress.placement info insn b kept rest) :
    graph.Kept machine ⟨graph.hoist progress.placement info insn,
      progress.moves ++ [⟨info, insn⟩]⟩ where
  placed := hoistable.hoist_wellPlaced
  effects other hother hreduc place hplace moved hmoved bit hbit := by
    by_cases heq : moved = insn
    · subst heq
      exact absurd hbit (SideEffects.notMem_changes_of_doesAnyWrite hoistable.doesAnyWrite bit.2)
    · refine hkept.effects other hother hreduc place hplace moved ?_ bit hbit
      exact mem_append.mpr ((mem_append.mp hmoved).imp_left (hoistable.mem_hoist_iff heq place).mp)
  replay_eq := by
    rw [replay, foldl_append]
    show graph.hoist progress.placement info insn = graph.hoist (graph.replay _ _) info insn
    rw [← hkept.replay_eq]
  sound := by
    refine hkept.sound.append_singleton ?_
    rw [← hkept.replay_eq]
    exact hoistable.moveSound

section

variable (hinfo : graph.loopInformation info.header = some info)
  (hreduc : info.containsIrreducibleLoop = false) (hblock : b ∈ info.body)

include hinfo hreduc hblock

/-- The visit of a block; the instructions before the current one were kept. -/
theorem kept_visitInstructions (rest : List (Fin insns)) :
    ∀ (progress : Progress blocks insns) (found : Bool) (kept : List (Fin insns)),
      graph.Kept machine progress → progress.placement.instructions b = kept ++ rest →
      (found = false → b = info.header ∧ ∀ other ∈ kept, (graph.op other).canThrow = false) →
      graph.MovesOrdered graph.placement (graph.visitInstructions info
        (graph.loopEffects graph.placement info.header) progress found
        (rest ++ [graph.lastInstruction b])).moves →
      graph.Kept machine (graph.visitInstructions info
        (graph.loopEffects graph.placement info.header) progress found
        (rest ++ [graph.lastInstruction b])) := by
  induction rest with
  | nil =>
    intro progress found kept hkept _ _ _
    have hcan : ¬ graph.canHoist info (graph.loopEffects graph.placement info.header)
        progress.placement found (graph.lastInstruction b) = true := by
      simp [canHoist, graph.lastInstruction_canBeMoved]
    rw [nil_append, visitInstructions, if_neg hcan]
    exact hkept
  | cons insn rest ih =>
    intro progress found kept hkept hcode hfound hordered
    rw [cons_append, visitInstructions] at hordered ⊢
    by_cases hcan : graph.canHoist info (graph.loopEffects graph.placement info.header)
        progress.placement found insn = true
    · rw [if_pos hcan] at hordered ⊢
      have hmove := (hordered.of_initial (prefix_visitInstructions _ _ _ _ _)) _ _ [] rfl
      rw [← hkept.replay_eq] at hmove
      have hoistable := hoistable_of_canHoist hmove hkept hinfo hreduc hblock hcode hfound hcan
      exact ih _ found kept (kept_hoist hkept hoistable) hoistable.hoist_instructions_block hfound
        hordered
    · rw [if_neg hcan] at hordered ⊢
      refine ih progress _ (kept ++ [insn]) hkept (by rw [hcode]; simp) (fun hnone => ?_) hordered
      rw [or_eq_false_iff] at hnone
      obtain ⟨hheader, hthrows⟩ := hfound hnone.1
      refine ⟨hheader, fun other hother => ?_⟩
      rcases mem_append.mp hother with hmem | hlast
      · exact hthrows other hmem
      · rw [mem_singleton.mp hlast]
        exact hnone.2

theorem kept_visitBlock (hkept : graph.Kept machine progress)
    (hordered : graph.MovesOrdered graph.placement (graph.visitBlock info
      (graph.loopEffects graph.placement info.header) progress b).moves) :
    graph.Kept machine (graph.visitBlock info
      (graph.loopEffects graph.placement info.header) progress b) := by
  unfold visitBlock at hordered ⊢
  split at hordered
  next hown =>
    rw [if_pos hown]
    refine kept_visitInstructions hinfo hreduc hblock _ progress _ [] hkept
      (nil_append _).symm (fun hfound => ⟨?_, nofun⟩) hordered
    simpa using hfound
  next hother =>
    rw [if_neg hother]
    exact hkept

end

theorem kept_visitLoop (hkept : graph.Kept machine progress) (b : Fin blocks)
    (hordered : graph.MovesOrdered graph.placement
      (graph.visitLoop (graph.loopEffects graph.placement) progress b).moves) :
    graph.Kept machine (graph.visitLoop (graph.loopEffects graph.placement) progress b) := by
  unfold visitLoop at hordered ⊢
  rcases hloop : graph.loopOfHeader b with _ | info
  · exact hkept
  obtain ⟨hinfo, hheader⟩ := filter_eq_some_iff.mp hloop
  rw [decide_eq_true_eq] at hheader
  subst hheader
  simp only [hloop] at hordered
  simp only
  split
  · exact hkept
  next hreduc =>
    rw [if_neg hreduc] at hordered
    rw [not_eq_true] at hreduc
    exact foldl_ordered (prefix_visitBlock _ _) (fun progress b hmem hkept hordered =>
      kept_visitBlock hinfo hreduc (of_decide_eq_true (mem_filter.mp hmem).2) hkept hordered)
      progress hkept hordered

/-- A pass whose moves are ordered is a sequence of sound moves. -/
theorem kept_run
    (hordered : graph.MovesOrdered graph.placement (graph.run graph.placement).moves) :
    graph.Kept machine (graph.run graph.placement) := by
  have hstart : graph.Kept machine ⟨graph.placement, []⟩ := {
    placed := graph.wellPlaced
    effects := fun info hinfo hreduc b hblock insn hinsn bit hbit =>
      graph.subset_loopEffects hinfo hreduc hblock hinsn hbit
    replay_eq := rfl
    sound := .nil }
  have hstep : ∀ progress, ∀ b ∈ graph.postOrder, graph.Kept machine progress →
      graph.MovesOrdered graph.placement
        (graph.visitLoop (graph.loopEffects graph.placement) progress b).moves →
      graph.Kept machine (graph.visitLoop (graph.loopEffects graph.placement) progress b) :=
    fun _ b _ hkept hordered => kept_visitLoop hkept b hordered
  exact foldl_ordered (prefix_visitLoop _) hstep _ hstart hordered

variable (graph machine) in
/-- `LICM` keeps the behaviour of the graph, and each of its moves is sound. -/
structure LicmPreserves : Prop where
  moves : graph.MovesSound machine graph.placement (graph.run graph.placement).moves
  behaviour : ∀ state, (graph.system machine graph.placement).SameBehaviour
    (graph.system machine (graph.run graph.placement).placement)
    (.running graph.flow.entry state) (.running graph.flow.entry state)

/-- `LICM` keeps the behaviour of a graph if each of its moves is ordered in the placement that it
is made in. -/
theorem licmPreserves_of_ordered (graph : HGraph blocks insns Exception)
    (machine : Machine Value Component Event Exception)
    (hordered : graph.MovesOrdered graph.placement (graph.run graph.placement).moves) :
    graph.LicmPreserves machine := by
  have hkept : graph.Kept machine (graph.run graph.placement) := kept_run hordered
  refine ⟨hkept.sound, fun state => ?_⟩
  rw [hkept.replay_eq]
  exact hkept.sound.behaviour state

end HGraph

/-! ## A division in a loop

`do { X.x = d; … / d … } while (d != 0)`, or the other way round. -/

def plainInsn : HInstruction := ⟨false, false, .none, 0⟩

def setInsn : HInstruction := ⟨false, false, .fieldWriteOfType .int, 1⟩

def divZeroCheckInsn : HInstruction := ⟨true, true, .canTriggerGC, 2⟩

def divisionLoopInfo : HLoopInformation 4 := ⟨2, 1, {2}, false⟩

def divisionLoopFrame : Frame 4 7 Unit where
  flow := ⟨0, ![[1], [2], [2, 3], []]⟩
  normalSuccs := ![[1], [2], [2, 3], []]
  handler _ _ := none
  op := ![plainInsn, plainInsn, plainInsn, setInsn, divZeroCheckInsn, plainInsn, plainInsn]
  inputs := ![[], [], [], [0], [0], [0], []]
  phis _ := []
  phiInput phi _ := phi
  catchRegister _ := 0
  lastInstruction := ![1, 2, 5, 6]
  loopInformation block := if block = 2 then some divisionLoopInfo else none
  postOrder := [3, 2, 1, 0]

def divisionLoopPlacement (setFirst : Bool) : Placement 4 7 where
  getBlock := ![0, 0, 1, 2, 2, 2, 3]
  instructions := ![[0], [], if setFirst then [3, 4] else [4, 3], []]
  environment := ![[], [], [], [], [some 0], [], []]

/-- What holds at each position of a list holds wherever the list is split. -/
theorem forall_split {Item : Type} {list : List Item} (holds : List Item → Item → Prop)
    (hpositions : ∀ position : Fin list.length, holds (list.take position) (list.get position))
    {before after : List Item} {item : Item} (hsplit : list = before ++ item :: after) :
    holds before item := by
  subst hsplit
  have hposition := hpositions ⟨before.length, by simp⟩
  simpa using hposition

theorem divisionLoop_wellPlaced (setFirst : Bool) :
    divisionLoopFrame.WellPlaced (divisionLoopPlacement setFirst) where
  getBlock_of_mem {insn b} := by revert setFirst insn b; decide
  getBlock_of_phi := nofun
  nodup := by revert setFirst; decide
  phi_notMem := nofun
  last_notMem := by revert setFirst; decide
  last_notPhi := nofun
  inputs_available b before insn after hsplit := by
    refine forall_split (fun before insn => ∀ input ∈ divisionLoopFrame.inputs insn,
      divisionLoopFrame.AvailableAt (divisionLoopPlacement setFirst) b before input) ?_ hsplit
    clear hsplit
    revert setFirst b
    decide +kernel
  environment_available b before insn after hsplit := by
    refine forall_split (fun before insn => ∀ input,
      some input ∈ (divisionLoopPlacement setFirst).environment insn →
      divisionLoopFrame.AvailableAt (divisionLoopPlacement setFirst) b before input) ?_ hsplit
    clear hsplit
    revert setFirst b
    decide +kernel
  phiInput_available _ _ _ := nofun

theorem divisionLoop_wellFormedLoop : divisionLoopFrame.WellFormedLoop divisionLoopInfo where
  header_mem := by decide
  entry_notMem := by decide
  reachable b hblock := by
    obtain rfl : b = 2 := by simpa [divisionLoopInfo] using hblock
    exact ⟨[1, 0], .step (.step .entry (by decide)) (by decide)⟩
  entered_at_header := by decide
  preHeader_notMem := by decide
  preHeader_succs := rfl
  preHeader_normalSuccs := rfl
  entered_from_preHeader := by decide
  preHeader_goto := by decide
  preHeader_handler := rfl
  nested b hblock := by
    obtain rfl : b = 2 := by simpa [divisionLoopInfo] using hblock
    exact ⟨divisionLoopInfo, rfl, hblock, by decide, rfl, fun hne => absurd rfl hne⟩
  header_last := by decide

def divisionLoop (setFirst : Bool) : HGraph 4 7 Unit where
  toFrame := divisionLoopFrame
  placement := divisionLoopPlacement setFirst
  wellPlaced := divisionLoop_wellPlaced setFirst
  normalSuccs_subset := fun block => List.Subset.refl _
  handler_dominated := nofun
  lastInstruction_canBeMoved := by decide
  wellFormedLoop info hinfo _ := by
    have heq : info = divisionLoopInfo := by
      simp only [divisionLoopFrame] at hinfo
      split at hinfo
      · exact (some.inj hinfo).symm
      · cases hinfo
    rw [heq]
    exact divisionLoop_wellFormedLoop

/-- The divisor is zero; a write is an event. -/
def divisionMachine : Machine ℤ ℤ ℤ Unit where
  execute insn args heap :=
    if insn = setInsn then
      ⟨args, fun bit => if bit.1 ∈ setInsn.sideEffects.changes then args.headD 0 else heap bit,
        .ok 0⟩
    else if insn = divZeroCheckInsn ∧ args.headD 0 = 0 then ⟨[], heap, .error ()⟩
    else ⟨[], heap, .ok 0⟩
  branch _ _ := 1
  frame insn args heap bit hbit := by
    split_ifs with hset
    · subst hset
      exact if_neg hbit
    · rfl
    · rfl
  silent insn args heap hwrite := by
    split_ifs with hset
    · subst hset
      exact absurd hwrite (by decide)
    · rfl
    · rfl
  reads insn args heap heap' hwrite _ := by
    split_ifs with hset
    · rfl
    · rfl
    · rfl
  throws insn args heap exception houtcome := by
    split_ifs at houtcome with hset hcheck
    rw [hcheck.1]
    rfl

/-- The check is hoisted when it comes first. -/
theorem divisionLoop_checkFirst :
    ((divisionLoop false).run (divisionLoopPlacement false)).moves = [⟨divisionLoopInfo, 4⟩] ∧
      (divisionLoop false).LicmPreserves divisionMachine := by
  have hmoves : ((divisionLoop false).run (divisionLoopPlacement false)).moves =
      [⟨divisionLoopInfo, 4⟩] := by
    decide +kernel
  refine ⟨hmoves, HGraph.licmPreserves_of_ordered _ _ fun earlier move later hsplit => ?_⟩
  obtain ⟨rfl, rfl, -⟩ : earlier = [] ∧ move = ⟨divisionLoopInfo, 4⟩ ∧ later = [] := by
    rw [show (divisionLoop false).placement = divisionLoopPlacement false from rfl, hmoves]
      at hsplit
    cases earlier with
    | nil =>
      obtain ⟨hmove, hlater⟩ := cons.inj hsplit
      exact ⟨rfl, hmove.symm, hlater.symm⟩
    | cons head earlier => simp at hsplit
  refine ⟨by decide, fun _ before after hcode => ?_, nofun⟩
  obtain rfl : before = [] := by
    cases before with
    | nil => rfl
    | cons head before =>
      have hcode : [4, 3] = head :: (before ++ 4 :: after) := hcode
      obtain ⟨-, hrest⟩ := cons.inj hcode
      cases before <;> simp at hrest
  exact nofun

/-- If the write comes first, it is lost: the hoisted check throws before. -/
theorem divisionLoop_setFirst : ¬ (divisionLoop true).LicmPreserves divisionMachine := by
  intro hpreserves
  obtain ⟨hfollows, -⟩ := hpreserves.behaviour ⟨fun _ => 0, fun _ => 0⟩
  obtain ⟨steps, hinitial, -⟩ := hfollows 3
  have htwo := hinitial.length_le
  have hwritten : (((divisionLoop true).system divisionMachine (divisionLoop true).placement).run 3
      (.running (divisionLoop true).flow.entry ⟨fun _ => 0, fun _ => 0⟩)).1.length = 2 := by
    decide +kernel
  have hended : ((((divisionLoop true).system divisionMachine
      ((divisionLoop true).run (divisionLoop true).placement).placement).result
        (((divisionLoop true).system divisionMachine
          ((divisionLoop true).run (divisionLoop true).placement).placement).run 2
            (.running (divisionLoop true).flow.entry ⟨fun _ => 0, fun _ => 0⟩)).2)).isSome := by
    decide +kernel
  obtain ⟨value, hvalue⟩ := isSome_iff_exists.mp hended
  have hone : (((divisionLoop true).system divisionMachine
      ((divisionLoop true).run (divisionLoop true).placement).placement).run 2
        (.running (divisionLoop true).flow.entry ⟨fun _ => 0, fun _ => 0⟩)).1.length = 1 := by
    decide +kernel
  rw [hwritten] at htwo
  rcases Nat.le_total steps 2 with hle | hge
  · have := (OutputSystem.run_prefix_of_le hle).length_le.trans hone.le
    omega
  · rw [OutputSystem.run_of_le hge hvalue, hone] at htwo
    omega

end NougatArt.CodeMotion
