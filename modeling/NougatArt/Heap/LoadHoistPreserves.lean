import NougatArt.Heap.LoadHoistSelection

/-!
# Load hoisting and store sinking at the exit of the loop

For a selection that can be moved, the rewritten loop leaves the heap and the
values that the original loop leaves, in every run and for every order in which the
couples and setters are processed. A setter of a class that is loaded in the loop
is not in `set_to_idx`, and then it may come before its getter: the rewritten loop
reads the old contents of the field.
-/

namespace NougatArt.LoadHoist

open List Option Code

open Heap

variable {blocks insns : ℕ} {graph : HGraph blocks insns} {loop : HLoopInformation graph}
  {aliasOf : Fin insns → Fin insns → AliasKind} {semantics : Semantics}
  {start : Code.State (Fin insns) Value Store} {exit : Fin blocks} {insn : Fin 11} {setFirst : Bool}

structure SameStart (start : Code.State (Fin insns) Value Store)
    (start' : Code.State (Target insns) Value Store) : Prop where
  env : ∀ insn, start'.env (.old insn) = start.env insn
  store : start'.store = start.store

/-- Whenever the original loop is left, so is the rewritten one after the hoisted
getters, from the same block after the same path. After the sunk setters the store
is that of the original loop, and so is the value of every instruction. -/
def PreservesExit (loop : HLoopInformation graph) (semantics : Semantics)
    (pairs : List (Fin insns × Fin insns)) (lone : List (Fin insns)) (exit : Fin blocks)
    (start : Code.State (Fin insns) Value Store) : Prop :=
  ∀ start', SameStart start start' → ∀ trail block target after,
    Code.LeavesLoop graph.code semantics.machine loop.toNaturalLoop loop.preHeader start
      trail block target after →
    ∃ hoisted after' final',
      (loop.doLoadHoistStoreSink pairs lone exit).steps semantics.targetMachine start'
        (hoistedGets pairs) = some hoisted ∧
      Code.LeavesLoop (loop.doLoadHoistStoreSink pairs lone exit) semantics.targetMachine
        loop.toNaturalLoop loop.preHeader hoisted trail block target after' ∧
      (loop.doLoadHoistStoreSink pairs lone exit).steps semantics.targetMachine
        ((loop.doLoadHoistStoreSink pairs lone exit).enter block target after')
        (sunkSets pairs lone) = some final' ∧
      final'.store = after.store ∧
      ∀ insn, final'.env (graph.replacement pairs insn) =
        (graph.code.enter block target after).env insn

/-- The rewritten loop has the effect of the original one, for a sound alias check and
couples and setters that can be moved. -/
theorem preservesExit_of_movable {pairs selectedPairs : List (Fin insns × Fin insns)}
    {lone selectedSets : List (Fin insns)} (hexit : loop.getExitBlock = some exit)
    (hfind : loop.findLoadStoreCouples aliasOf exit = some (selectedPairs, selectedSets))
    (hpairs : pairs.Perm selectedPairs) (hlone : lone.Perm selectedSets)
    (hsound : AliasIsSound loop aliasOf semantics start)
    (hmovable : Movable loop semantics start pairs lone) :
    PreservesExit loop semantics pairs lone exit start := by
  intro start' hstart trail block target after hleaves
  obtain ⟨state, hrun, -⟩ := hleaves.run
  obtain rfl := NaturalLoop.eq_of_onlyExit hexit (hrun.mem_body block mem_cons_self)
    (next_mem hleaves.next) hleaves.outside
  obtain ⟨hcouples, hsets⟩ := of_findLoadStoreCouples hfind
  have hcouples := fun couple hcouple => hcouples couple (hpairs.mem_iff.mp hcouple)
  have hsets := fun set hset => hsets set (hlone.mem_iff.mp hset)
  have hselection := selection hleaves hsound hcouples hsets hmovable
  obtain ⟨hoisted, hsteps, hstore, henv, hvalues⟩ :=
    exists_steps_hoisted hselection (pairs.map Prod.fst) (fun _ hget => hget) hstart.store
      fun insn _ => hstart.env _
  have hdominates : ∀ set, set ∈ pairs.map Prod.snd ∨ set ∈ lone →
      graph.flow.Dominates (graph.getBlock set) target := by
    rintro set (hset | hset)
    · obtain ⟨couple, hcouple, rfl⟩ := mem_map.mp hset
      rw [(hcouples _ hcouple).2.same_block]
      exact (hcouples _ hcouple).2.dominates
    · exact (of_setIsValid (hsets set hset).valid).1
  obtain ⟨after', final', hleaves', hsunk, hfinal, hreplaced⟩ :=
    exists_leavesLoop hselection hstore henv
      (fun couple hcouple => hvalues _ (mem_map_of_mem hcouple)) hdominates hleaves
  exact ⟨hoisted, after', final', hsteps, hleaves', hsunk, hfinal, hreplaced⟩

/-! ## A class that is loaded in the loop -/

/-- `p = 0; do { v = (p == 0) ? 1 : 2; C.f = v; w = C.f; p = v } while (v != 2)`, where the setter
loads `C` again; or the same loop with the getter before the setter. -/
def classInLoopCode (setFirst : Bool) : Code (Fin 3) (Fin 11) HInstruction where
  op := ![⟨.loadClass 0, false, false, 0⟩, ⟨.intConstant 0, false, false, 0⟩,
    ⟨.other false false false, false, false, 3⟩, ⟨.phi, false, false, 0⟩,
    ⟨.loadClass 0, false, false, 0⟩, ⟨.other false false false, false, false, 1⟩,
    ⟨if setFirst then .staticFieldSet ⟨8, .int, false⟩ else .staticFieldGet ⟨8, .int, false⟩,
      false, false, 0⟩,
    ⟨if setFirst then .staticFieldGet ⟨8, .int, false⟩ else .staticFieldSet ⟨8, .int, false⟩,
      false, false, 0⟩,
    ⟨.other false false false, false, false, 2⟩, ⟨.other false false false, false, false, 3⟩,
    ⟨.other false false false, false, false, 3⟩]
  inputs := ![[], [], [], [1, 5], [], [3], if setFirst then [4, 5] else [0],
    if setFirst then [0] else [4, 5], if setFirst then [7] else [6], [5], [8]]
  phis := ![[], [3], []]
  phiInput _ source := if source = 0 then 1 else 5
  instructions := ![[0, 1], [4, 5, 6, 7, 8], []]
  terminator := ![2, 9, 10]
  succs := ![[1], [2, 1], []]

def classInLoop (setFirst : Bool) : HGraph 3 11 where
  entry := 0
  code := classInLoopCode setFirst
  getBlock := ![0, 0, 0, 1, 1, 1, 1, 1, 1, 1, 2]
  mem_iff := by cases setFirst <;> decide
  nodup := by cases setFirst <;> decide
  arity_le := by cases setFirst <;> decide
  operands_dominate := by cases setFirst <;> decide +kernel
  operands_before := by cases setFirst <;> decide +kernel
  phi_operands_dominate := by cases setFirst <;> decide +kernel
  entry_notMem_succs := by cases setFirst <;> decide
  terminator_noAccess := by cases setFirst <;> decide

def classInLoopInformation (setFirst : Bool) : HLoopInformation (classInLoop setFirst) where
  header := 1
  body := {1}
  header_mem := by decide
  entry_notMem := by cases setFirst <;> decide
  header_reachable := FlowGraph.reachable_of_earlier (by cases setFirst <;> decide) 1
  entered_at_header := by cases setFirst <;> decide
  innermost := NaturalLoop.innermost_of_rank (fun block => block)
    (by cases setFirst <;> decide)
  preHeader := 0
  preHeader_notMem := by decide
  preHeader_succs := by cases setFirst <;> decide
  entered_from_preHeader := by cases setFirst <;> decide
  exit_predecessor := by cases setFirst <;> decide
  suspendPoint := none

def classInLoopHeap (setFirst : Bool) : Heap.HGraph Unit 11 where
  kind insn := ((classInLoopCode setFirst).op insn).kind
  inputs := (classInLoopCode setFirst).inputs
  referenceTypeInfo _ := none
  flow := ⟨0, ![[1], [2], [3], [4], [5], [6], [7], [8], [9], [3, 10], []]⟩
  rank insn := insn
  reachable := FlowGraph.reachable_of_earlier (by decide)
  arity_le := by cases setFirst <;> decide
  rank_lt := by cases setFirst <;> decide
  operands_dominate := by cases setFirst <;> decide +kernel
  operands_produce := by cases setFirst <;> decide

def classInLoopAlias (setFirst : Bool) : Fin 11 → Fin 11 → AliasKind :=
  (classInLoopHeap setFirst).aliasCheck fun _ _ => true

def classInLoopEval (insn : HInstruction) (args : List Value) : Option Value :=
  match insn.kind with
  | .loadClass data => some (.klass data)
  | .intConstant value => some (.integral value.toInt)
  | .other _ _ _ =>
    if insn.opcode = 1 then
      some (.integral (if args = [.integral 0] then 1 else 2))
    else if insn.opcode = 2 then
      args.head?
    else
      none
  | _ => none

/-- No instruction other than the getter and the setter touches the heap. -/
def classInLoopSemantics : Semantics where
  eval insn args heap := (classInLoopEval insn args, heap)
  footprint _ _ _ := ∅
  branch _ args := if args = [.integral 2] then 0 else 1
  frame _ _ _ _ _ := rfl
  locality _ _ _ _ _ := ⟨rfl, fun _ hlocation => hlocation.elim⟩
  locality_footprint _ _ _ _ _ := rfl

def classInLoopStart : Code.State (Fin 11) Value Store where
  env := ![.klass 0, .integral 0, .null, .null, .null, .null, .null, .null, .null, .null, .null]
  store := { heap := fun _ => .integral 0, suspended := false, requests := fun _ => false }

theorem classInLoop_touches (hinsn : (((classInLoop setFirst).kind insn).isGet ||
      ((classInLoop setFirst).kind insn).isSet) = false) (s : Code.State (Fin 11) Value Store) :
    (classInLoop setFirst).touchesAt classInLoopSemantics s insn = ∅ := by
  have haccess : ¬ (((classInLoop setFirst).code.op insn).kind.isGet ||
      ((classInLoop setFirst).code.op insn).kind.isSet) = true := by
    rw [Bool.not_eq_true]
    exact hinsn
  rw [HGraph.touchesAt, Semantics.touches, if_neg haccess]
  split
  · rfl
  · rfl

/-- The class and the stored value are computed before the accesses. -/
theorem classInLoop_env {s : Code.State (Fin 11) Value Store} (hinsn : insn ≠ 4 ∧ insn ≠ 5)
    (hexec : (classInLoopInformation setFirst).Executes classInLoopSemantics classInLoopStart
      s insn) :
    s.env 4 = .klass 0 ∧ (s.env 5 = .integral 1 ∨ s.env 5 = .integral 2) := by
  obtain ⟨b, past, entered, before, after, hrun, hsplit, hsteps⟩ := hexec
  obtain rfl : b = 1 := Finset.mem_singleton.mp (hrun.mem_body b mem_cons_self)
  obtain ⟨rest, rfl, hrest⟩ : ∃ rest, before = 4 :: 5 :: rest ∧
      ∀ other ∈ rest, other ∈ [6, 7, 8] := by
    rcases before with _ | ⟨first, _ | ⟨second, rest⟩⟩
    · exact absurd (cons.inj hsplit).1.symm hinsn.1
    · exact absurd (cons.inj (cons.inj hsplit).2).1.symm hinsn.2
    · obtain ⟨rfl, htail⟩ := cons.inj hsplit
      obtain ⟨rfl, hrest⟩ := cons.inj htail
      refine ⟨rest, rfl, fun other hother => ?_⟩
      rw [hrest]
      exact mem_append_left _ hother
  rw [steps_cons, bind_eq_some_iff] at hsteps
  obtain ⟨loaded, hload, hsteps⟩ := hsteps
  rw [steps_cons, bind_eq_some_iff] at hsteps
  obtain ⟨compared, hcompare, hsteps⟩ := hsteps
  cases hload
  cases hcompare
  rw [steps_env_of_notMem hsteps fun hmem => absurd (hrest 4 hmem) (by decide),
    steps_env_of_notMem hsteps fun hmem => absurd (hrest 5 hmem) (by decide)]
  refine ⟨rfl, ?_⟩
  by_cases hargs : [entered.env 3] = [.integral 0]
  · exact .inl (congrArg (fun v : ℤ => Value.integral v) (if_pos hargs))
  · exact .inr (congrArg (fun v : ℤ => Value.integral v) (if_neg hargs))

theorem classInLoop_aliasIsSound (setFirst : Bool) :
    AliasIsSound (classInLoopInformation setFirst) (classInLoopAlias setFirst) classInLoopSemantics
      classInLoopStart where
  no_alias first second hno _ s state' _ _ := by
    have hplain : ∀ first second, classInLoopAlias setFirst first second = .noAlias →
        (((classInLoop setFirst).kind first).isGet ||
            ((classInLoop setFirst).kind first).isSet) = false ∨
          (((classInLoop setFirst).kind second).isGet ||
            ((classInLoop setFirst).kind second).isSet) = false := by
      cases setFirst <;> decide +kernel
    rcases hplain _ _ hno with hfirst | hsnd
    · rw [classInLoop_touches hfirst]
      exact Set.empty_disjoint _
    · rw [classInLoop_touches hsnd]
      exact Set.disjoint_empty _
  must_alias set _ _ hset haccess _ hexec := by
    have hget : ∀ access ∈ (classInLoopInformation setFirst).accesses,
        access = if setFirst then 7 else 6 := by
      cases setFirst <;> decide +kernel
    have hsets : ∀ set, ((classInLoop setFirst).kind set).isSet = true →
        set = if setFirst then 6 else 7 := by
      cases setFirst <;> decide +kernel
    obtain rfl := hget _ haccess
    obtain rfl := hsets set hset
    have hclass := (classInLoop_env (by cases setFirst <;> decide) hexec).1
    cases setFirst <;> exact congrArg (fieldLocation · 8) hclass

/-- One iteration of the loop, entered from a block. -/
def classInLoopIteration (setFirst : Bool) (source : Fin 3)
    (state : Code.State (Fin 11) Value Store) : Option (Code.State (Fin 11) Value Store) :=
  (classInLoopCode setFirst).steps classInLoopSemantics.machine
    ((classInLoopCode setFirst).enter source 1 state) ((classInLoopCode setFirst).instructions 1)

def classInLoopAfter (setFirst : Bool) : Option (Code.State (Fin 11) Value Store) :=
  (classInLoopIteration setFirst 0 classInLoopStart).bind (classInLoopIteration setFirst 1)

/-- The loop is left in its second iteration. -/
theorem classInLoop_leavesLoop {after : Code.State (Fin 11) Value Store}
    (hafter : classInLoopAfter setFirst = some after) :
    Code.LeavesLoop (classInLoop setFirst).code classInLoopSemantics.machine
      (classInLoopInformation setFirst).toNaturalLoop 0 classInLoopStart [1] 1 2 after where
  run := by
    obtain ⟨first, hfirst, hsecond⟩ := bind_eq_some_iff.mp hafter
    have hback : ((classInLoopIteration setFirst 0 classInLoopStart).map fun first =>
        (classInLoopCode setFirst).next classInLoopSemantics.machine 1 first.env) =
          some (some 1) := by
      cases setFirst <;> decide +kernel
    rw [hfirst] at hback
    exact ⟨_, .step .enter hfirst (some.inj hback) (Finset.mem_singleton_self 1), hsecond⟩
  next := by
    have hnext : ((classInLoopAfter setFirst).map fun after =>
        (classInLoopCode setFirst).next classInLoopSemantics.machine 1 after.env) =
          some (some 2) := by
      cases setFirst <;> decide +kernel
    rw [hafter] at hnext
    exact some.inj hnext
  outside := by cases setFirst <;> decide

def classInLoopStart' : Code.State (Target 11) Value Store where
  env
    | .old insn => classInLoopStart.env insn
    | .phi _ | .copy _ => .null
  store := classInLoopStart.store

def classInLoopRewritten : Code (Fin 3) (Target 11) TargetOp :=
  (classInLoopInformation true).doLoadHoistStoreSink [(7, 6)] [] 2

/-- Two iterations of the rewritten loop, with the hoisted getter and the sunk setter. -/
def classInLoopFinal : Option (Code.State (Target 11) Value Store) :=
  (classInLoopRewritten.steps classInLoopSemantics.targetMachine classInLoopStart'
    (hoistedGets [(7, 6)])).bind fun hoisted =>
  (classInLoopRewritten.steps classInLoopSemantics.targetMachine
    (classInLoopRewritten.enter 0 1 hoisted)
    (classInLoopRewritten.instructions 1)).bind fun first' =>
  (classInLoopRewritten.steps classInLoopSemantics.targetMachine
    (classInLoopRewritten.enter 1 1 first')
    (classInLoopRewritten.instructions 1)).bind fun after' =>
  classInLoopRewritten.steps classInLoopSemantics.targetMachine
    (classInLoopRewritten.enter 1 2 after') (sunkSets [(7, 6)] [])

/-- The loop is accepted with the couple of the getter and the setter, but the value
that is read in the loop is not the one that was just stored. -/
theorem classInLoop_not_preservesExit : (classInLoopInformation true).loopGate = true ∧
      (classInLoopInformation true).findLoadStoreCouples (classInLoopAlias true) 2 =
        some ([(7, 6)], []) ∧
      AliasIsSound (classInLoopInformation true) (classInLoopAlias true) classInLoopSemantics
        classInLoopStart ∧
      ¬ PreservesExit (classInLoopInformation true) classInLoopSemantics [(7, 6)] [] 2
        classInLoopStart := by
  refine ⟨by decide +kernel, by decide +kernel, classInLoop_aliasIsSound true, fun hpreserves => ?_⟩
  have hread : ((classInLoopAfter true).map fun after =>
      (classInLoopCode true).enter 1 2 after |>.env 8) = some (.integral 2) := by
    decide +kernel
  obtain ⟨after, hafter, hread⟩ := map_eq_some_iff.mp hread
  obtain ⟨hoisted, after', final', hhoisted, ⟨⟨state', hrun, hsteps⟩, -, -⟩, hsunk, -, hvalues⟩ :=
    hpreserves classInLoopStart' ⟨fun _ => rfl, rfl⟩ [1] 1 2 after (classInLoop_leavesLoop hafter)
  cases hrun with
  | step hrun hfirst _ _ =>
  cases hrun
  have hfinal : classInLoopFinal = some final' :=
    bind_eq_some_iff.mpr ⟨hoisted, hhoisted, bind_eq_some_iff.mpr ⟨_, hfirst,
      bind_eq_some_iff.mpr ⟨after', hsteps, hsunk⟩⟩⟩
  have hstale : (classInLoopFinal.map fun final' =>
      final'.env ((classInLoop true).replacement [(7, 6)] 8)) = some (.integral 1) := by
    decide +kernel
  rw [hfinal, map_some, hvalues 8] at hstale
  exact absurd (hread.symm.trans (some.inj hstale)) (by decide)

theorem classInLoop_movable :
    Movable (classInLoopInformation false) classInLoopSemantics classInLoopStart [(6, 7)] [] where
  address c hcouple := by
    obtain rfl := mem_singleton.mp hcouple
    exact .inr ⟨rfl, by decide⟩
  fits _ hcouple s hexec := by
    obtain rfl := mem_singleton.mp hcouple
    change narrow .int (s.env 5) = s.env 5
    rcases (classInLoop_env (by decide) hexec).2 with hvalue | hvalue <;> rw [hvalue] <;> decide
  unseen insn hinsn s _ _ _ _ _ := by
    have hplain : ∀ insn, insn ∈ (classInLoopInformation false).hasSideEffects ∨
        (((classInLoop false).kind insn).isGet || ((classInLoop false).kind insn).isSet) =
          false := by
      decide +kernel
    rw [classInLoop_touches ((hplain insn).resolve_left hinsn)]
    exact Set.notMem_empty _

/-- With the getter before the setter the loop is rewritten and left as before, after it has
taken its back edge. -/
theorem classInLoop_preservesExit :
    (∃ after, Code.LeavesLoop (classInLoop false).code classInLoopSemantics.machine
      (classInLoopInformation false).toNaturalLoop 0 classInLoopStart [1] 1 2 after) ∧
      PreservesExit (classInLoopInformation false) classInLoopSemantics [(6, 7)] [] 2
        classInLoopStart := by
  constructor
  · have hsome : (classInLoopAfter false).isSome = true := by decide +kernel
    obtain ⟨after, hafter⟩ := isSome_iff_exists.mp hsome
    exact ⟨after, classInLoop_leavesLoop hafter⟩
  · exact preservesExit_of_movable (by decide +kernel)
      (show (classInLoopInformation false).findLoadStoreCouples (classInLoopAlias false) 2 =
        some ([(6, 7)], []) by decide +kernel) (List.Perm.refl _) (List.Perm.refl _)
      (classInLoop_aliasIsSound false) classInLoop_movable

end NougatArt.LoadHoist
