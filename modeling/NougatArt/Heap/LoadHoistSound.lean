import NougatArt.Heap.LoadHoistRun

/-!
# Load hoisting and store sinking preserve the loop

The original and the rewritten loop run along the same blocks. In one iteration
the phi of a couple holds the contents of its location until the setter is
executed, and from then on the location holds the stored value; all other
locations and instructions agree. At the back edge the phi takes over the stored
value, and at the exit the sunk setters bring the locations up to date.
-/

namespace NougatArt.LoadHoist

open List Option Function Nat Prod HLoopInformation HGraph Code SsaGraph Semantics Store

open Heap

variable {blocks insns : ℕ} {graph : HGraph blocks insns}

/-- The instructions executed in the current iteration: those of `before` and those of
the blocks `past`. -/
def Done (graph : HGraph blocks insns) (before : List (Fin insns)) (past : List (Fin blocks))
    (insn : Fin insns) : Prop :=
  insn ∈ before ∨ graph.getBlock insn ∈ past

section Iteration

variable {loop : HLoopInformation graph} {b : Fin blocks} {past : List (Fin blocks)}
  (hcur : loop.Iteration (b :: past))

include hcur

theorem block_notMem_past : b ∉ past := (nodup_cons.mp (loop.innermost _ hcur)).1

variable {operand user : Fin insns}

/-- An operand of an instruction in an earlier block of the iteration is not in the
current block. -/
theorem getBlock_operand_ne (huser : graph.getBlock user ∈ past)
    (hphi : user ∉ graph.code.phis (graph.getBlock user))
    (hop : operand ∈ graph.code.inputs user) : graph.getBlock operand ≠ b := by
  intro heq
  have hdom := graph.operands_dominate _ hphi _ hop
  obtain ⟨later, earlier, hsplit⟩ := append_of_mem huser
  have hpath : loop.Iteration ((b :: later) ++ graph.getBlock user :: earlier) := by
    rw [cons_append, ← hsplit]
    exact hcur
  have hbody := hcur.mem_body b mem_cons_self
  rw [heq] at hdom
  have hmem := hpath.drop_latest.mem_of_dominates hbody hdom
  apply block_notMem_past hcur
  rw [hsplit]
  exact mem_append_right _ hmem

variable {before after : List (Fin insns)} {insn : Fin insns}
  (hsplit : graph.code.instructionsOf b = before ++ insn :: after)

include hsplit

/-- The operands in the loop of the next instruction were executed in this iteration. -/
theorem done_operand (hphi : insn ∉ graph.code.phis b)
    (hop : operand ∈ graph.code.inputs insn) (hbody : graph.getBlock operand ∈ loop.body) :
    Done graph before past operand := by
  have hblock := getBlock_of_split hsplit
  rw [← hblock] at hphi
  have hdom := graph.operands_dominate _ hphi _ hop
  rw [hblock] at hdom
  rcases mem_cons.mp (hcur.mem_of_dominates hbody hdom) with heq | hpast
  · exact .inl (mem_before_of_operand hsplit (hblock ▸ hphi) hop heq)
  · exact .inr hpast

/-- The next instruction is not an operand of an instruction executed before. -/
theorem operand_ne_of_done (huser : Done graph before past user)
    (hphi : user ∉ graph.code.phis (graph.getBlock user))
    (hop : operand ∈ graph.code.inputs user) : operand ≠ insn := by
  rintro rfl
  have hblock := getBlock_of_split hsplit
  rcases huser with hbefore | hpast
  · have huserBlock : graph.getBlock user = b := by
      rw [← graph.mem_iff, hsplit]
      exact mem_append_left _ hbefore
    have hlt := graph.operands_before _ hphi _ hop (hblock.trans huserBlock.symm)
    rw [huserBlock, idxOf_of_split hsplit, hsplit, idxOf_append_of_mem hbefore] at hlt
    exact absurd (idxOf_lt_length_of_mem hbefore) (not_lt.mpr hlt.le)
  · exact getBlock_operand_ne hcur hpast hphi hop hblock

end Iteration

/-! ## What the simulation rests on -/

def HGraph.locationAt (graph : HGraph blocks insns) (env : Fin insns → Value)
    (insn : Fin insns) : Option Location :=
  (graph.kind insn).accessLocation (graph.code.operands env insn)

def HGraph.touchesAt (graph : HGraph blocks insns) (semantics : Semantics)
    (state : Code.State (Fin insns) Value Store) (insn : Fin insns) : Set Location :=
  semantics.touches (graph.code.op insn) (graph.code.operands state.env insn) state.store.heap

def HLoopInformation.Executes (loop : HLoopInformation graph) (semantics : Semantics)
    (start state : Code.State (Fin insns) Value Store) (insn : Fin insns) : Prop :=
  Code.Executes graph.code semantics.machine loop.toNaturalLoop loop.preHeader start state insn

/-- An instruction of the loop other than a phi or a terminator. -/
structure InLoop (loop : HLoopInformation graph) (insn : Fin insns) : Prop where
  body : graph.getBlock insn ∈ loop.body
  mem : insn ∈ graph.code.instructions (graph.getBlock insn)

variable {insn : Fin insns}

theorem InLoop.notMem_phis {loop : HLoopInformation graph} (hinsn : InLoop loop insn)
    (b : Fin blocks) : insn ∉ graph.code.phis b :=
  notMem_phis_of_mem_instructions hinsn.mem b

/-- What holds of the selected couples and lone setters in a run of the loop. -/
structure Selection (loop : HLoopInformation graph) (semantics : Semantics)
    (start : Code.State (Fin insns) Value Store) (pairs : List (Fin insns × Fin insns))
    (lone : List (Fin insns)) (location : Fin insns → Location) : Prop where
  get_isGet : ∀ couple ∈ pairs, (graph.kind couple.1).isGet = true
  set_isSet : ∀ couple ∈ pairs, (graph.kind couple.2).isSet = true
  lone_isSet : ∀ set ∈ lone, (graph.kind set).isSet = true
  get_inLoop : ∀ couple ∈ pairs, InLoop loop couple.1
  set_inLoop : ∀ couple ∈ pairs, InLoop loop couple.2
  lone_inLoop : ∀ set ∈ lone, InLoop loop set
  same_block : ∀ couple ∈ pairs, graph.getBlock couple.2 = graph.getBlock couple.1
  ordered : ∀ couple ∈ pairs, (graph.code.instructionsOf (graph.getBlock couple.1)).idxOf couple.1 <
      (graph.code.instructionsOf (graph.getBlock couple.1)).idxOf couple.2
  per_iteration : ∀ couple ∈ pairs, loop.PerIteration (graph.getBlock couple.1)
  get_unique : ∀ couple ∈ pairs, ∀ couple' ∈ pairs, couple.1 = couple'.1 → couple = couple'
  set_unique : ∀ couple ∈ pairs, ∀ couple' ∈ pairs, couple.2 = couple'.2 → couple = couple'
  lone_ne : ∀ set ∈ lone, ∀ couple ∈ pairs, couple.2 ≠ set
  get_start : ∀ couple ∈ pairs, graph.locationAt start.env couple.1 = some (location couple.1)
  get_location : ∀ couple ∈ pairs, ∀ state, loop.Executes semantics start state couple.1 →
    graph.locationAt state.env couple.1 = some (location couple.1)
  set_location : ∀ couple ∈ pairs, ∀ state, loop.Executes semantics start state couple.2 →
    graph.locationAt state.env couple.2 = some (location couple.1)
  lone_location : ∀ set ∈ lone, ∀ state, loop.Executes semantics start state set →
    graph.locationAt state.env set = some (location set)
  -- No other instruction touches the locations of the selected ones.
  couple_apart : ∀ couple ∈ pairs, ∀ insn state, loop.Executes semantics start state insn →
    insn ≠ couple.1 → insn ≠ couple.2 →
    location couple.1 ∉ graph.touchesAt semantics state insn
  lone_apart : ∀ set ∈ lone, ∀ insn state, loop.Executes semantics start state insn →
    insn ≠ set → location set ∉ graph.touchesAt semantics state insn
  set_executes : ∀ couple ∈ pairs, ∃ state, loop.Executes semantics start state couple.2
  lone_executes : ∀ set ∈ lone, ∃ state, loop.Executes semantics start state set
  get_invariant : ∀ couple ∈ pairs, loop.invariantAddress couple.1 = true
  -- The copies in the suspend block know the addresses.
  set_invariant : ∀ couple ∈ pairs, loop.suspendPoint.isSome = true →
    loop.invariantAddress couple.2 = true
  lone_invariant : ∀ set ∈ lone, loop.invariantAddress set = true
  fits : ∀ couple ∈ pairs, ∀ state, loop.Executes semantics start state couple.2 →
    narrow (graph.kind couple.2).accessType (state.env (graph.getValueToSet couple.2)) =
      state.env (graph.getValueToSet couple.2)

def Sunk (pairs : List (Fin insns × Fin insns)) (lone : List (Fin insns))
    (location : Fin insns → Location) : Set Location :=
  {place | (∃ couple ∈ pairs, location couple.1 = place) ∨ ∃ set ∈ lone, location set = place}

structure Related (graph : HGraph blocks insns) (pairs : List (Fin insns × Fin insns))
    (lone : List (Fin insns)) (location : Fin insns → Location) (done : Fin insns → Prop)
    (state : Code.State (Fin insns) Value Store)
    (state' : Code.State (Target insns) Value Store) : Prop where
  env : ∀ insn, insn ∉ pairs.map fst → state'.env (.old insn) = state.env insn
  get : ∀ couple ∈ pairs, done couple.1 →
    state'.env (graph.replacement pairs couple.1) = state.env couple.1
  before : ∀ couple ∈ pairs, ¬ done couple.2 →
    state'.env (graph.replacement pairs couple.1) = state.store.heap (location couple.1)
  after : ∀ couple ∈ pairs, done couple.2 →
    state.env (graph.getValueToSet couple.2) = state.store.heap (location couple.1)
  after_fits : ∀ couple ∈ pairs, done couple.2 →
    narrow (graph.kind couple.2).accessType (state.env (graph.getValueToSet couple.2)) =
      state.env (graph.getValueToSet couple.2)
  after_location : ∀ couple ∈ pairs, done couple.2 →
    graph.locationAt state.env couple.2 = some (location couple.1)
  lone_value : ∀ set ∈ lone, done set →
    narrow (graph.kind set).accessType (state.env (graph.getValueToSet set)) =
      state.store.heap (location set)
  lone_location : ∀ set ∈ lone, done set → graph.locationAt state.env set = some (location set)
  heap : ∀ place, place ∉ Sunk pairs lone location →
    state'.store.heap place = state.store.heap place
  suspended : state'.store.suspended = state.store.suspended
  requests : state'.store.requests = state.store.requests

section Replacement

variable {pairs : List (Fin insns × Fin insns)}

theorem replacement_of_notMem {insn : Fin insns} (hinsn : insn ∉ pairs.map fst) :
    graph.replacement pairs insn = .old insn := by
  have hlookup : pairs.lookup insn = none := by
    rw [lookup_eq_none_iff]
    intro c hcouple
    rw [bne_iff_ne]
    rintro rfl
    exact hinsn (mem_map_of_mem hcouple)
  rw [replacement, hlookup]

section

variable (hunique : ∀ c ∈ pairs, ∀ couple' ∈ pairs, c.1 = couple'.1 → c = couple')
  {c : Fin insns × Fin insns} (hcouple : c ∈ pairs)

include hunique hcouple

theorem lookup_of_mem : pairs.lookup c.1 = some c.2 := by
  cases hlookup : pairs.lookup c.1 with
  | none =>
    rw [lookup_eq_none_iff] at hlookup
    exact absurd (hlookup _ hcouple) (by simp)
  | some set =>
    obtain ⟨first, second, rfl, -⟩ := lookup_eq_some_iff.mp hlookup
    have heq := hunique _ hcouple (c.1, set) (by simp) rfl
    rw [heq]

theorem replacement_of_mem : graph.replacement pairs c.1 =
      if graph.getValueToSet c.2 = c.1 then .old c.1 else .phi c.1 := by
  rw [replacement, lookup_of_mem hunique hcouple]

end

end Replacement

theorem locationAt_congr {env env' : Fin insns → Value}
    (hagree : ∀ input ∈ graph.code.inputs insn, env input = env' input) :
    graph.locationAt env insn = graph.locationAt env' insn := by
  rw [locationAt, locationAt, operands, operands, map_congr_left hagree]

theorem valueIndex_lt_arity : {kind : Kind} → kind.isSet = true → kind.valueIndex < kind.arity
  | .instanceFieldSet _, _ | .staticFieldSet _, _ | .arraySet _, _ => lt_succ_self _

theorem getElem?_inputAt {i : ℕ} (hindex : i < (graph.kind insn).arity) :
    (graph.code.inputs insn)[i]? = some (graph.inputAt insn i) := by
  have hlen : i < (graph.code.inputs insn).length := lt_of_lt_of_le hindex (graph.arity_le insn)
  rw [inputAt, getD_eq_getElem?_getD, getElem?_eq_getElem hlen]
  rfl

theorem getElem?_value (hset : (graph.kind insn).isSet) :
    (graph.code.inputs insn)[(graph.kind insn).valueIndex]? = some (graph.getValueToSet insn) :=
  getElem?_inputAt (valueIndex_lt_arity hset)

theorem value_mem_inputs (hset : (graph.kind insn).isSet) :
    graph.getValueToSet insn ∈ graph.code.inputs insn :=
  mem_of_getElem? (getElem?_value hset)

section Advance

variable {loop : HLoopInformation graph} {semantics : Semantics}
  {start : Code.State (Fin insns) Value Store} {pairs : List (Fin insns × Fin insns)}
  {lone : List (Fin insns)} {location : Fin insns → Location}

variable {done : Fin insns → Prop} {s : Code.State (Fin insns) Value Store}
  {state' : Code.State (Target insns) Value Store}

theorem Related.env_replacement (hrel : Related graph pairs lone location done s state')
    (hdone : insn ∈ pairs.map fst → done insn) :
    state'.env (graph.replacement pairs insn) = s.env insn := by
  by_cases hget : insn ∈ pairs.map fst
  · obtain ⟨c, hcouple, rfl⟩ := mem_map.mp hget
    exact hrel.get _ hcouple (hdone hget)
  · rw [replacement_of_notMem hget]
    exact hrel.env _ hget

variable (graph pairs lone location) in
/-- How the states may change when an instruction is executed in either loop. -/
structure Advances (insn : Fin insns) (state after : Code.State (Fin insns) Value Store)
    (state' after' : Code.State (Target insns) Value Store) : Prop where
  env : ∀ other, other ≠ insn → after.env other = state.env other
  env' : ∀ other, other ≠ insn → after'.env (.old other) = state'.env (.old other)
  phi : ∀ couple ∈ pairs, after'.env (graph.replacement pairs couple.1) =
    state'.env (graph.replacement pairs couple.1)
  result : insn ∉ pairs.map fst → after'.env (.old insn) = after.env insn
  get : ∀ couple ∈ pairs, couple.1 = insn →
    state'.env (graph.replacement pairs couple.1) = after.env insn
  couple_heap : ∀ couple ∈ pairs, couple.2 ≠ insn →
    after.store.heap (location couple.1) = state.store.heap (location couple.1)
  lone_heap : ∀ set ∈ lone, set ≠ insn →
    after.store.heap (location set) = state.store.heap (location set)
  set : ∀ couple ∈ pairs, couple.2 = insn →
    after.env (graph.getValueToSet insn) = after.store.heap (location couple.1) ∧
      narrow (graph.kind insn).accessType (after.env (graph.getValueToSet insn)) =
        after.env (graph.getValueToSet insn) ∧
      graph.locationAt after.env insn = some (location couple.1)
  lone_set : ∀ set ∈ lone, set = insn →
    narrow (graph.kind set).accessType (after.env (graph.getValueToSet set)) =
        after.store.heap (location set) ∧
      graph.locationAt after.env set = some (location set)
  heap : ∀ place, place ∉ Sunk pairs lone location →
    after'.store.heap place = after.store.heap place
  suspended : after'.store.suspended = after.store.suspended
  requests : after'.store.requests = after.store.requests

variable {after : Code.State (Fin insns) Value Store}

theorem Related.advance {after' : Code.State (Target insns) Value Store}
    (hsel : Selection loop semantics start pairs lone location)
    (hrel : Related graph pairs lone location done s state')
    (hadv : Advances graph pairs lone location insn s after state' after')
    (hops : ∀ user, done user → InLoop loop user →
      ∀ operand ∈ graph.code.inputs user, operand ≠ insn) :
    Related graph pairs lone location (fun other => done other ∨ other = insn) after after' where
  env other hother := by
    by_cases heq : other = insn
    · subst heq
      exact hadv.result hother
    · rw [hadv.env' _ heq, hadv.env _ heq]
      exact hrel.env other hother
  get c hcouple hdone := by
    rw [hadv.phi _ hcouple]
    by_cases heq : c.1 = insn
    · rw [hadv.get _ hcouple heq, heq]
    · rw [hadv.env _ heq]
      exact hrel.get c hcouple (hdone.resolve_right heq)
  before _ hcouple hdone := by
    rw [not_or] at hdone
    rw [hadv.phi _ hcouple, hadv.couple_heap _ hcouple hdone.2]
    exact hrel.before _ hcouple hdone.1
  after c hcouple hdone := by
    by_cases heq : c.2 = insn
    · rw [heq]
      exact (hadv.set _ hcouple heq).1
    · have hdone := hdone.resolve_right heq
      have hne := hops c.2 hdone (hsel.set_inLoop _ hcouple) _
        (value_mem_inputs (hsel.set_isSet _ hcouple))
      rw [hadv.couple_heap _ hcouple heq, hadv.env _ hne]
      exact hrel.after _ hcouple hdone
  after_fits c hcouple hdone := by
    by_cases heq : c.2 = insn
    · rw [heq]
      exact (hadv.set _ hcouple heq).2.1
    · have hdone := hdone.resolve_right heq
      have hne := hops c.2 hdone (hsel.set_inLoop _ hcouple) _
        (value_mem_inputs (hsel.set_isSet c hcouple))
      rw [hadv.env _ hne]
      exact hrel.after_fits c hcouple hdone
  after_location c hcouple hdone := by
    by_cases heq : c.2 = insn
    · rw [heq]
      exact (hadv.set c hcouple heq).2.2
    · have hdone := hdone.resolve_right heq
      rw [← hrel.after_location _ hcouple hdone]
      exact locationAt_congr fun input hinput => hadv.env _
        (hops c.2 hdone (hsel.set_inLoop _ hcouple) _ hinput)
  lone_value set hset hdone := by
    by_cases heq : set = insn
    · exact (hadv.lone_set set hset heq).1
    · have hdone := hdone.resolve_right heq
      have hne := hops set hdone (hsel.lone_inLoop set hset) _
        (value_mem_inputs (hsel.lone_isSet set hset))
      rw [hadv.lone_heap set hset heq, hadv.env _ hne]
      exact hrel.lone_value set hset hdone
  lone_location set hset hdone := by
    by_cases heq : set = insn
    · exact (hadv.lone_set set hset heq).2
    · have hdone := hdone.resolve_right heq
      rw [← hrel.lone_location set hset hdone]
      exact locationAt_congr fun input hinput => hadv.env input
        (hops set hdone (hsel.lone_inLoop set hset) input hinput)
  heap := hadv.heap
  suspended := hadv.suspended
  requests := hadv.requests

variable {place : Location} {kind : Kind} {c : Fin insns × Fin insns} {set : Fin insns}

section

variable (hstep : graph.code.step semantics.machine s insn = some after)
  (hplace : graph.locationAt s.env insn = some place)

include hstep hplace

theorem step_of_isGet (hget : (graph.kind insn).isGet) :
    after.store = s.store ∧ after.env insn = s.store.heap place := by
  obtain ⟨result, hexecute, rfl⟩ := step_eq_some.mp hstep
  change semantics.execute _ _ _ = _ at hexecute
  rw [execute_of_isGet hget] at hexecute
  change (graph.locationAt s.env insn).map _ = _ at hexecute
  rw [hplace, map_some, some.injEq] at hexecute
  subst hexecute
  exact ⟨rfl, update_self _ _ _⟩

theorem step_of_isSet (hset : (graph.kind insn).isSet) :
    after.env = s.env ∧ after.store = s.store.write place
      (narrow (graph.kind insn).accessType (s.env (graph.getValueToSet insn))) := by
  obtain ⟨result, hexecute, rfl⟩ := step_eq_some.mp hstep
  change semantics.execute _ _ _ = _ at hexecute
  rw [execute_of_isSet hset] at hexecute
  change (graph.locationAt s.env insn).bind _ = _ at hexecute
  have hvalue : (graph.code.operands s.env insn)[(graph.kind insn).valueIndex]? =
      some (s.env (graph.getValueToSet insn)) := by
    rw [operands, getElem?_map, getElem?_value hset, map_some]
  change (graph.code.operands s.env insn)[(graph.code.op insn).kind.valueIndex]? = _ at hvalue
  rw [hplace, bind_some, hvalue, map_some, some.injEq] at hexecute
  subst hexecute
  exact ⟨rfl, rfl⟩

end

theorem not_isSet_of_isGet (hget : kind.isGet) : ¬ kind.isSet := by
  intro hset
  rw [isGet_eq_false_of_isSet hset] at hget
  exact Bool.false_ne_true hget

theorem mem_touchesAt (haccess : ((graph.kind insn).isGet || (graph.kind insn).isSet))
    (hplace : graph.locationAt s.env insn = some place) :
    place ∈ graph.touchesAt semantics s insn := by
  rw [touchesAt, touches_of_isAccess haccess]
  exact hplace

section Steps

variable (hsel : Selection loop semantics start pairs lone location)
  (hrel : Related graph pairs lone location done s state')
  (hexec : loop.Executes semantics start s insn)
  (hstep : graph.code.step semantics.machine s insn = some after)

include hsel hrel hexec hstep

/-- The getter of a couple reads what its phi holds. -/
theorem advances_get (hcouple : c ∈ pairs) (hinsn : c.1 = insn) (hdone : ¬ done c.2) :
    Advances graph pairs lone location insn s after state' state' := by
  subst hinsn
  have hget := hsel.get_isGet _ hcouple
  obtain ⟨hstore, hvalue⟩ := step_of_isGet hstep (hsel.get_location _ hcouple _ hexec) hget
  refine ⟨fun other hne => step_env_of_ne hstep hne, fun _ _ => rfl, fun _ _ => rfl,
    ?_, ?_, ?_, ?_, ?_, ?_, ?_, ?_, ?_⟩
  · intro hnot
    exact absurd (mem_map_of_mem hcouple) hnot
  · intro couple' hcouple' heq
    obtain rfl := hsel.get_unique _ hcouple' _ hcouple heq
    rw [hvalue]
    exact hrel.before _ hcouple hdone
  · intro couple' _ _
    rw [hstore]
  · intro set _ _
    rw [hstore]
  · intro couple' hcouple' heq
    have hset := hsel.set_isSet _ hcouple'
    rw [heq] at hset
    exact absurd hset (not_isSet_of_isGet hget)
  · intro set hset heq
    have hset := hsel.lone_isSet set hset
    rw [heq] at hset
    exact absurd hset (not_isSet_of_isGet hget)
  · rw [hstore]
    exact hrel.heap
  · rw [hstore]
    exact hrel.suspended
  · rw [hstore]
    exact hrel.requests

omit hrel hstep in
/-- A setter does not touch the location of another couple or lone setter. -/
theorem location_ne_of_isSet (hset : (graph.kind insn).isSet)
    (hplace : graph.locationAt s.env insn = some place) :
    (∀ c ∈ pairs, c.2 ≠ insn → location c.1 ≠ place) ∧
      ∀ set ∈ lone, set ≠ insn → location set ≠ place := by
  have htouches : place ∈ graph.touchesAt semantics s insn :=
    mem_touchesAt (by rw [hset, Bool.or_true]) hplace
  refine ⟨fun c hcouple hne heq => ?_, fun set hmem hne heq => ?_⟩
  · have hget : insn ≠ c.1 := by
      rintro rfl
      exact not_isSet_of_isGet (hsel.get_isGet _ hcouple) hset
    exact hsel.couple_apart _ hcouple _ _ hexec hget (Ne.symm hne) (heq ▸ htouches)
  · exact hsel.lone_apart set hmem _ _ hexec (Ne.symm hne) (heq ▸ htouches)

/-- A sunk setter changes its own location only. -/
theorem advances_set (hset : (graph.kind insn).isSet)
    (hplace : graph.locationAt s.env insn = some place) (hsunk : place ∈ Sunk pairs lone location)
    (hcouple : ∀ c ∈ pairs, c.2 = insn → place = location c.1)
    (hlone : ∀ set ∈ lone, set = insn → place = location set) :
    Advances graph pairs lone location insn s after state' state' := by
  obtain ⟨henv, hstore⟩ := step_of_isSet hstep hplace hset
  obtain ⟨hcoupleNe, hloneNe⟩ := location_ne_of_isSet hsel hexec hset hplace
  have hnotGet : insn ∉ pairs.map fst := by
    intro hget
    obtain ⟨c, hmem, rfl⟩ := mem_map.mp hget
    exact not_isSet_of_isGet (hsel.get_isGet _ hmem) hset
  refine ⟨fun _ _ => by rw [henv], fun _ _ => rfl, fun _ _ => rfl, ?_, ?_, ?_, ?_, ?_, ?_, ?_, ?_,
    ?_⟩
  · intro _
    rw [henv]
    exact hrel.env _ hnotGet
  · rintro c hmem rfl
    exact absurd (mem_map_of_mem hmem) hnotGet
  · intro c hmem hne
    rw [hstore, write_heap, if_neg (hcoupleNe _ hmem hne)]
  · intro set hmem hne
    rw [hstore, write_heap, if_neg (hloneNe set hmem hne)]
  · intro c hmem heq
    obtain rfl := hcouple _ hmem heq
    have hfits := hsel.fits _ hmem s (heq ▸ hexec)
    rw [heq] at hfits
    refine ⟨?_, by rw [henv, hfits], by rw [henv, hplace]⟩
    rw [henv, hstore, write_heap, if_pos rfl, hfits]
  · intro set hmem heq
    subst heq
    obtain rfl := hlone set hmem rfl
    exact ⟨by rw [henv, hstore, write_heap, if_pos rfl], by rw [henv, hplace]⟩
  · intro other hother
    have hne : other ≠ place := fun heq => hother (heq ▸ hsunk)
    rw [hstore, write_heap, if_neg hne]
    exact hrel.heap _ hother
  · rw [hstore]
    exact hrel.suspended
  · rw [hstore]
    exact hrel.requests

omit hrel hstep in
theorem touchesAt_apart (hinsn : insn ∉ moved pairs lone) :
    ∀ place ∈ graph.touchesAt semantics s insn, place ∉ Sunk pairs lone location := by
  simp only [moved, mem_append, not_or] at hinsn
  rintro place hplace (⟨c, hcouple, rfl⟩ | ⟨set, hset, rfl⟩)
  · refine hsel.couple_apart _ hcouple _ _ hexec ?_ ?_ hplace
    · rintro rfl
      exact hinsn.1.1 (mem_map_of_mem hcouple)
    · rintro rfl
      exact hinsn.1.2 (mem_map_of_mem hcouple)
  · refine hsel.lone_apart set hset _ _ hexec ?_ hplace
    rintro rfl
    exact hinsn.2 hset

omit hrel hexec hstep in
theorem replacement_ne_old (hinsn : insn ∉ moved pairs lone)
    (hcouple : c ∈ pairs) : graph.replacement pairs c.1 ≠ .old insn := by
  rw [replacement_of_mem hsel.get_unique hcouple]
  split
  · intro heq
    apply hinsn
    rw [← Target.old.inj heq]
    simp only [moved, mem_append]
    exact .inl (.inl (mem_map_of_mem hcouple))
  · exact nofun

/-- An instruction that stays in the loop does the same in the rewritten loop. -/
theorem exists_advances_of_notMem_moved (exit : Fin blocks) (hinsn : insn ∉ moved pairs lone)
    (hops : ∀ operand ∈ graph.code.inputs insn, operand ∈ pairs.map fst → done operand) :
    ∃ after', (loop.doLoadHoistStoreSink pairs lone exit).step semantics.targetMachine state'
        (.old insn) = some after' ∧
      Advances graph pairs lone location insn s after state' after' := by
  obtain ⟨⟨result, store⟩, hexecute, rfl⟩ := step_eq_some.mp hstep
  obtain ⟨store', hexecute', hsame⟩ := execute_congr
    (touchesAt_apart hsel hexec hinsn) hrel.heap hrel.suspended
    hrel.requests hexecute
  have hargs : (loop.doLoadHoistStoreSink pairs lone exit).operands state'.env (.old insn) =
      graph.code.operands s.env insn := by
    change ((graph.code.inputs insn).map (graph.replacement pairs)).map state'.env = _
    rw [List.map_map]
    exact map_congr_left fun operand hop => hrel.env_replacement (hops _ hop)
  refine ⟨state'.assign (.old insn) (result, store'), ?_, ?_⟩
  · rw [step_eq_some]
    refine ⟨(result, store'), ?_, rfl⟩
    rw [hargs]
    exact hexecute'
  have hnot := hinsn
  simp only [moved, mem_append, not_or] at hnot
  refine ⟨fun other hne => assign_env_of_ne _ hne,
    fun other hne => assign_env_of_ne _ fun heq => hne (Target.old.inj heq),
    fun c hcouple => assign_env_of_ne _ (replacement_ne_old hsel hinsn hcouple),
    ?_, ?_, ?_, ?_, ?_, ?_, ?_, ?_, ?_⟩
  · intro hget
    exact assign_env_map (fun _ _ => Target.old.inj) result fun _ => hrel.env _ hget
  · rintro c hcouple rfl
    exact absurd (mem_map_of_mem hcouple) hnot.1.1
  · intro c hcouple _
    rw [assign_store]
    exact hsame.apart_heap _ (.inl ⟨c, hcouple, rfl⟩)
  · intro set hset _
    rw [assign_store]
    exact hsame.apart_heap _ (.inr ⟨set, hset, rfl⟩)
  · rintro c hcouple rfl
    exact absurd (mem_map_of_mem hcouple) hnot.1.2
  · rintro set hset rfl
    exact absurd hset hnot.2
  · rw [assign_store, assign_store]
    exact hsame.heap
  · rw [assign_store, assign_store]
    exact hsame.suspended
  · rw [assign_store, assign_store]
    exact hsame.requests

end Steps

/-! ## The suspend block -/

theorem accessLocation_congr {args args' : List Value}
    (hbase : args[0]? = args'[0]?) (hindex : kind.isArray → args[1]? = args'[1]?) :
    kind.accessLocation args = kind.accessLocation args' := by
  cases args with
  | nil =>
    cases args' with
    | nil => rfl
    | cons base' rest' => cases hbase
  | cons base rest =>
    rcases args' with _ | ⟨base', rest'⟩
    · cases hbase
    cases hbase
    simp only [Kind.accessLocation]
    split
    next harray =>
      have hhead : rest.head? = rest'.head? := by
        rw [head?_eq_getElem?, head?_eq_getElem?]
        exact hindex harray
      rw [hhead]
    · rfl

theorem env_of_outside {other : Fin insns} (hother : graph.getBlock other ∉ loop.body)
    (hexec : loop.Executes semantics start s insn) : s.env other = start.env other := by
  refine Code.Executes.env_of_outside (fun b hblock hmem => hother ?_)
    (fun b hblock hmem => hother ?_) hexec
  · rw [getBlock_of_mem_phis hmem]
    exact hblock
  · rw [getBlock_of_mem_instructions hmem]
    exact hblock

theorem arity_pos_of_isSet : {kind : Kind} → kind.isSet = true →
    0 < kind.arity ∧ (kind.isArray = true → 1 < kind.arity)
  | .instanceFieldSet _, _ | .staticFieldSet _, _ => ⟨zero_lt_succ _, nofun⟩
  | .arraySet _, _ => ⟨zero_lt_succ _, fun _ => one_lt_succ_succ _⟩

/-- A setter of an invariant address goes to the same location from everywhere. -/
theorem accessLocation_of_invariant (hset : (graph.kind insn).isSet)
    (hinv : loop.invariantAddress insn) (hexec : loop.Executes semantics start s insn)
    (hplace : graph.locationAt s.env insn = some place) {args : List Value}
    (hbase : args[0]? = some (start.env (graph.inputAt insn 0)))
    (hindex : (graph.kind insn).isArray → args[1]? = some (start.env (graph.inputAt insn 1))) :
    (graph.kind insn).accessLocation args = some place := by
  obtain ⟨harity, harrayArity⟩ := arity_pos_of_isSet hset
  obtain ⟨houtside, harrayOutside⟩ := Bool.and_eq_true_iff.mp hinv
  rw [← hplace]
  apply accessLocation_congr
  · rw [hbase, operands, getElem?_map, getElem?_inputAt harity, map_some,
      env_of_outside (by simpa [HLoopInformation.contains] using houtside) hexec]
  · intro harray
    have hcontains : loop.contains (graph.inputAt insn 1) = false := by
      simpa [harray] using harrayOutside
    rw [hindex harray, operands, getElem?_map, getElem?_inputAt (harrayArity harray), map_some,
      env_of_outside (by simpa [HLoopInformation.contains] using hcontains) hexec]

variable (loop pairs lone) in
theorem copy_inputs (exit : Fin blocks) (hset : (graph.kind set).isSet) :
    (∀ i, i ≠ (graph.kind set).valueIndex →
      ((loop.doLoadHoistStoreSink pairs lone exit).inputs (.copy set))[i]? =
        ((graph.code.inputs set).map (graph.replacement pairs))[i]?) ∧
      ∃ v, ((loop.doLoadHoistStoreSink pairs lone exit).inputs (.copy set))[
        (graph.kind set).valueIndex]? = some v := by
  have hvalue := getElem?_value hset
  simp only [doLoadHoistStoreSink]
  cases (graph.phiPairs pairs).find? fun c => c.2 = set with
  | none =>
    refine ⟨fun _ _ => rfl, graph.replacement pairs (graph.getValueToSet set), ?_⟩
    rw [getElem?_map, hvalue, map_some]
  | some c =>
    refine ⟨fun i hne => getElem?_set_ne hne.symm, .phi c.1, ?_⟩
    have hlen := (List.getElem?_eq_some_iff.mp hvalue).choose
    rw [getElem?_set_self (by rw [length_map]; exact hlen)]

theorem zero_ne_valueIndex : {kind : Kind} → 0 ≠ kind.valueIndex
  | .arraySet _ => nofun
  | .instanceFieldGet _ | .instanceFieldSet _ | .staticFieldGet _ | .staticFieldSet _
  | .arrayGet _ | .addLHSMemory _ _ | .nullCheck | .boundsCheck | .clinitCheck
  | .loadClass _ | .intConstant _ | .phi | .other _ _ _ => nofun

theorem one_ne_valueIndex : {kind : Kind} → kind.isSet = true → kind.isArray = true →
    1 ≠ kind.valueIndex
  | .arraySet _, _, _ => nofun

section

variable (hsel : Selection loop semantics start pairs lone location)
  (hrel : Related graph pairs lone location done s state')
  (houtside : ∀ other, graph.getBlock other ∉ loop.body → s.env other = start.env other)

include hsel hrel houtside

/-- The copy of a setter writes to a sunk location, if it is executed. -/
theorem exists_step_copy {exit : Fin blocks}
    (hset : (graph.kind set).isSet) (hinv : loop.invariantAddress set)
    {before : Code.State (Fin insns) Value Store} (hexec : loop.Executes semantics start before set)
    (hplace : graph.locationAt before.env set = some place)
    (hsunk : place ∈ Sunk pairs lone location) :
    ∃ after', (loop.doLoadHoistStoreSink pairs lone exit).step semantics.targetMachine state'
        (.copy set) = some after' ∧
      Related graph pairs lone location done s after' := by
  obtain ⟨haddr, v, hvalue⟩ := copy_inputs _ _ _ _ hset
  obtain ⟨harity, harrayArity⟩ := arity_pos_of_isSet hset
  obtain ⟨hbase, hindex⟩ := Bool.and_eq_true_iff.mp hinv
  -- An operand outside of the loop has kept its value.
  have hinput : ∀ i, i < (graph.kind set).arity → i ≠ (graph.kind set).valueIndex →
      loop.contains (graph.inputAt set i) = false →
      ((loop.doLoadHoistStoreSink pairs lone exit).operands state'.env (.copy set))[i]? =
        some (start.env (graph.inputAt set i)) := by
    intro i hlt hne hcontains
    have hout : graph.getBlock (graph.inputAt set i) ∉ loop.body := by
      simpa [HLoopInformation.contains] using hcontains
    have hnot : graph.inputAt set i ∉ pairs.map fst := by
      intro hmem
      obtain ⟨c, hcouple, heq⟩ := mem_map.mp hmem
      exact hout (heq ▸ (hsel.get_inLoop _ hcouple).body)
    rw [operands, getElem?_map, haddr _ hne, getElem?_map,
      getElem?_inputAt hlt, map_some, map_some, replacement_of_notMem hnot,
      hrel.env _ hnot, houtside _ hout]
  have hloc := accessLocation_of_invariant hset hinv hexec hplace
    (hinput 0 harity zero_ne_valueIndex (by simpa using hbase))
    (fun harray => hinput 1 (harrayArity harray) (one_ne_valueIndex hset harray)
      (by simpa [harray] using hindex))
  by_cases hsusp : state'.store.suspended = true
  · refine ⟨⟨state'.env, state'.store.write place
      (narrow (graph.kind set).accessType (state'.env v))⟩, ?_, ?_⟩
    · rw [step_eq_some]
      refine ⟨(none, state'.store.write place
        (narrow (graph.kind set).accessType (state'.env v))), ?_, rfl⟩
      change (if state'.store.suspended then semantics.execute (graph.code.op set) _ _
        else some (none, state'.store)) = _
      rw [if_pos hsusp, execute_of_isSet hset]
      change ((graph.kind set).accessLocation _).bind _ = _
      rw [hloc, bind_some]
      change ((loop.doLoadHoistStoreSink pairs lone exit).operands state'.env (.copy set))[
        (graph.kind set).valueIndex]?.map _ = _
      rw [operands, getElem?_map, hvalue]
      rfl
    · refine ⟨hrel.env, hrel.get, hrel.before, hrel.after,
        hrel.after_fits, hrel.after_location, hrel.lone_value, hrel.lone_location, ?_,
        hrel.suspended, hrel.requests⟩
      intro other hother
      have hne : other ≠ place := fun heq => hother (heq ▸ hsunk)
      rw [write_heap, if_neg hne]
      exact hrel.heap _ hother
  · refine ⟨state', ?_, hrel⟩
    rw [step_eq_some]
    exact ⟨(none, state'.store), if_neg hsusp, rfl⟩

theorem exists_steps_copies (exit : Fin blocks) (hsuspend : loop.suspendPoint.isSome) :
    ∃ after', (loop.doLoadHoistStoreSink pairs lone exit).steps semantics.targetMachine state'
        (graph.copies pairs lone) = some after' ∧
      Related graph pairs lone location done s after' := by
  rw [copies]
  have hsets : ∀ set ∈ (graph.phiPairs pairs).map snd ++ lone,
      set ∈ pairs.map snd ∨ set ∈ lone := by
    intro set hset
    refine (mem_append.mp hset).imp (fun hmem => ?_) id
    obtain ⟨c, hcouple, rfl⟩ := mem_map.mp hmem
    exact mem_map_of_mem (mem_filter.mp hcouple).1
  generalize (graph.phiPairs pairs).map snd ++ lone = sets at hsets
  induction sets generalizing state' with
  | nil => exact ⟨state', rfl, hrel⟩
  | cons set sets ih =>
    have hstep : ∃ after', (loop.doLoadHoistStoreSink pairs lone exit).step
        semantics.targetMachine state' (.copy set) = some after' ∧
        Related graph pairs lone location done s after' := by
      rcases hsets set mem_cons_self with hmem | hmem
      · obtain ⟨c, hcouple, rfl⟩ := mem_map.mp hmem
        obtain ⟨before, hexec⟩ := hsel.set_executes _ hcouple
        exact exists_step_copy hsel hrel houtside
          (hsel.set_isSet _ hcouple) (hsel.set_invariant _ hcouple hsuspend)
          hexec (hsel.set_location _ hcouple _ hexec)
          (.inl ⟨c, hcouple, rfl⟩)
      · obtain ⟨before, hexec⟩ := hsel.lone_executes set hmem
        exact exists_step_copy hsel hrel houtside
          (hsel.lone_isSet set hmem) (hsel.lone_invariant set hmem)
          hexec (hsel.lone_location set hmem _ hexec)
          (.inr ⟨set, hmem, rfl⟩)
    obtain ⟨middle, hstep, hmiddle⟩ := hstep
    obtain ⟨after', hsteps, hafter⟩ :=
      ih hmiddle fun other hother => hsets other (mem_cons_of_mem _ hother)
    refine ⟨after', ?_, hafter⟩
    rw [map_cons, steps_cons, hstep, bind_some]
    exact hsteps

end

theorem done_append (before : List (Fin insns)) (past : List (Fin blocks)) (insn : Fin insns) :
    Done graph (before ++ [insn]) past =
      fun other => Done graph before past other ∨ other = insn := by
  funext other
  simp only [Done, mem_append, mem_singleton, eq_iff_iff]
  tauto

section Block

variable {b : Fin blocks} {past : List (Fin blocks)} {before rest : List (Fin insns)}
  (hsel : Selection loop semantics start pairs lone location)
  (hcur : loop.Iteration (b :: past))
  (hsplit : graph.code.instructionsOf b = before ++ insn :: rest)
  (hrel : Related graph pairs lone location (Done graph before past) s state')
  (hexec : loop.Executes semantics start s insn)
  (hstep : graph.code.step semantics.machine s insn = some after)

include hsel hcur hsplit in
theorem not_done_set (hcouple : c ∈ pairs) (hinsn : c.1 = insn) : ¬ Done graph before past c.2 := by
  have hblock := getBlock_of_split hsplit
  have hsame := hsel.same_block _ hcouple
  have hordered := hsel.ordered _ hcouple
  rw [hinsn, hblock] at hsame hordered
  rintro (hbefore | hpast)
  · rw [idxOf_of_split hsplit, hsplit, idxOf_append_of_mem hbefore] at hordered
    exact absurd (idxOf_lt_length_of_mem hbefore) (not_lt.mpr hordered.le)
  · rw [hsame] at hpast
    exact block_notMem_past hcur hpast

include hsel hcur hsplit hrel hexec hstep

theorem exists_related_insn (exit : Fin blocks) (hphi : insn ∉ graph.code.phis b)
    (houtside : ∀ other, graph.getBlock other ∉ loop.body → after.env other = start.env other) :
    ∃ after', (loop.doLoadHoistStoreSink pairs lone exit).steps semantics.targetMachine state'
        (loop.rewrittenInsns pairs lone [insn]) = some after' ∧
      Related graph pairs lone location (Done graph (before ++ [insn]) past) after after' := by
  rw [done_append]
  have hops : ∀ user, Done graph before past user → InLoop loop user →
      ∀ operand ∈ graph.code.inputs user, operand ≠ insn :=
    fun user hdone huser operand hop =>
      operand_ne_of_done hcur hsplit hdone (huser.notMem_phis _) hop
  rw [rewrittenInsns, flatMap_singleton]
  by_cases hmoved : insn ∈ moved pairs lone
  · -- A moved instruction is not executed in the rewritten loop.
    rw [if_pos hmoved]
    refine ⟨state', rfl, hrel.advance hsel ?_ hops⟩
    simp only [moved, mem_append] at hmoved
    rcases hmoved with (hget | hset) | hlone
    · obtain ⟨c, hcouple, heq⟩ := mem_map.mp hget
      exact advances_get hsel hrel hexec hstep hcouple heq
        (not_done_set hsel hcur hsplit hcouple heq)
    · obtain ⟨c, hcouple, rfl⟩ := mem_map.mp hset
      refine advances_set hsel hrel hexec hstep (hsel.set_isSet _ hcouple)
        (hsel.set_location _ hcouple _ hexec)
        (.inl ⟨c, hcouple, rfl⟩) ?_ ?_
      · intro couple' hcouple' heq
        rw [hsel.set_unique _ hcouple' _ hcouple heq]
      · intro set hset heq
        exact absurd heq.symm (hsel.lone_ne set hset _ hcouple)
    · refine advances_set hsel hrel hexec hstep (hsel.lone_isSet _ hlone)
        (hsel.lone_location _ hlone _ hexec) (.inr ⟨insn, hlone, rfl⟩) ?_ ?_
      · intro c hcouple heq
        exact absurd heq (hsel.lone_ne _ hlone _ hcouple)
      · intro set _ heq
        rw [heq]
  · rw [if_neg hmoved]
    obtain ⟨middle, hmiddle, hadv⟩ := exists_advances_of_notMem_moved
      hsel hrel hexec hstep _ hmoved fun operand hop hget => by
        obtain ⟨c, hcouple, rfl⟩ := mem_map.mp hget
        exact done_operand hcur hsplit hphi hop (hsel.get_inLoop _ hcouple).body
    have hadvanced := hrel.advance hsel hadv hops
    by_cases hsuspend : loop.suspendPoint = some insn
    · obtain ⟨after', hcopies, hafter⟩ := exists_steps_copies hsel hadvanced
        houtside exit (by rw [hsuspend]; rfl)
      refine ⟨after', ?_, hafter⟩
      rw [if_pos hsuspend, steps_cons, hmiddle, bind_some]
      exact hcopies
    · refine ⟨middle, ?_, hadvanced⟩
      rw [if_neg hsuspend, steps_singleton, hmiddle]

end Block

/-- The instructions of one block, up to any point, in the two loops. -/
theorem exists_related_first (exit : Fin blocks)
    (hsel : Selection loop semantics start pairs lone location) {b : Fin blocks}
    {past trail : List (Fin blocks)} (hcur : loop.Iteration (b :: past))
    {entered : Code.State (Fin insns) Value Store}
    {entered' : Code.State (Target insns) Value Store}
    (hrun : Code.LoopRun graph.code semantics.machine loop.toNaturalLoop loop.preHeader start
      (b :: trail) entered)
    (hrel : Related graph pairs lone location (Done graph (graph.code.phis b) past)
      entered entered') {first rest : List (Fin insns)}
    (hinstr : graph.code.instructions b = first ++ rest)
    (hsteps : graph.code.steps semantics.machine entered first = some s) :
    ∃ state', (loop.doLoadHoistStoreSink pairs lone exit).steps semantics.targetMachine entered'
        (loop.rewrittenInsns pairs lone first) = some state' ∧
      Related graph pairs lone location (Done graph (graph.code.phis b ++ first) past)
        s state' := by
  refine exists_steps_of_sim (R := fun front => Related graph pairs lone location
    (Done graph (graph.code.phis b ++ front) past)) ?_ (by rwa [append_nil]) hsteps
  rintro front insn back now now' next rfl hfront hnow hstep
  rw [append_assoc, cons_append] at hinstr
  have hsplit : graph.code.instructionsOf b = (graph.code.phis b ++ front) ++
      insn :: (back ++ rest ++ [graph.code.terminator b]) := by
    rw [instructionsOf, hinstr]
    simp
  have hexec : loop.Executes semantics start now insn :=
    ⟨b, trail, entered, front, back ++ rest, hrun, hinstr, hfront⟩
  have hblock := getBlock_of_split hsplit
  have hbody := hcur.mem_body _ mem_cons_self
  have hphi : insn ∉ graph.code.phis b := fun hmem => notMem_before hsplit (mem_append_left _ hmem)
  obtain ⟨next', hinsn, hnext⟩ := exists_related_insn hsel hcur hsplit hnow hexec hstep exit hphi
    fun other hother => by
      have hne : other ≠ insn := by
        rintro rfl
        exact hother (hblock ▸ hbody)
      rw [step_env_of_ne hstep hne, env_of_outside hother hexec]
  refine ⟨next', ?_, by rwa [← append_assoc]⟩
  rwa [rewrittenInsns, flatMap_singleton] at hinsn

end Advance

end NougatArt.LoadHoist
