import NougatArt.Heap.LoadHoistSound

/-!
# The rewritten loop runs along with the original one

The relation between the two loops is carried from block to block: over the joins
in an iteration, over the back edge, where the phis of the couples take over the
stored values, and to the exit, where the sunk setters are executed.
-/

namespace NougatArt.LoadHoist

open List Option Prod HLoopInformation Code SsaGraph Target Semantics

open Heap

variable {blocks insns : ℕ} {g : HGraph blocks insns} {loop : HLoopInformation g}
  {semantics : Semantics} {start s after : Code.State (Fin insns) Value Store}
  {pairs : List (Fin insns × Fin insns)} {lone : List (Fin insns)}
  {loc : Fin insns → Location} {done : Fin insns → Prop}
  {state' : Code.State (Target insns) Value Store} {trail : List (Fin blocks)}

section

variable {insn : Fin insns} (hinsn : InLoop loop insn) (b : Fin blocks) (past : List (Fin blocks))

include hinsn b past

/-- At the end of a block its instructions are done. -/
theorem done_block_iff : Done g (g.code.phis b ++ g.code.instructions b) past insn ↔
      Done g [] (b :: past) insn := by
  simp only [Done, not_mem_nil, false_or, mem_cons]
  refine or_congr ⟨fun hmem => ?_, fun hblock => ?_⟩ Iff.rfl
  · rw [← g.mem_iff]
    exact mem_append_left _ hmem
  · rw [← hblock]
    exact mem_append_right _ hinsn.mem

/-- At the beginning of a block only its phis are done. -/
theorem done_phis_iff : Done g [] past insn ↔ Done g (g.code.phis b) past insn := by
  simp only [Done, hinsn.notMem_phis b, not_mem_nil]

end

theorem Related.congr_done (hsel : Selection loop semantics start pairs lone loc)
    {done' : Fin insns → Prop} (hdone : ∀ insn, InLoop loop insn → (done insn ↔ done' insn))
    (hrel : Related g pairs lone loc done s state') :
    Related g pairs lone loc done' s state' where
  env := hrel.env
  get c hcouple hget := hrel.get _ hcouple ((hdone _ (hsel.get_inLoop c hcouple)).mpr hget)
  before c hcouple hset := hrel.before c hcouple
      ((not_congr (hdone _ (hsel.set_inLoop _ hcouple))).mpr hset)
  after _ hcouple hset := hrel.after _ hcouple ((hdone _ (hsel.set_inLoop _ hcouple)).mpr hset)
  after_fits c hcouple hset :=
    hrel.after_fits _ hcouple ((hdone _ (hsel.set_inLoop c hcouple)).mpr hset)
  after_location c hcouple hset := hrel.after_location _ hcouple
      ((hdone _ (hsel.set_inLoop c hcouple)).mpr hset)
  lone_value set hset hlone :=
    hrel.lone_value set hset ((hdone _ (hsel.lone_inLoop set hset)).mpr hlone)
  lone_location set hset hlone :=
    hrel.lone_location set hset ((hdone _ (hsel.lone_inLoop set hset)).mpr hlone)
  heap := hrel.heap
  suspended := hrel.suspended
  requests := hrel.requests

section Enter

variable {exit src t : Fin blocks} {s : Code.State (Fin insns) Value Store}
  {state' : Code.State (Target insns) Value Store}

variable {insn : Fin insns}

theorem enter_locationAt (hinputs : ∀ operand ∈ g.code.inputs insn, operand ∉ g.code.phis t) :
    g.locationAt (g.code.enter src t s).env insn = g.locationAt s.env insn :=
  locationAt_congr fun operand hop => enter_env_of_notMem (hinputs operand hop)

theorem old_mem_phis : Target.old insn ∈ (loop.doLoadHoistStoreSink pairs lone exit).phis t ↔
      insn ∈ g.code.phis t := by
  simp only [doLoadHoistStoreSink, mem_append]
  constructor
  · rintro (hmem | hmem)
    · obtain ⟨other, hother, heq⟩ := mem_map.mp hmem
      obtain rfl := old.inj heq
      exact hother
    · split at hmem
      · obtain ⟨_, _, heq⟩ := mem_map.mp hmem
        cases heq
      · cases hmem
  · exact fun hmem => .inl (mem_map_of_mem hmem)

theorem phi_mem_phis {get : Fin insns} :
    Target.phi get ∈ (loop.doLoadHoistStoreSink pairs lone exit).phis t ↔
      t = loop.header ∧ ∃ c ∈ g.phiPairs pairs, c.1 = get := by
  simp only [doLoadHoistStoreSink, mem_append]
  constructor
  · rintro (hmem | hmem)
    · obtain ⟨_, _, heq⟩ := mem_map.mp hmem
      cases heq
    · split at hmem
      next hheader =>
        obtain ⟨c, hcouple, heq⟩ := mem_map.mp hmem
        exact ⟨hheader, c, hcouple, phi.inj heq⟩
      · cases hmem
  · rintro ⟨hheader, c, hcouple, rfl⟩
    right
    rw [if_pos hheader]
    exact mem_map_of_mem hcouple

/-- The phis of the original loop take the same values in the rewritten one. -/
theorem Related.enter_env (hrel : Related g pairs lone loc done s state')
    (hops : ∀ phi ∈ g.code.phis t,
      g.code.phiInput phi src ∈ pairs.map fst → done (g.code.phiInput phi src))
    (hinsn : insn ∉ pairs.map fst) :
    ((loop.doLoadHoistStoreSink pairs lone exit).enter src t state').env (.old insn) =
      (g.code.enter src t s).env insn := by
  by_cases hphi : insn ∈ g.code.phis t
  · rw [enter_env_of_mem hphi, enter_env_of_mem (old_mem_phis.mpr hphi)]
    exact hrel.env_replacement (hops _ hphi)
  · rw [enter_env_of_notMem hphi, enter_env_of_notMem (old_mem_phis.not.mpr hphi)]
    exact hrel.env _ hinsn

section

variable (hsel : Selection loop semantics start pairs lone loc)

include hsel

theorem enter_replacement_of_ne
    (hheader : t ≠ loop.header) {c : Fin insns × Fin insns} (hcouple : c ∈ pairs) :
    ((loop.doLoadHoistStoreSink pairs lone exit).enter src t state').env
        (g.replacement pairs c.1) = state'.env (g.replacement pairs c.1) := by
  apply enter_env_of_notMem
  rw [replacement_of_mem hsel.get_unique hcouple]
  split
  · rw [old_mem_phis]
    exact (hsel.get_inLoop _ hcouple).notMem_phis t
  · rw [phi_mem_phis]
    exact fun hmem => hheader hmem.1

/-- Entering a block other than the header keeps the relation. -/
theorem Related.enter_of_ne {visited : List (Fin blocks)}
    (hrel : Related g pairs lone loc (Done g [] visited) s state')
    (hheader : t ≠ loop.header) (hops : ∀ phi ∈ g.code.phis t,
      g.getBlock (g.code.phiInput phi src) ∈ loop.body →
        g.getBlock (g.code.phiInput phi src) ∈ visited)
    (husers : ∀ user, InLoop loop user → g.getBlock user ∈ visited →
      ∀ operand ∈ g.code.inputs user, operand ∉ g.code.phis t) :
    Related g pairs lone loc (Done g [] visited) (g.code.enter src t s)
      ((loop.doLoadHoistStoreSink pairs lone exit).enter src t state') := by
  have hvis : ∀ {insn}, Done g [] visited insn → g.getBlock insn ∈ visited :=
    fun hdone => hdone.resolve_left not_mem_nil
  have hvalue : ∀ set, InLoop loop set → (g.kind set).isSet = true →
      Done g [] visited set → g.getValueToSet set ∉ g.code.phis t :=
    fun set hset hisSet hdone => husers set hset (hvis hdone) _ (value_mem_inputs hisSet)
  refine ⟨fun insn hinsn => hrel.enter_env ?_ hinsn, ?_, ?_, ?_, ?_, ?_, ?_, ?_,
    hrel.heap, hrel.suspended, hrel.requests⟩
  · intro phi hphi hget
    obtain ⟨c, hcouple, heq⟩ := mem_map.mp hget
    refine .inr (hops phi hphi ?_)
    rw [← heq]
    exact (hsel.get_inLoop _ hcouple).body
  · intro c hcouple hdone
    rw [enter_replacement_of_ne hsel hheader hcouple, hrel.get _ hcouple hdone,
      enter_env_of_notMem ((hsel.get_inLoop _ hcouple).notMem_phis t)]
  · intro c hcouple hdone
    rw [enter_replacement_of_ne hsel hheader hcouple]
    exact hrel.before _ hcouple hdone
  · intro c hcouple hdone
    rw [enter_env_of_notMem (hvalue _ (hsel.set_inLoop _ hcouple) (hsel.set_isSet _ hcouple) hdone)]
    exact hrel.after _ hcouple hdone
  · intro c hcouple hdone
    rw [enter_env_of_notMem (hvalue _ (hsel.set_inLoop _ hcouple) (hsel.set_isSet _ hcouple) hdone)]
    exact hrel.after_fits _ hcouple hdone
  · intro c hcouple hdone
    rw [enter_locationAt (husers _ (hsel.set_inLoop _ hcouple) (hvis hdone))]
    exact hrel.after_location _ hcouple hdone
  · intro set hset hdone
    rw [enter_env_of_notMem (hvalue _ (hsel.lone_inLoop set hset) (hsel.lone_isSet set hset) hdone)]
    exact hrel.lone_value set hset hdone
  · intro set hset hdone
    rw [enter_locationAt (husers _ (hsel.lone_inLoop set hset) (hvis hdone))]
    exact hrel.lone_location set hset hdone

/-- The phi of a couple takes over the stored value at a back edge. -/
theorem Related.enter_replacement_back (hrel : Related g pairs lone loc done s state')
    (hall : ∀ c ∈ pairs, done c.1 ∧ done c.2) (hsrc : src ≠ loop.preHeader)
    {c : Fin insns × Fin insns} (hcouple : c ∈ pairs) :
    ((loop.doLoadHoistStoreSink pairs lone exit).enter src loop.header state').env
        (g.replacement pairs c.1) = s.store.heap (loc c.1) := by
  rw [← hrel.after _ hcouple (hall _ hcouple).2, replacement_of_mem hsel.get_unique hcouple]
  by_cases hvalue : g.getValueToSet c.2 = c.1
  · -- The getter's own value is stored, and the getter has kept it.
    have hphi := (hsel.get_inLoop _ hcouple).notMem_phis loop.header
    have hget := hrel.get _ hcouple (hall _ hcouple).1
    rw [replacement_of_mem hsel.get_unique hcouple, if_pos hvalue] at hget
    rw [if_pos hvalue, enter_env_of_notMem (old_mem_phis.not.mpr hphi), hget, hvalue]
  · have hphi : phi c.1 ∈ (loop.doLoadHoistStoreSink pairs lone exit).phis loop.header :=
      phi_mem_phis.mpr ⟨rfl, c, mem_filter.mpr ⟨hcouple, by simpa using hvalue⟩, rfl⟩
    rw [if_neg hvalue, enter_env_of_mem hphi]
    simp only [doLoadHoistStoreSink, if_neg hsrc, lookup_of_mem hsel.get_unique hcouple]
    refine hrel.env_replacement fun hget => ?_
    obtain ⟨other, hother, heq⟩ := mem_map.mp hget
    rw [← heq]
    exact (hall _ hother).1

/-- At the beginning of an iteration the phis hold the contents of their locations. -/
theorem related_header (henv : ∀ insn, insn ∉ pairs.map fst → state'.env (.old insn) = s.env insn)
    (hphi : ∀ c ∈ pairs, state'.env (g.replacement pairs c.1) =
      s.store.heap (loc c.1)) (hheap : ∀ place, place ∉ Sunk pairs lone loc →
      state'.store.heap place = s.store.heap place)
    (hsusp : state'.store.suspended = s.store.suspended)
    (hrequests : state'.store.requests = s.store.requests) :
    Related g pairs lone loc (Done g (g.code.phis loop.header) []) s state' := by
  have hnot : ∀ {insn}, InLoop loop insn → ¬ Done g (g.code.phis loop.header) [] insn := by
    rintro insn hinsn (hmem | hmem)
    · exact hinsn.notMem_phis _ hmem
    · exact not_mem_nil hmem
  have hget := fun c hcouple => hnot (hsel.get_inLoop c hcouple)
  have hset := fun c hcouple => hnot (hsel.set_inLoop c hcouple)
  have hlone := fun set hset => hnot (hsel.lone_inLoop set hset)
  exact
    { env := henv
      get := fun c hcouple hdone => absurd hdone (hget _ hcouple)
      before := fun c hcouple _ => hphi _ hcouple
      after := fun c hcouple hdone => absurd hdone (hset _ hcouple)
      after_fits := fun c hcouple hdone => absurd hdone (hset _ hcouple)
      after_location := fun c hcouple hdone => absurd hdone (hset _ hcouple)
      lone_value := fun set hset hdone => absurd hdone (hlone set hset)
      lone_location := fun set hset hdone => absurd hdone (hlone set hset)
      heap := hheap
      suspended := hsusp
      requests := hrequests }

end

end Enter

/-! ## From block to block -/

section Step

variable {exit b t : Fin blocks} {past : List (Fin blocks)}
  {s : Code.State (Fin insns) Value Store} {state' : Code.State (Target insns) Value Store}
  (hsel : Selection loop semantics start pairs lone loc)
  (hcur : loop.Iteration (b :: past))
  (hrel : Related g pairs lone loc
    (Done g (g.code.phis b ++ g.code.instructions b) past) s state')

include hcur in
/-- What a phi takes from the loop was executed in this iteration. -/
theorem phiInput_visited {phi : Fin insns} (hphi : phi ∈ g.code.phis t) (hedge : t ∈ g.code.succs b)
    (hbody : g.getBlock (g.code.phiInput phi b) ∈ loop.body) :
    g.getBlock (g.code.phiInput phi b) ∈ b :: past :=
  hcur.mem_of_dominates hbody (g.phi_operands_dominate _ phi hphi _ hedge)

include hsel hcur hrel

theorem related_enter_inside (hedge : t ∈ g.code.succs b)
    (hbody : t ∈ loop.body) (hheader : t ≠ loop.header) :
    Related g pairs lone loc (Done g (g.code.phis t) (b :: past)) (g.code.enter b t s)
      ((loop.doLoadHoistStoreSink pairs lone exit).enter b t state') := by
  have hvis := hrel.congr_done hsel fun insn hinsn => done_block_iff hinsn _ _
  have hnext : loop.Iteration (t :: b :: past) := .step hcur hedge hbody hheader
  refine (hvis.enter_of_ne hsel hheader ?_ ?_).congr_done hsel
    fun insn hinsn => done_phis_iff hinsn t (b :: past)
  · exact fun phi hphi => phiInput_visited hcur hphi hedge
  · intro user huser hmem operand hop hphi
    exact getBlock_operand_ne hnext hmem (huser.notMem_phis _) hop (getBlock_of_mem_phis hphi)

theorem related_enter_header (hedge : loop.header ∈ g.code.succs b) :
    Related g pairs lone loc (Done g (g.code.phis loop.header) []) (g.code.enter b loop.header s)
      ((loop.doLoadHoistStoreSink pairs lone exit).enter b loop.header state') := by
  have hvis := hrel.congr_done hsel fun insn hinsn => done_block_iff hinsn _ _
  have hbody := hcur.mem_body _ mem_cons_self
  have hsrc : b ≠ loop.preHeader := fun heq => loop.preHeader_notMem (heq ▸ hbody)
  -- Both parts of a couple are executed in every iteration.
  have hall : ∀ c ∈ pairs, Done g [] (b :: past) c.1 ∧ Done g [] (b :: past) c.2 := by
    intro c hcouple
    obtain ⟨hget, hdom⟩ := hsel.per_iteration _ hcouple
    have hmem := hcur.mem_of_dominates hget (hdom b ⟨hbody, hedge⟩)
    refine ⟨.inr hmem, .inr ?_⟩
    rw [hsel.same_block _ hcouple]
    exact hmem
  refine related_header hsel ?_ ?_ hvis.heap hvis.suspended hvis.requests
  · intro insn hinsn
    refine hvis.enter_env (fun phi hphi hget => ?_) hinsn
    obtain ⟨c, hcouple, heq⟩ := mem_map.mp hget
    rw [← heq]
    exact (hall _ hcouple).1
  · intro c hcouple
    exact hvis.enter_replacement_back hsel hall hsrc hcouple

omit hsel in
theorem next_eq (hgets : ∀ c ∈ pairs, g.getBlock c.1 ∈ loop.body)
    (hphi : g.code.terminator b ∉ g.code.phis b) :
    (loop.doLoadHoistStoreSink pairs lone exit).next semantics.targetMachine b state'.env =
      g.code.next semantics.machine b s.env := by
  have hsplit : g.code.instructionsOf b =
      (g.code.phis b ++ g.code.instructions b) ++ [g.code.terminator b] :=
    rfl
  have hargs : (loop.doLoadHoistStoreSink pairs lone exit).operands state'.env
      (.old (g.code.terminator b)) = g.code.operands s.env (g.code.terminator b) := by
    change ((g.code.inputs _).map (g.replacement pairs)).map state'.env = _
    rw [List.map_map]
    refine map_congr_left fun operand hop => hrel.env_replacement fun hget => ?_
    obtain ⟨c, hcouple, rfl⟩ := mem_map.mp hget
    exact done_operand hcur hsplit hphi hop (hgets _ hcouple)
  change (g.code.succs b)[semantics.branch _ ((loop.doLoadHoistStoreSink pairs lone
    exit).operands state'.env (.old (g.code.terminator b)))]? = _
  rw [hargs]
  rfl

end Step

theorem terminator_notMem_phis (b : Fin blocks) : g.code.terminator b ∉ g.code.phis b := by
  intro hmem
  have hsplit : g.code.instructionsOf b =
      (g.code.phis b ++ g.code.instructions b) ++ [g.code.terminator b] :=
    rfl
  exact notMem_before hsplit (mem_append_left _ hmem)

theorem arity_pos_of_isGet : {kind : Kind} → kind.isGet = true →
    0 < kind.arity ∧ (kind.isArray = true → 1 < kind.arity)
  | .instanceFieldGet _, _ | .staticFieldGet _, _ => ⟨Nat.zero_lt_succ _, nofun⟩
  | .arrayGet _, _ => ⟨Nat.zero_lt_succ _, fun _ => Nat.one_lt_succ_succ _⟩

section PreHeader

variable {exit : Fin blocks} (hsel : Selection loop semantics start pairs lone loc)

include hsel

variable {state' : Code.State (Target insns) Value Store}

/-- A hoisted getter finds the location of the original one. -/
theorem accessLocation_hoisted
    (henv : ∀ insn, insn ∉ pairs.map fst → state'.env (.old insn) = start.env insn)
    {c : Fin insns × Fin insns} (hcouple : c ∈ pairs) :
    (g.kind c.1).accessLocation ((loop.doLoadHoistStoreSink pairs lone exit).operands
      state'.env (.old c.1)) = some (loc c.1) := by
  obtain ⟨harity, harrayArity⟩ := arity_pos_of_isGet (hsel.get_isGet _ hcouple)
  obtain ⟨hbase, hindex⟩ := Bool.and_eq_true_iff.mp (hsel.get_invariant _ hcouple)
  have hinput : ∀ i, i < (g.kind c.1).arity → loop.contains (g.inputAt c.1 i) = false →
      ((loop.doLoadHoistStoreSink pairs lone exit).operands state'.env (.old c.1))[i]? =
        (g.code.operands start.env c.1)[i]? := by
    intro i hlt hcontains
    have hnot : g.inputAt c.1 i ∉ pairs.map fst := by
      intro hmem
      obtain ⟨other, hother, heq⟩ := mem_map.mp hmem
      have hbody := (hsel.get_inLoop _ hother).body
      rw [heq] at hbody
      simp [HLoopInformation.contains, hbody] at hcontains
    change (((g.code.inputs c.1).map (g.replacement pairs)).map state'.env)[i]? = _
    rw [getElem?_map, getElem?_map, operands, getElem?_map,
      getElem?_inputAt hlt, map_some, map_some, map_some,
      replacement_of_notMem hnot, henv _ hnot]
  rw [← hsel.get_start _ hcouple]
  exact accessLocation_congr (hinput 0 harity (by simpa using hbase))
    fun harray => hinput 1 (harrayArity harray) (by simpa [harray] using hindex)

/-- The getters can be executed at the end of the preheader. -/
theorem exists_steps_hoisted (gets : List (Fin insns))
    (hgets : ∀ get ∈ gets, get ∈ pairs.map fst) (hstore : state'.store = start.store)
    (henv : ∀ insn, insn ∉ pairs.map fst → state'.env (.old insn) = start.env insn) :
    ∃ after', (loop.doLoadHoistStoreSink pairs lone exit).steps semantics.targetMachine state'
        (gets.map .old) = some after' ∧
      after'.store = start.store ∧
      (∀ insn, insn ∉ pairs.map fst → after'.env (.old insn) = start.env insn) ∧
      ∀ get ∈ gets, after'.env (.old get) = start.store.heap (loc get) := by
  induction gets using reverseRecOn with
  | nil => exact ⟨state', rfl, hstore, henv, by simp⟩
  | append_singleton gets get ih =>
    obtain ⟨middle, hsteps, hmiddle, hsame, hvalues⟩ :=
      ih fun other hother => hgets other (mem_append_left _ hother)
    obtain ⟨c, hcouple, rfl⟩ := mem_map.mp (hgets get (by simp))
    have hstep : (loop.doLoadHoistStoreSink pairs lone exit).step semantics.targetMachine middle
        (.old c.1) = some (middle.assign (.old c.1)
            (some (start.store.heap (loc c.1)), start.store)) := by
      rw [step_eq_some]
      refine ⟨_, ?_, rfl⟩
      change semantics.execute (g.code.op c.1) _ _ = _
      rw [execute_of_isGet (hsel.get_isGet _ hcouple), hmiddle]
      change ((g.kind c.1).accessLocation _).map _ = _
      rw [accessLocation_hoisted hsel hsame hcouple, map_some]
    refine ⟨middle.assign (.old c.1)
      (some (start.store.heap (loc c.1)), start.store), ?_, rfl, ?_, ?_⟩
    · rw [map_append, steps_append, hsteps, bind_some, map_singleton, steps_singleton, hstep]
    · intro insn hinsn
      rw [← hsame _ hinsn]
      apply assign_env_of_ne
      intro heq
      exact hinsn (old.inj heq ▸ mem_map_of_mem hcouple)
    · intro get hget
      by_cases heq : get = c.1
      · subst heq
        exact Function.update_self _ _ _
      · have hmem : get ∈ gets := by simpa [heq] using hget
        rw [← hvalues get hmem]
        exact assign_env_of_ne _ fun hold => heq (old.inj hold)

/-- The loops start related after the hoisted getters. -/
theorem related_enter_preHeader (hstore : state'.store = start.store)
    (henv : ∀ insn, insn ∉ pairs.map fst → state'.env (.old insn) = start.env insn)
    (hvalues : ∀ c ∈ pairs, state'.env (.old c.1) = start.store.heap (loc c.1)) :
    Related g pairs lone loc (Done g (g.code.phis loop.header) [])
      (g.code.enter loop.preHeader loop.header start)
      ((loop.doLoadHoistStoreSink pairs lone exit).enter loop.preHeader loop.header state') := by
  refine related_header hsel ?_ ?_ ?_ ?_ ?_
  · intro insn hinsn
    by_cases hphi : insn ∈ g.code.phis loop.header
    · rw [enter_env_of_mem hphi, enter_env_of_mem (old_mem_phis.mpr hphi)]
      have hnot : g.code.phiInput insn loop.preHeader ∉ pairs.map fst := by
        intro hget
        obtain ⟨c, hcouple, heq⟩ := mem_map.mp hget
        apply loop.phiInput_preHeader_notMem hphi
        rw [← heq]
        exact (hsel.get_inLoop _ hcouple).body
      change state'.env (g.replacement pairs _) = _
      rw [replacement_of_notMem hnot, henv _ hnot]
    · rw [enter_env_of_notMem hphi, enter_env_of_notMem (old_mem_phis.not.mpr hphi)]
      exact henv _ hinsn
  · intro c hcouple
    change _ = start.store.heap _
    rw [replacement_of_mem hsel.get_unique hcouple, ← hvalues _ hcouple]
    split
    · have hphi := (hsel.get_inLoop _ hcouple).notMem_phis loop.header
      rw [enter_env_of_notMem (old_mem_phis.not.mpr hphi)]
    next hvalue =>
      have hphi : phi c.1 ∈ (loop.doLoadHoistStoreSink pairs lone exit).phis loop.header :=
        phi_mem_phis.mpr ⟨rfl, c, mem_filter.mpr ⟨hcouple, by simpa using hvalue⟩, rfl⟩
      rw [enter_env_of_mem hphi]
      simp only [doLoadHoistStoreSink, if_true]
  · intro place _
    change state'.store.heap place = start.store.heap place
    rw [hstore]
  · change state'.store.suspended = start.store.suspended
    rw [hstore]
  · change state'.store.requests = start.store.requests
    rw [hstore]

end PreHeader

section Run

variable {exit b : Fin blocks} (hsel : Selection loop semantics start pairs lone loc)
  {hoisted : Code.State (Target insns) Value Store}
  (hstore : hoisted.store = start.store)
  (henv : ∀ insn, insn ∉ pairs.map fst → hoisted.env (.old insn) = start.env insn)
  (hvalues : ∀ c ∈ pairs, hoisted.env (.old c.1) = start.store.heap (loc c.1))

variable (loop pairs lone exit) in
theorem rewritten_instructions (hblock : b ∈ loop.body) :
    (loop.doLoadHoistStoreSink pairs lone exit).instructions b =
      loop.rewrittenInsns pairs lone (g.code.instructions b) :=
  if_pos hblock

include hsel in
/-- One block of the run and the choice of the next one. -/
theorem exists_related_block {past : List (Fin blocks)}
    (hcur : loop.Iteration (b :: past)) {entered : Code.State (Fin insns) Value Store}
    {entered' : Code.State (Target insns) Value Store}
    (hrun : Code.LoopRun g.code semantics.machine loop.toNaturalLoop loop.preHeader start
      (b :: trail) entered)
    (hrel : Related g pairs lone loc (Done g (g.code.phis b) past) entered entered')
    (hsteps : g.code.steps semantics.machine entered (g.code.instructions b) = some after) :
    ∃ after', (loop.doLoadHoistStoreSink pairs lone exit).steps semantics.targetMachine entered'
        ((loop.doLoadHoistStoreSink pairs lone exit).instructions b) = some after' ∧
      (loop.doLoadHoistStoreSink pairs lone exit).next semantics.targetMachine b after'.env =
        g.code.next semantics.machine b after.env ∧
      Related g pairs lone loc
        (Done g (g.code.phis b ++ g.code.instructions b) past) after after' := by
  obtain ⟨after', hsteps', hafter⟩ :=
    exists_related_first _ hsel hcur hrun hrel (append_nil _).symm hsteps
  refine ⟨after', ?_, ?_, hafter⟩
  · rw [rewritten_instructions loop pairs lone exit (hcur.mem_body b mem_cons_self)]
    exact hsteps'
  · exact next_eq hcur hafter (fun c hcouple => (hsel.get_inLoop _ hcouple).body)
      (terminator_notMem_phis b)

include hsel hstore henv hvalues

/-- The rewritten loop runs along the same blocks as the original one. -/
theorem exists_related_run {path : List (Fin blocks)}
    (hrun : Code.LoopRun g.code semantics.machine loop.toNaturalLoop loop.preHeader start
      path s) : ∃ b past completed state', path = (b :: past) ++ completed ∧
      loop.Iteration (b :: past) ∧
      Code.LoopRun (loop.doLoadHoistStoreSink pairs lone exit) semantics.targetMachine
        loop.toNaturalLoop loop.preHeader hoisted path state' ∧
      Related g pairs lone loc (Done g (g.code.phis b) past) s state' := by
  induction hrun with
  | enter =>
    exact ⟨loop.header, [], [], _, rfl, .start, .enter,
      related_enter_preHeader hsel hstore henv hvalues⟩
  | @step b t trail s after hrun hsteps hnext hbody ih =>
    obtain ⟨_, past, completed, state', hpath, hcur, hrun', hrel⟩ := ih
    obtain ⟨rfl, htrail⟩ := cons.inj hpath
    obtain ⟨after', hsteps', hnext', hafter⟩ := exists_related_block hsel hcur hrun hrel hsteps
    have hedge := next_mem hnext
    rw [hnext] at hnext'
    have hstep' := Code.LoopRun.step hrun' hsteps' hnext' hbody
    by_cases hheader : t = loop.header
    · subst hheader
      exact ⟨loop.header, [], b :: trail, _, rfl, .start, hstep',
        related_enter_header hsel hcur hafter hedge⟩
    · refine ⟨t, b :: past, completed, _, ?_, .step hcur hedge hbody hheader, hstep',
        related_enter_inside hsel hcur hafter hedge hbody hheader⟩
      rw [htrail]
      rfl

end Run

section Exit

variable {exit : Fin blocks} (hsel : Selection loop semantics start pairs lone loc)

variable {b : Fin blocks} {past : List (Fin blocks)}

/-- An exit block does not dominate what was executed in the loop. -/
theorem not_dominates_of_exit (hcur : loop.Iteration (b :: past))
    (hedge : exit ∈ g.code.succs b) (hout : exit ∉ loop.body) {visited : Fin blocks}
    (hvis : visited ∈ b :: past) : ¬ g.flow.Dominates exit visited := by
  intro hdom
  obtain ⟨later, earlier, hsplit⟩ := append_of_mem hvis
  rw [hsplit] at hcur
  have hearly := hcur.drop_latest
  obtain ⟨before, htrace, hbefore⟩ := hearly.exists_trace
  rw [cons_append] at htrace
  have hblock := hcur.mem_body _ (by rw [← hsplit]; exact mem_cons_self)
  have hexit : exit ∈ before := by
    have hmem := hdom _ htrace
    exact (mem_append.mp hmem).resolve_left fun hmem => hout (hearly.mem_body _ hmem)
  -- Before the exit block the trace would have to be in the loop.
  obtain ⟨front, back, rfl⟩ := append_of_mem hexit
  have hcut : g.flow.Trace ((visited :: earlier ++ front) ++ exit :: back) := by
    simpa using htrace
  have hback := hcut.drop_latest
  cases back with
  | nil =>
    rw [hback.eq_entry] at hedge
    exact g.entry_notMem_succs _ hedge
  | cons src back =>
    have hsrc := loop.exit_predecessor _ hblock _ hedge hout _ hback.edge
    exact hbefore src (by simp) (hsrc ▸ hblock)

include hsel in
theorem related_enter_exit (hcur : loop.Iteration (b :: past)) (hrel : Related g pairs lone loc
      (Done g (g.code.phis b ++ g.code.instructions b) past) s state')
    (hedge : exit ∈ g.code.succs b) (hout : exit ∉ loop.body) :
    Related g pairs lone loc (Done g [] (b :: past)) (g.code.enter b exit s)
      ((loop.doLoadHoistStoreSink pairs lone exit).enter b exit state') := by
  have hvis := hrel.congr_done hsel fun insn hinsn => done_block_iff hinsn _ _
  have hheader : exit ≠ loop.header := fun heq => hout (heq ▸ loop.header_mem)
  refine hvis.enter_of_ne hsel hheader ?_ ?_
  · exact fun phi hphi => phiInput_visited hcur hphi hedge
  · intro user huser hvis operand hop hphi
    have hblock := getBlock_of_mem_phis hphi
    have hdom := g.operands_dominate _ (huser.notMem_phis _) _ hop
    rw [hblock] at hdom
    exact not_dominates_of_exit hcur hedge hout hvis hdom

variable (loop semantics lone exit) in
/-- The sunk setters bring their locations up to date. -/
theorem exists_steps_sunk
    (henv : ∀ insn, state'.env (g.replacement pairs insn) = s.env insn)
    (sets : List (Fin insns)) (hsets : ∀ set ∈ sets, (g.kind set).isSet ∧
      ∃ place, g.locationAt s.env set = some place ∧
        narrow (g.kind set).accessType (s.env (g.getValueToSet set)) = s.store.heap place) :
    ∃ store', (loop.doLoadHoistStoreSink pairs lone exit).steps semantics.targetMachine state'
        (sets.map .old) = some ⟨state'.env, store'⟩ ∧
      store'.suspended = state'.store.suspended ∧ store'.requests = state'.store.requests ∧
      ∀ other, state'.store.heap other = s.store.heap other ∨
          (∃ set ∈ sets, g.locationAt s.env set = some other) →
        store'.heap other = s.store.heap other := by
  induction sets using reverseRecOn with
  | nil =>
    refine ⟨state'.store, rfl, rfl, rfl, ?_⟩
    rintro other (hsame | ⟨set, hset, -⟩)
    · exact hsame
    · cases hset
  | append_singleton sets set ih =>
    obtain ⟨store, hsteps, hsusp, hrequests, hheap⟩ :=
      ih fun other hother => hsets other (mem_append_left _ hother)
    obtain ⟨hset, place, hplace, hvalue⟩ := hsets set (by simp)
    have hargs : (loop.doLoadHoistStoreSink pairs lone exit).operands state'.env (.old set) =
        g.code.operands s.env set := by
      change ((g.code.inputs set).map (g.replacement pairs)).map state'.env = _
      rw [List.map_map]
      exact map_congr_left fun operand _ => henv _
    have hexec : semantics.execute (g.code.op set) (g.code.operands s.env set)
        store = some (none, store.write place (s.store.heap place)) := by
      rw [execute_of_isSet hset]
      change (g.locationAt s.env set).bind _ = _
      have hstored : (g.code.operands s.env set)[(g.code.op set).kind.valueIndex]? =
          some (s.env (g.getValueToSet set)) := by
        rw [operands, getElem?_map]
        exact congrArg (Option.map s.env) (getElem?_value hset)
      rw [hplace, bind_some, hstored, map_some, ← hvalue]
      rfl
    have hstep : (loop.doLoadHoistStoreSink pairs lone exit).step semantics.targetMachine
        ⟨state'.env, store⟩ (.old set) =
          some ⟨state'.env, store.write place (s.store.heap place)⟩ := by
      rw [step_eq_some]
      refine ⟨(none, store.write place (s.store.heap place)), ?_, rfl⟩
      rw [hargs]
      exact hexec
    refine ⟨store.write place (s.store.heap place), ?_, hsusp, hrequests, ?_⟩
    · rw [map_append, steps_append, hsteps, bind_some, map_singleton, steps_singleton, hstep]
    · intro other hother
      rw [Store.write_heap]
      split
      next heq => rw [heq]
      next hne =>
        refine hheap other (hother.imp id ?_)
        rintro ⟨last, hlast, hother⟩
        rcases mem_append.mp hlast with hmem | hmem
        · exact ⟨last, hmem, hother⟩
        · rw [mem_singleton.mp hmem, hplace] at hother
          exact absurd (some.inj hother).symm hne

variable {hoisted : Code.State (Target insns) Value Store} (hstore : hoisted.store = start.store)
  (henv : ∀ insn, insn ∉ pairs.map fst → hoisted.env (.old insn) = start.env insn)
  (hvalues : ∀ c ∈ pairs, hoisted.env (.old c.1) = start.store.heap (loc c.1))

include hsel hstore henv hvalues

/-- At the exit the heap and the values are those of the original loop. -/
theorem exists_leavesLoop (hdom : ∀ set, set ∈ pairs.map snd ∨ set ∈ lone →
      g.flow.Dominates (g.getBlock set) exit)
    (hleaves : Code.LeavesLoop g.code semantics.machine loop.toNaturalLoop loop.preHeader start
      trail b exit after) :
    ∃ after' final', Code.LeavesLoop (loop.doLoadHoistStoreSink pairs lone exit)
        semantics.targetMachine loop.toNaturalLoop loop.preHeader hoisted trail b exit after' ∧
      (loop.doLoadHoistStoreSink pairs lone exit).steps semantics.targetMachine
        ((loop.doLoadHoistStoreSink pairs lone exit).enter b exit after')
        (sunkSets pairs lone) = some final' ∧
      final'.store = after.store ∧
      ∀ insn, final'.env (g.replacement pairs insn) = (g.code.enter b exit after).env insn := by
  obtain ⟨⟨s, hrun, hsteps⟩, hnext, hout⟩ := hleaves
  obtain ⟨_, past, completed, state', hpath, hcur, hrun', hrel⟩ :=
    exists_related_run hsel hstore henv hvalues hrun
  obtain ⟨rfl, htrail⟩ := cons.inj hpath
  obtain ⟨after', hsteps', hnext', hafter⟩ := exists_related_block hsel hcur hrun hrel hsteps
  have hedge := next_mem hnext
  have hentered := related_enter_exit hsel hcur hafter hedge hout
  -- All setters were executed in the last iteration.
  have hdone : ∀ set, set ∈ pairs.map snd ∨ set ∈ lone → InLoop loop set →
      Done g [] (b :: past) set :=
    fun set hset hinLoop =>
      .inr (hcur.mem_of_dominates_exit hinLoop.body hedge hout (hdom set hset))
  have hcouple : ∀ c ∈ pairs, Done g [] (b :: past) c.2 :=
    fun c hmem => hdone _ (.inl (mem_map_of_mem hmem)) (hsel.set_inLoop _ hmem)
  have hlone : ∀ set ∈ lone, Done g [] (b :: past) set :=
    fun set hmem => hdone _ (.inr hmem) (hsel.lone_inLoop set hmem)
  have hreplaced : ∀ insn, ((loop.doLoadHoistStoreSink pairs lone exit).enter b exit after').env
      (g.replacement pairs insn) = (g.code.enter b exit after).env insn := by
    refine fun insn => hentered.env_replacement fun hget => ?_
    obtain ⟨c, hmem, rfl⟩ := mem_map.mp hget
    refine .inr ?_
    rw [← hsel.same_block _ hmem]
    exact (hcouple _ hmem).resolve_left not_mem_nil
  obtain ⟨store', hsunk, hsusp, hrequests, hheap⟩ := exists_steps_sunk _ _ _ _ hreplaced
    (pairs.map snd ++ lone).reverse (by
      intro set hset
      rcases mem_append.mp (mem_reverse.mp hset) with hmem | hmem
      · obtain ⟨c, hpair, rfl⟩ := mem_map.mp hmem
        refine ⟨hsel.set_isSet _ hpair, loc c.1,
          hentered.after_location _ hpair (hcouple _ hpair), ?_⟩
        rw [hentered.after_fits _ hpair (hcouple _ hpair)]
        exact hentered.after _ hpair (hcouple _ hpair)
      · exact ⟨hsel.lone_isSet set hmem, loc set, hentered.lone_location set hmem (hlone set hmem),
          hentered.lone_value set hmem (hlone set hmem)⟩)
  refine ⟨after', ⟨_, store'⟩, ⟨⟨state', hrun', hsteps'⟩, hnext'.trans hnext, hout⟩, ?_, ?_,
    hreplaced⟩
  · rw [sunkSets, ← map_reverse]
    exact hsunk
  · have hplaces : store'.heap = after.store.heap := by
      funext place
      apply hheap _
      by_cases hplace : place ∈ Sunk pairs lone loc
      · right
        rcases hplace with ⟨c, hmem, rfl⟩ | ⟨set, hmem, rfl⟩
        · refine ⟨c.2, ?_, hentered.after_location _ hmem (hcouple _ hmem)⟩
          exact mem_reverse.mpr (mem_append_left _ (mem_map_of_mem hmem))
        · refine ⟨set, ?_, hentered.lone_location set hmem (hlone set hmem)⟩
          exact mem_reverse.mpr (mem_append_right _ hmem)
      · exact .inl (hentered.heap _ hplace)
    calc store' = ⟨store'.heap, store'.suspended, store'.requests⟩ := rfl
      _ = ⟨after.store.heap, after.store.suspended, after.store.requests⟩ := by
        rw [hplaces, hsusp.trans hentered.suspended, hrequests.trans hentered.requests]
        rfl

end Exit

end NougatArt.LoadHoist
