import NougatArt.Heap.LoadHoistLoop

/-!
# What load hoisting and store sinking selects

`FindLoadStoreCouples` asks the alias check about every instruction of the loop
with side effects. When the answers are right, the loop is left, and the moved
setters have addresses that can be moved, the selection is one that the rewritten
loop can be run with.
-/

namespace NougatArt.LoadHoist

open List Option Nat Bool HLoopInformation HGraph Code

open Heap

variable {blocks insns : ℕ} {graph : HGraph blocks insns} {loop : HLoopInformation graph}
  {aliasOf : Fin insns → Fin insns → AliasKind} {semantics : Semantics}
  {start : Code.State (Fin insns) Value Store} {pairs : List (Fin insns × Fin insns)}
  {lone : List (Fin insns)} {exit : Fin blocks}

variable (loop aliasOf semantics start) in
/-- The answers of the alias check about the accesses of invariant addresses hold in
the runs of the loop. -/
structure AliasIsSound : Prop where
  no_alias : ∀ first second, aliasOf first second = .noAlias →
    first ∈ loop.accesses ∨ second ∈ loop.accesses →
    ∀ state state', loop.Executes semantics start state first →
      loop.Executes semantics start state' second →
      Disjoint (graph.touchesAt semantics state first) (graph.touchesAt semantics state' second)
  must_alias : ∀ set access, aliasOf set access = .mustAlias → (graph.kind set).isSet = true →
    access ∈ loop.accesses → ∀ state, loop.Executes semantics start state set →
      graph.locationAt state.env set = graph.locationAt start.env access

variable (loop semantics start pairs lone) in
/-- The couples and setters can be moved: a setter whose address is computed in the
loop comes after its getter and needs no copy in a suspend block, the stored values
fit their fields, and no instruction that the pass takes to be without effect on the
heap accesses a location of the couples and setters. -/
structure Movable : Prop where
  address : ∀ couple ∈ pairs, loop.invariantAddress couple.2 = true ∨ loop.suspendPoint = none ∧
      (graph.code.instructionsOf (graph.getBlock couple.1)).idxOf couple.1 <
        (graph.code.instructionsOf (graph.getBlock couple.1)).idxOf couple.2
  fits : ∀ couple ∈ pairs, ∀ state, loop.Executes semantics start state couple.2 →
    narrow (graph.kind couple.2).accessType (state.env (graph.getValueToSet couple.2)) =
      state.env (graph.getValueToSet couple.2)
  unseen : ∀ insn, insn ∉ loop.hasSideEffects → ∀ state, loop.Executes semantics start state insn →
      ∀ access, access ∈ pairs.map Prod.fst ∨ access ∈ lone →
        ∀ place, graph.locationAt start.env access = some place →
          place ∉ graph.touchesAt semantics state insn

/-! ## The search for the setter of a getter -/

variable {get set : Fin insns} {effects : List (Fin insns)}

theorem findSet_some {found : Fin insns}
    (hfind : graph.findSet aliasOf get (some set) effects = some found) :
    found = set ∧ ∀ other ∈ effects, other ≠ get → aliasOf other get = .noAlias := by
  induction effects with
  | nil =>
    cases hfind
    exact ⟨rfl, by simp⟩
  | cons sideEffect effects ih =>
    rw [findSet] at hfind
    split at hfind
    next heq =>
      obtain ⟨hfound, hrest⟩ := ih hfind
      refine ⟨hfound, fun other hother hne => ?_⟩
      exact hrest _ ((mem_cons.mp hother).resolve_left fun h => hne (h.trans heq)) hne
    split at hfind
    · simp at hfind
    split at hfind
    · cases hfind
    next hno =>
      obtain ⟨hfound, hrest⟩ := ih hfind
      refine ⟨hfound, fun other hother hne => ?_⟩
      rcases mem_cons.mp hother with rfl | hmem
      · exact not_not.mp hno
      · exact hrest _ hmem hne

variable (graph aliasOf get set) in
/-- The setter that is found must alias the getter, and nothing else may. -/
structure FoundSet (effects : List (Fin insns)) : Prop where
  mem : set ∈ effects
  isSet : (graph.kind set).isSet = true
  must_alias : aliasOf set get = .mustAlias
  no_alias : ∀ other ∈ effects, other ≠ get → other ≠ set → aliasOf other get = .noAlias

theorem foundSet (hfind : graph.findSet aliasOf get none effects = some set) :
    FoundSet graph aliasOf get set effects := by
  induction effects with
  | nil => cases hfind
  | cons sideEffect effects ih =>
    rw [findSet] at hfind
    split at hfind
    next heq =>
      have hfound := ih hfind
      refine ⟨mem_cons_of_mem _ hfound.mem, hfound.isSet, hfound.must_alias, ?_⟩
      intro other hother hne
      exact hfound.no_alias _ ((mem_cons.mp hother).resolve_left fun h => hne (h.trans heq)) hne
    split at hfind
    next hmust =>
      obtain ⟨rfl, hrest⟩ := findSet_some hfind
      refine ⟨mem_cons_self, hmust.2, hmust.1, fun other hother hne hset => ?_⟩
      exact hrest _ ((mem_cons.mp hother).resolve_left hset) hne
    split at hfind
    · cases hfind
    next hno =>
      have hfound := ih hfind
      refine ⟨mem_cons_of_mem _ hfound.mem, hfound.isSet, hfound.must_alias, ?_⟩
      intro other hother hne hset
      rcases mem_cons.mp hother with rfl | hmem
      · exact not_not.mp hno
      · exact hfound.no_alias _ hmem hne hset

/-! ## The instructions of the loop -/

variable {insn first second access : Fin insns} {list : List (Fin insns)}
  {s : Code.State (Fin insns) Value Store}

theorem mem_insnsInLoop : insn ∈ loop.insnsInLoop ↔ graph.getBlock insn ∈ loop.body ∧
      insn ∈ graph.code.instructions (graph.getBlock insn) ++
        [graph.code.terminator (graph.getBlock insn)] := by
  simp only [insnsInLoop, mem_flatMap, NaturalLoop.mem_vertexList]
  constructor
  · rintro ⟨b, hbody, hmem⟩
    have hblock : graph.getBlock insn = b := by
      rw [← graph.mem_iff, instructionsOf, append_assoc]
      exact mem_append_right _ hmem
    rw [hblock]
    exact ⟨hbody, hmem⟩
  · exact fun h => ⟨graph.getBlock insn, h.1, h.2⟩

theorem inLoop_of_access (hinsn : insn ∈ loop.insnsInLoop)
    (haccess : ((graph.kind insn).isGet || (graph.kind insn).isSet)) : InLoop loop insn := by
  obtain ⟨hbody, hmem⟩ := mem_insnsInLoop.mp hinsn
  refine ⟨hbody, (mem_append.mp hmem).resolve_right fun hterminator => ?_⟩
  have hno := graph.terminator_noAccess (graph.getBlock insn)
  rw [← mem_singleton.mp hterminator] at hno
  exact absurd haccess (by rw [kind, hno]; exact false_ne_true)

theorem mem_accesses : insn ∈ loop.accesses ↔ insn ∈ loop.insnsInLoop ∧
      ((graph.kind insn).isGet || (graph.kind insn).isSet) ∧ loop.invariantAddress insn := by
  rw [accesses, mem_filter, and_eq_true]

theorem mem_hasSideEffects_of_access (hinsn : insn ∈ loop.accesses) :
    insn ∈ loop.hasSideEffects := by
  obtain ⟨hloop, haccess, -⟩ := mem_accesses.mp hinsn
  rw [HLoopInformation.hasSideEffects, List.mem_filter, haccess, Bool.true_or]
  exact ⟨hloop, rfl⟩

theorem nodup_insnsInLoop : loop.insnsInLoop.Nodup := by
  rw [insnsInLoop, nodup_flatMap]
  constructor
  · intro b _
    have hnodup := graph.nodup b
    rw [instructionsOf, append_assoc] at hnodup
    exact (nodup_append.mp hnodup).2.1
  · refine ((nodup_finRange blocks).filter _).imp fun hne insn hfirst hsnd => hne ?_
    have hblock : ∀ b, insn ∈ graph.code.instructions b ++ [graph.code.terminator b] →
        graph.getBlock insn = b := by
      intro b hmem
      rw [← graph.mem_iff, instructionsOf, append_assoc]
      exact mem_append_right _ hmem
    rw [← hblock _ hfirst, hblock _ hsnd]

/-! ## The order of a couple -/

theorem idxOf_lt_of_sublist (hnodup : list.Nodup) (hsublist : [first, second].Sublist list) :
    list.idxOf first < list.idxOf second := by
  obtain ⟨front, back, rfl, hfirst, hrest⟩ := cons_sublist_iff.mp hsublist
  have hsnd : second ∈ back := singleton_sublist.mp hrest
  have hnot : second ∉ front := fun hmem => (nodup_append.mp hnodup).2.2 second hmem _ hsnd rfl
  rw [idxOf_append_of_mem hfirst, idxOf_append_of_notMem hnot]
  exact lt_of_lt_of_le (idxOf_lt_length_of_mem hfirst) (le_add_right _ _)

theorem sublist_of_idxOf_lt (hsnd : second ∈ list) (hlt : list.idxOf first < list.idxOf second) :
    [first, second].Sublist list := by
  have hfirst : first ∈ list := idxOf_lt_length_iff.mp (hlt.trans (idxOf_lt_length_of_mem hsnd))
  obtain ⟨front, back, rfl, hnot⟩ := eq_append_cons_of_mem hfirst
  rw [idxOf_append_of_notMem hnot, idxOf_cons_self] at hlt
  have hback : second ∈ back := by
    rcases mem_append.mp hsnd with hmem | hmem
    · rw [idxOf_append_of_mem hmem] at hlt
      exact absurd (idxOf_lt_length_of_mem hmem) (not_lt.mpr hlt.le)
    · refine (mem_cons.mp hmem).resolve_left ?_
      rintro rfl
      rw [idxOf_append_of_notMem hnot, idxOf_cons_self] at hlt
      exact lt_irrefl _ hlt
  exact ((singleton_sublist.mpr hback).cons_cons first).trans (sublist_append_right _ _)

/-- The indices of accesses in one block are in the order of the block. -/
theorem idxOf_lt_of_toIdx_le (hget : get ∈ loop.accesses) (hset : set ∈ loop.accesses)
    (hne : get ≠ set) (hblock : graph.getBlock set = graph.getBlock get)
    (hle : loop.toIdx get ≤ loop.toIdx set) :
    (graph.code.instructionsOf (graph.getBlock get)).idxOf get <
      (graph.code.instructionsOf (graph.getBlock get)).idxOf set := by
  obtain ⟨hgetLoop, hgetAccess, hgetAddress⟩ := mem_accesses.mp hget
  obtain ⟨hsetLoop, hsetAccess, hsetAddress⟩ := mem_accesses.mp hset
  have hgetIn := inLoop_of_access hgetLoop hgetAccess
  have hsetIn := inLoop_of_access hsetLoop hsetAccess
  obtain ⟨hbody, hgetMem⟩ := mem_insnsInLoop.mp hgetLoop
  obtain ⟨-, hsetMem⟩ := mem_insnsInLoop.mp hsetLoop
  rw [hblock] at hsetMem
  rw [instructionsOf, append_assoc, idxOf_append_of_notMem (hgetIn.notMem_phis _),
    idxOf_append_of_notMem (hsetIn.notMem_phis _), add_lt_add_iff_left]
  by_contra hnot
  -- Otherwise the setter is before the getter in the list of accesses as well.
  have hlt : (graph.code.instructions (graph.getBlock get) ++
      [graph.code.terminator (graph.getBlock get)]).idxOf set <
        (graph.code.instructions (graph.getBlock get) ++
          [graph.code.terminator (graph.getBlock get)]).idxOf get :=
    lt_of_le_of_ne (not_lt.mp hnot) fun heq => hne ((idxOf_inj hsetMem).mp heq).symm
  have hinBlock := sublist_of_idxOf_lt hgetMem hlt
  have hinLoop : [set, get].Sublist loop.insnsInLoop := by
    refine hinBlock.trans (sublist_flatten_of_mem (mem_map.mpr ⟨_, ?_, rfl⟩))
    exact NaturalLoop.mem_vertexList.mpr hbody
  have hfiltered := hinLoop.filter fun insn =>
    ((graph.kind insn).isGet || (graph.kind insn).isSet) && loop.invariantAddress insn
  rw [filter_cons_of_pos (by simp [hsetAccess, hsetAddress]),
    filter_cons_of_pos (by simp [hgetAccess, hgetAddress]), filter_nil] at hfiltered
  have hidx := idxOf_lt_of_sublist (nodup_insnsInLoop.filter _) hfiltered
  rw [toIdx, toIdx, if_pos hget, if_pos hset] at hle
  exact absurd hidx (not_lt.mpr hle)

/-! ## The selected couples and setters -/

theorem of_coupleIsValid (hvalid : loop.coupleIsValid exit get set) :
    loop.toIdx get ≤ loop.toIdx set ∧ graph.getBlock get = graph.getBlock set ∧
      loop.executedPerIteration (graph.getBlock get) ∧
      graph.flow.Dominates (graph.getBlock get) exit := by
  simp only [coupleIsValid] at hvalid
  split_ifs at hvalid with hidx hblock hiteration hdom
  exact ⟨not_lt.mp hidx, not_not.mp hblock, by simpa using hiteration, hdom⟩

theorem of_setIsValid (hvalid : loop.setIsValid aliasOf exit set) :
    graph.flow.Dominates (graph.getBlock set) exit ∧
      ∀ sideEffect ∈ loop.hasSideEffects, sideEffect ≠ set → aliasOf set sideEffect = .noAlias := by
  simp only [setIsValid] at hvalid
  split_ifs at hvalid with hdom hbase hindex hvalue
  refine ⟨hdom, fun sideEffect hmem hne => ?_⟩
  have hall := all_eq_true.mp (and_eq_true_iff.mp hvalid).1 sideEffect hmem
  simpa [hne.symm] using hall

theorem perIteration_of_executedPerIteration {b : Fin blocks}
    (hblock : loop.executedPerIteration b) : loop.PerIteration b := by
  simp only [executedPerIteration, and_eq_true, decide_eq_true_eq,
    List.all_eq_true, NaturalLoop.mem_backEdgeList] at hblock
  exact hblock

variable (loop aliasOf exit) in
structure SelectedCouple (couple : Fin insns × Fin insns) : Prop where
  access : couple.1 ∈ loop.accesses
  isGet : (graph.kind couple.1).isGet = true
  find : graph.findSet aliasOf couple.1 none loop.hasSideEffects = some couple.2
  valid : loop.coupleIsValid exit couple.1 couple.2 = true

variable (loop aliasOf exit set) in
structure SelectedSet : Prop where
  access : set ∈ loop.accesses
  isSet : (graph.kind set).isSet = true
  notMem : set ∉ (loop.couples aliasOf).map Prod.snd
  valid : loop.setIsValid aliasOf exit set = true

theorem of_findLoadStoreCouples
    (hfind : loop.findLoadStoreCouples aliasOf exit = some (pairs, lone)) :
    (∀ c ∈ pairs, c ∈ loop.couples aliasOf ∧ SelectedCouple loop aliasOf exit c) ∧
      ∀ set ∈ lone, SelectedSet loop aliasOf exit set := by
  simp only [findLoadStoreCouples] at hfind
  split_ifs at hfind
  cases hfind
  constructor
  · intro c hcouple
    obtain ⟨hmem, hvalid⟩ := mem_filter.mp hcouple
    refine ⟨hmem, ?_⟩
    obtain ⟨get, hget, hset⟩ := mem_filterMap.mp hmem
    obtain ⟨haccess, hisGet⟩ := mem_filter.mp hget
    obtain ⟨set, hfound, rfl⟩ := map_eq_some_iff.mp hset
    exact ⟨haccess, hisGet, hfound, hvalid⟩
  · intro set hset
    obtain ⟨hmem, hvalid⟩ := mem_filter.mp hset
    obtain ⟨hsets, hnot⟩ := mem_filter.mp hmem
    obtain ⟨haccess, hisSet⟩ := mem_filter.mp hsets
    exact ⟨haccess, hisSet, by simpa using hnot, hvalid⟩

section Couple

variable {c : Fin insns × Fin insns} (hcouple : SelectedCouple loop aliasOf exit c)

include hcouple

theorem SelectedCouple.foundSet : FoundSet graph aliasOf c.1 c.2 loop.hasSideEffects :=
  LoadHoist.foundSet hcouple.find

theorem SelectedCouple.get_inLoop : InLoop loop c.1 := by
  obtain ⟨hmem, haccess, -⟩ := mem_accesses.mp hcouple.access
  exact inLoop_of_access hmem haccess

theorem SelectedCouple.set_mem_insnsInLoop : c.2 ∈ loop.insnsInLoop :=
  (mem_filter.mp hcouple.foundSet.mem).1

theorem SelectedCouple.set_inLoop : InLoop loop c.2 :=
  inLoop_of_access hcouple.set_mem_insnsInLoop (by rw [hcouple.foundSet.isSet, Bool.or_true])

theorem SelectedCouple.same_block : graph.getBlock c.2 = graph.getBlock c.1 :=
  (of_coupleIsValid hcouple.valid).2.1.symm

theorem SelectedCouple.dominates : graph.flow.Dominates (graph.getBlock c.1) exit :=
  (of_coupleIsValid hcouple.valid).2.2.2

theorem SelectedCouple.get_ne_set : c.1 ≠ c.2 := by
  intro heq
  refine not_isSet_of_isGet hcouple.isGet ?_
  rw [heq]
  exact hcouple.foundSet.isSet

/-- A setter of an invariant address comes after its getter. -/
theorem SelectedCouple.ordered (hinv : loop.invariantAddress c.2) :
    (graph.code.instructionsOf (graph.getBlock c.1)).idxOf c.1 <
      (graph.code.instructionsOf (graph.getBlock c.1)).idxOf c.2 := by
  have hset : c.2 ∈ loop.accesses := mem_accesses.mpr ⟨hcouple.set_mem_insnsInLoop,
      by rw [hcouple.foundSet.isSet, Bool.or_true], hinv⟩
  exact idxOf_lt_of_toIdx_le hcouple.access hset hcouple.get_ne_set hcouple.same_block
    (of_coupleIsValid hcouple.valid).1

end Couple

/-! ## The locations in a run -/

theorem locationAt_of_mem_accesses {user : Fin insns} (haccess : access ∈ loop.accesses)
    (hexec : loop.Executes semantics start s user) :
    graph.locationAt s.env access = graph.locationAt start.env access := by
  obtain ⟨-, hisAccess, hinv⟩ := mem_accesses.mp haccess
  obtain ⟨hbase, hindex⟩ := and_eq_true_iff.mp hinv
  obtain ⟨harity, harrayArity⟩ :=
    (or_eq_true_iff.mp hisAccess).elim arity_pos_of_isGet arity_pos_of_isSet
  have hinput : ∀ i, i < (graph.kind access).arity →
      loop.contains (graph.inputAt access i) = false →
      (graph.code.operands s.env access)[i]? = (graph.code.operands start.env access)[i]? := by
    intro i hlt hcontains
    rw [operands, operands, getElem?_map, getElem?_map, getElem?_inputAt hlt, map_some, map_some,
      env_of_outside (by simpa [HLoopInformation.contains] using hcontains) hexec]
  exact accessLocation_congr (hinput 0 harity (by simpa using hbase))
    fun harray => hinput 1 (harrayArity harray) (by simpa [harray] using hindex)

theorem exists_locationAt (haccess : ((graph.kind insn).isGet || (graph.kind insn).isSet))
    {next : Code.State (Fin insns) Value Store}
    (hstep : graph.code.step semantics.machine s insn = some next) :
    ∃ place, graph.locationAt s.env insn = some place := by
  obtain ⟨result, hexecute, -⟩ := step_eq_some.mp hstep
  change semantics.execute _ _ _ = _ at hexecute
  by_cases hget : (graph.kind insn).isGet = true
  · rw [Semantics.execute_of_isGet hget, map_eq_some_iff] at hexecute
    exact ⟨hexecute.choose, hexecute.choose_spec.1⟩
  · have hset : (graph.kind insn).isSet = true := by simpa [hget] using haccess
    rw [Semantics.execute_of_isSet hset, bind_eq_some_iff] at hexecute
    exact ⟨hexecute.choose, hexecute.choose_spec.1⟩

variable (graph start insn) in
/-- The location that an access of an invariant address has in the whole loop. -/
def accessed : Location := (graph.locationAt start.env insn).getD (.field .null 0)

section Leaves

variable {trail : List (Fin blocks)} {b : Fin blocks}
  {after : Code.State (Fin insns) Value Store}
  (hleaves : Code.LeavesLoop graph.code semantics.machine loop.toNaturalLoop loop.preHeader start
    trail b exit after)

include hleaves

/-- Accesses in blocks that dominate the exit are executed. -/
theorem exists_executes (hinsn : InLoop loop insn)
    (hdom : graph.flow.Dominates (graph.getBlock insn) exit) :
    ∃ s next, loop.Executes semantics start s insn ∧
      graph.code.step semantics.machine s insn = some next :=
  hleaves.executes (fun _ _ hedge => hedge) hinsn.body hdom hinsn.mem

theorem locationAt_accessed (haccess : access ∈ loop.accesses)
    (hdom : graph.flow.Dominates (graph.getBlock access) exit) :
    graph.locationAt start.env access = some (accessed graph start access) := by
  obtain ⟨hmem, hisAccess, -⟩ := mem_accesses.mp haccess
  obtain ⟨s, next, hexec, hstep⟩ := exists_executes hleaves (inLoop_of_access hmem hisAccess) hdom
  obtain ⟨place, hplace⟩ := exists_locationAt hisAccess hstep
  rw [locationAt_of_mem_accesses haccess hexec] at hplace
  rw [accessed, hplace]
  rfl

variable (hsound : AliasIsSound loop aliasOf semantics start)

include hsound in
/-- The setter of a couple goes to the location of the getter. -/
theorem SelectedCouple.set_location {c : Fin insns × Fin insns}
    (hcouple : SelectedCouple loop aliasOf exit c) (hexec : loop.Executes semantics start s c.2) :
    graph.locationAt s.env c.2 = some (accessed graph start c.1) := by
  rw [hsound.must_alias _ _ hcouple.foundSet.must_alias hcouple.foundSet.isSet hcouple.access
    _ hexec]
  exact locationAt_accessed hleaves hcouple.access hcouple.dominates

/-- What does not alias an access does not touch its location. -/
theorem accessed_notMem_touchesAt (haccess : access ∈ loop.accesses)
    (hdom : graph.flow.Dominates (graph.getBlock access) exit)
    (hdisj : ∀ state', loop.Executes semantics start state' access →
      Disjoint (graph.touchesAt semantics state' access) (graph.touchesAt semantics s insn)) :
    accessed graph start access ∉ graph.touchesAt semantics s insn := by
  obtain ⟨hmem, hisAccess, -⟩ := mem_accesses.mp haccess
  obtain ⟨state', -, hexec, -⟩ := exists_executes hleaves (inLoop_of_access hmem hisAccess) hdom
  refine Set.disjoint_left.mp (hdisj _ hexec) (mem_touchesAt hisAccess ?_)
  rw [locationAt_of_mem_accesses haccess hexec]
  exact locationAt_accessed hleaves haccess hdom

include hsound

theorem set_unique {c couple' : Fin insns × Fin insns}
    (hcouple : SelectedCouple loop aliasOf exit c)
    (hcouple' : SelectedCouple loop aliasOf exit couple') (heq : c.2 = couple'.2) :
    c.1 = couple'.1 := by
  by_contra hne
  have hno :=
    hcouple.foundSet.no_alias _ (mem_hasSideEffects_of_access hcouple'.access) (Ne.symm hne)
      (heq ▸ hcouple'.get_ne_set)
  obtain ⟨s, -, hexec, -⟩ := exists_executes hleaves hcouple'.get_inLoop hcouple'.dominates
  have hset : graph.flow.Dominates (graph.getBlock c.2) exit := by
    rw [hcouple.same_block]
    exact hcouple.dominates
  obtain ⟨setState, -, hsetExecutes, -⟩ := exists_executes hleaves hcouple.set_inLoop hset
  -- The common setter would give both getters the same location.
  have hsame : accessed graph start c.1 = accessed graph start couple'.1 := by
    have hfirst := hcouple.set_location hleaves hsound hsetExecutes
    rw [heq] at hfirst hsetExecutes
    rw [hcouple'.set_location hleaves hsound hsetExecutes] at hfirst
    exact (some.inj hfirst).symm
  refine accessed_notMem_touchesAt hleaves hcouple.access hcouple.dominates
    (fun state' hexec' => (hsound.no_alias _ _ hno (.inl hcouple'.access) _ _ hexec hexec').symm) ?_
  rw [hsame]
  obtain ⟨-, hisAccess, -⟩ := mem_accesses.mp hcouple'.access
  refine mem_touchesAt hisAccess ?_
  rw [locationAt_of_mem_accesses hcouple'.access hexec]
  exact locationAt_accessed hleaves hcouple'.access hcouple'.dominates

/-- The selection is one that the rewritten loop can be run with. -/
theorem selection (hpairs : ∀ c ∈ pairs,
      c ∈ loop.couples aliasOf ∧ SelectedCouple loop aliasOf exit c)
    (hlone : ∀ set ∈ lone, SelectedSet loop aliasOf exit set)
    (hmovable : Movable loop semantics start pairs lone) :
    Selection loop semantics start pairs lone (accessed graph start) where
  get_isGet c hcouple := (hpairs c hcouple).2.isGet
  set_isSet c hcouple := (hpairs c hcouple).2.foundSet.isSet
  lone_isSet set hset := (hlone set hset).isSet
  get_inLoop c hcouple := (hpairs c hcouple).2.get_inLoop
  set_inLoop c hcouple := (hpairs c hcouple).2.set_inLoop
  lone_inLoop set hset := by
    obtain ⟨hmem, hisAccess, -⟩ := mem_accesses.mp (hlone set hset).access
    exact inLoop_of_access hmem hisAccess
  same_block c hcouple := (hpairs c hcouple).2.same_block
  ordered c hcouple := (hmovable.address c hcouple).elim (hpairs c hcouple).2.ordered And.right
  per_iteration c hcouple :=
    perIteration_of_executedPerIteration (of_coupleIsValid (hpairs c hcouple).2.valid).2.2.1
  get_unique c hcouple couple' hcouple' heq := by
    have hfind := (hpairs c hcouple).2.find
    rw [heq, (hpairs couple' hcouple').2.find] at hfind
    exact Prod.ext heq (some.inj hfind).symm
  set_unique c hcouple couple' hcouple' heq :=
    Prod.ext (set_unique hleaves hsound (hpairs c hcouple).2 (hpairs couple' hcouple').2 heq) heq
  lone_ne set hset c hcouple heq := by
    apply (hlone set hset).notMem
    rw [← heq]
    exact mem_map_of_mem (hpairs c hcouple).1
  get_start c hcouple :=
    locationAt_accessed hleaves (hpairs c hcouple).2.access (hpairs c hcouple).2.dominates
  get_location c hcouple s hexec := by
    rw [locationAt_of_mem_accesses (hpairs c hcouple).2.access hexec]
    exact locationAt_accessed hleaves (hpairs c hcouple).2.access (hpairs c hcouple).2.dominates
  set_location c hcouple s hexec := (hpairs c hcouple).2.set_location hleaves hsound hexec
  lone_location set hset s hexec := by
    rw [locationAt_of_mem_accesses (hlone set hset).access hexec]
    exact locationAt_accessed hleaves (hlone set hset).access
      (of_setIsValid (hlone set hset).valid).1
  couple_apart c hcouple insn s hexec hget hset := by
    have hselected := (hpairs _ hcouple).2
    by_cases heffect : insn ∈ loop.hasSideEffects
    · exact accessed_notMem_touchesAt hleaves hselected.access hselected.dominates
        fun state' hexec' => (hsound.no_alias _ _
          (hselected.foundSet.no_alias _ heffect hget hset) (.inr hselected.access)
          _ _ hexec hexec').symm
    · exact hmovable.unseen insn heffect s hexec c.1 (.inl (mem_map_of_mem hcouple)) _
        (locationAt_accessed hleaves hselected.access hselected.dominates)
  lone_apart set hset insn s hexec hne := by
    have hselected := hlone set hset
    obtain ⟨hdom, hno⟩ := of_setIsValid hselected.valid
    by_cases heffect : insn ∈ loop.hasSideEffects
    · exact accessed_notMem_touchesAt hleaves hselected.access hdom
        fun state' hexec' => hsound.no_alias _ _ (hno insn heffect hne)
          (.inl hselected.access) state' s hexec' hexec
    · exact hmovable.unseen insn heffect s hexec set (.inr hset) _
        (locationAt_accessed hleaves hselected.access hdom)
  set_executes c hcouple := by
    have hselected := (hpairs c hcouple).2
    have hdom := hselected.dominates
    rw [← hselected.same_block] at hdom
    obtain ⟨s, -, hexec, -⟩ := exists_executes hleaves hselected.set_inLoop hdom
    exact ⟨s, hexec⟩
  lone_executes set hset := by
    obtain ⟨hmem, hisAccess, -⟩ := mem_accesses.mp (hlone set hset).access
    obtain ⟨s, -, hexec, -⟩ := exists_executes hleaves (inLoop_of_access hmem hisAccess)
      (of_setIsValid (hlone set hset).valid).1
    exact ⟨s, hexec⟩
  get_invariant c hcouple := (mem_accesses.mp (hpairs c hcouple).2.access).2.2
  set_invariant c hcouple hsusp := by
    refine (hmovable.address c hcouple).resolve_right fun hnone => ?_
    rw [hnone.1] at hsusp
    cases hsusp
  lone_invariant set hset := (mem_accesses.mp (hlone set hset).access).2.2
  fits := hmovable.fits

end Leaves

end NougatArt.LoadHoist
