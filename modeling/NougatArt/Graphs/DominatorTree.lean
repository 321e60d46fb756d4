import NougatArt.Graphs.CommonDominator
import NougatArt.Core.FlowGraph

/-!
# Trees of dominators

`UpdateDominatorOfSuccessor` moves the dominator of a block up to its common dominator
with a predecessor. The blocks that dominate a block of the graph stay on its chain.
Once no edge moves a dominator any more, the dominator of every block is its immediate
dominator.
-/

namespace NougatArt.Graphs

open List Option Function

variable {count : ℕ} {b ancestor found : Fin count} {g : FlowGraph (Fin count)}

abbrev Dominators (count : ℕ) := Fin count → Option (Fin count)

/-- `UpdateDominatorOfSuccessor`, with whether the dominator changed. -/
def updateDominatorOfSuccessor (fuel : ℕ) (dominator : Dominators count)
    (block successor : Fin count) : Option (Bool × Dominators count) :=
  match dominator successor with
  | none => some (true, update dominator successor (some block))
  | some oldDominator => (forPair dominator fuel oldDominator block).map fun newDominator =>
      if oldDominator = newDominator then
        (false, dominator)
      else
        (true, update dominator successor (some newDominator))

def IsAncestor (dominator : Dominators count) (ancestor block : Fin count) : Prop :=
  ∃ chain, ParentChain dominator block chain ∧ ancestor ∈ chain

/-- The dominator of the end of an edge is on the chain of its start. -/
def Settled (dominator : Dominators count) (block successor : Fin count) : Prop :=
  ∃ found, dominator successor = some found ∧ IsAncestor dominator found block

/-- The dominators of the blocks that were visited form a tree, and the blocks that dominate a
block dominate the one that was found for it. -/
structure DominatorTree (graph : FlowGraph (Fin count)) (dominator : Dominators count)
    (visited : List (Fin count)) : Prop where
  root : dominator graph.entry = none
  chain : ∀ block ∈ visited, ∃ chain, ParentChain dominator block chain ∧
    graph.entry ∈ chain ∧ chain ⊆ visited
  some_mem : ∀ block found, dominator block = some found → found ∈ visited
  strict : ∀ block found, dominator block = some found → ∀ other, other ≠ block →
    graph.Dominates other block → graph.Dominates other found

namespace DominatorTree

variable {other : Fin count}
variable {g : FlowGraph (Fin count)} {dom : Dominators count}
  {visited chain : List (Fin count)} (htree : DominatorTree g dom visited)

theorem dominates_entry (hdom : g.Dominates other g.entry) : other = g.entry :=
  mem_singleton.mp (hdom [] .entry)

include htree

/-- The blocks that dominate a block are on its chain. -/
theorem mem_of_dominates (hchain : ParentChain dom b chain) (hentry : g.entry ∈ chain)
    (hdom : g.Dominates other b) : other ∈ chain := by
  induction hchain with
  | root _ =>
    obtain rfl := mem_singleton.mp hentry
    exact mem_singleton.mpr (dominates_entry hdom)
  | @step b next rest hsome hrest ih =>
    by_cases heq : other = b
    · exact heq ▸ mem_cons_self
    · have hne : g.entry ≠ b := by
        rintro rfl
        rw [htree.root] at hsome
        cases hsome
      exact mem_cons_of_mem _ (ih ((mem_cons.mp hentry).resolve_left hne)
        (htree.strict b next hsome other heq hdom))

/-- A block that dominates the start of a chain dominates what is below it on the chain. -/
theorem dominates_of_mem {above : List (Fin count)}
    (hchain : ParentChain dom b chain) (hancestor : ancestor ∈ chain)
    (habove : ParentChain dom ancestor above) (hother : other ∈ above)
    (hdom : g.Dominates other b) : g.Dominates other ancestor := by
  induction hchain with
  | root _ =>
    obtain rfl := mem_singleton.mp hancestor
    exact hdom
  | @step b next rest hsome hrest ih =>
    rcases mem_cons.mp hancestor with rfl | hlater
    · exact hdom
    · have hne : other ≠ b := by
        rintro rfl
        have hnodup := (ParentChain.step hsome hrest).nodup
        exact (nodup_cons.mp hnodup).1 (hrest.subset_of_mem hlater habove hother)
      exact ih hlater (htree.strict b next hsome other hne hdom)

/-- The dominator that an update finds for the successor of a block. -/
structure IsUpdate (dominator : Dominators count) (visited : List (Fin count))
    (block successor found : Fin count) : Prop where
  mem : found ∈ visited
  ancestor : IsAncestor dominator found block
  fresh : dominator successor = none → found = block
  common : ∀ old, dominator successor = some old →
    ∃ chain chainOld chainBlock, ParentChain dominator found chain ∧
      ParentChain dominator old chainOld ∧ ParentChain dominator block chainBlock ∧
      ∀ other, other ∈ chain ↔ other ∈ chainOld ∧ other ∈ chainBlock

theorem exists_update {fuel : ℕ} (hfuel : count ≤ fuel) (hblock : b ∈ visited) (succ : Fin count) :
    ∃ found, updateDominatorOfSuccessor fuel dom b succ =
        some (decide (dom succ ≠ some found), update dom succ (some found)) ∧
      IsUpdate dom visited b succ found := by
  obtain ⟨chainBlock, hchainBlock, hentryBlock, hsubset⟩ := htree.chain _ hblock
  rw [updateDominatorOfSuccessor]
  cases hold : dom succ with
  | none =>
    refine ⟨b, by simp, hblock, ⟨chainBlock, hchainBlock, hchainBlock.head_mem⟩,
      fun _ => rfl, fun old hsome => ?_⟩
    rw [hold] at hsome
    cases hsome
  | some old =>
    obtain ⟨chainOld, hchainOld, hentryOld, hsubsetOld⟩ :=
      htree.chain old (htree.some_mem _ old hold)
    have hlen : ∀ {start : Fin count} {chain : List (Fin count)},
        ParentChain dom start chain → chain.length ≤ fuel := fun hchain =>
      hchain.length_le_card.trans ((Fintype.card_fin count).le.trans hfuel)
    obtain ⟨found, common, hfound, hcommon, hiff⟩ := exists_forPair hchainOld hchainBlock hentryOld
      hentryBlock (hlen hchainOld) (hlen hchainBlock)
    have hmem := (hiff found).mp hcommon.head_mem
    refine ⟨found, ?_, hsubset hmem.2, ⟨chainBlock, hchainBlock, hmem.2⟩, fun hnone => ?_,
      fun other hother => ?_⟩
    · dsimp only
      rw [hfound]
      by_cases heq : old = found
      · subst heq
        have hself : update dom succ (some old) = dom := by
          rw [← hold, update_eq_self]
        simp [hself]
      · simp [heq]
    · rw [hold] at hnone
      cases hnone
    · obtain rfl := some.inj (hold.symm.trans hother)
      exact ⟨common, chainOld, chainBlock, hcommon, hchainOld, hchainBlock, hiff⟩

section Update

variable {succ start : Fin count} (hupdate : IsUpdate dom visited b succ found)

theorem exists_old (hsucc : succ ∈ visited) (hne : succ ≠ g.entry) :
    ∃ old, dom succ = some old := by
  obtain ⟨chain, hchain, hentry, -⟩ := htree.chain _ hsucc
  cases hchain with
  | root _ => exact absurd (mem_singleton.mp hentry).symm hne
  | step hsome _ => exact ⟨_, hsome⟩

include hupdate

/-- The new dominator of a block is above the old one. -/
theorem exists_above (hsucc : succ ∈ visited) (hne : succ ≠ g.entry) :
    ∃ old chainOld above, dom succ = some old ∧ ParentChain dom old chainOld ∧
      ParentChain dom found above ∧ g.entry ∈ above ∧ above ⊆ chainOld ∧ succ ∉ chainOld := by
  obtain ⟨old, hold⟩ := htree.exists_old hsucc hne
  obtain ⟨above, chainOld, chainBlock, habove, hchainOld, -, hiff⟩ := hupdate.common old hold
  obtain ⟨chain, hchain, hentry, -⟩ := htree.chain _ hupdate.mem
  exact ⟨old, chainOld, above, hold, hchainOld, habove, habove.unique hchain ▸ hentry,
    fun other hother => ((hiff other).mp hother).1,
    (nodup_cons.mp (ParentChain.step hold hchainOld).nodup).1⟩

/-- An update only removes blocks from the chains. -/
theorem exists_chain_update (hne : succ ≠ g.entry) (hstart : start ∈ visited)
    (hchain : ParentChain dom start chain) :
    ∃ chain', ParentChain (update dom succ (some found)) start chain' ∧
      g.entry ∈ chain' ∧ chain' ⊆ chain ∧ (found ∈ chain → found ∈ chain') := by
  obtain ⟨chain', hchain', hentry, hsubset⟩ := htree.chain _ hstart
  obtain rfl := hchain'.unique hchain
  by_cases hmem : succ ∈ chain'
  · obtain ⟨old, chainOld, above, hold, hchainOld, habove, hentry', hless, hnot⟩ :=
      htree.exists_above hupdate (hsubset hmem) hne
    obtain ⟨front, hnew, back, hback⟩ :=
      hchain.update_of_mem hmem habove fun hmem' => hnot (hless hmem')
    refine ⟨_, hnew, mem_append_right _ (mem_cons_of_mem _ hentry'), ?_,
      fun _ => mem_append_right _ (mem_cons_of_mem _ habove.head_mem)⟩
    have htail := hchain.subset_of_mem hmem (.step hold hchainOld)
    intro other hother
    rcases mem_append.mp hother with hfront | hlater
    · rw [hback]
      exact mem_append_left _ hfront
    · exact htail (cons_subset_cons _ hless hlater)
  · exact ⟨chain', hchain.update_of_notMem hmem _, hentry, List.Subset.refl _, id⟩

theorem update (hblock : b ∈ visited) (hedge : succ ∈ g.succs b) (hne : succ ≠ g.entry) :
    DominatorTree g (update dom succ (some found)) visited := by
  refine ⟨?_, fun start hstart => ?_, fun start v hvalue => ?_,
    fun start v hvalue other hother hdom => ?_⟩
  · rw [update_of_ne hne.symm, htree.root]
  · obtain ⟨chain, hchain, -, hsubset⟩ := htree.chain _ hstart
    obtain ⟨chain', hchain', hentry, hsubset', -⟩ :=
      htree.exists_chain_update hupdate hne hstart hchain
    exact ⟨chain', hchain', hentry, List.Subset.trans hsubset' hsubset⟩
  · by_cases heq : start = succ
    · subst heq
      rw [update_self] at hvalue
      exact some.inj hvalue ▸ hupdate.mem
    · rw [update_of_ne heq] at hvalue
      exact htree.some_mem _ _ hvalue
  · by_cases heq : start = succ
    · subst heq
      rw [update_self] at hvalue
      cases hvalue
      have hpred := hdom.of_edge hother hedge
      rcases hold : dom start with _ | old
      · exact hupdate.fresh hold ▸ hpred
      -- What dominates the block is on both chains, so it is on that of the new dominator.
      obtain ⟨above, chainOld, chainBlock, habove, hchainOld, hchainBlock, hiff⟩ :=
        hupdate.common old hold
      have hdominatesOld := htree.strict _ old hold _ hother hdom
      have hmem : ∀ {vertex : Fin count} {chain : List (Fin count)}, vertex ∈ visited →
          ParentChain dom vertex chain → g.Dominates other vertex →
          other ∈ chain := by
        intro vertex chain hvertex hchain hvertexDominates
        obtain ⟨chain', hchain', hentry, -⟩ := htree.chain _ hvertex
        exact htree.mem_of_dominates hchain (hchain'.unique hchain ▸ hentry) hvertexDominates
      have habove' := (hiff other).mpr ⟨hmem (htree.some_mem _ old hold) hchainOld hdominatesOld,
          hmem hblock hchainBlock hpred⟩
      exact htree.dominates_of_mem hchainBlock ((hiff found).mp habove.head_mem).2 habove
        habove' hpred
    · rw [update_of_ne heq] at hvalue
      exact htree.strict _ _ hvalue _ hother hdom

/-- A block stays on the chains that it is on after an update. -/
theorem isAncestor_of_update (hne : succ ≠ g.entry) (hstart : start ∈ visited)
    (hancestor : IsAncestor (Function.update dom succ (some found)) ancestor start) :
    IsAncestor dom ancestor start := by
  obtain ⟨chain, hchain, -, -⟩ := htree.chain _ hstart
  obtain ⟨chain', hchain', -, hsubset, -⟩ := htree.exists_chain_update hupdate hne hstart hchain
  obtain ⟨chain'', hchain'', hmem⟩ := hancestor
  exact ⟨chain, hchain, hsubset (hchain'.unique hchain'' ▸ hmem)⟩

theorem settled_update (hne : succ ≠ g.entry) (hblock : b ∈ visited) :
    Settled (Function.update dom succ (some found)) b succ := by
  refine ⟨found, update_self _ _ _, ?_⟩
  obtain ⟨chain, hchain, hfound⟩ := hupdate.ancestor
  obtain ⟨chain', hchain', -, -, hkeeps⟩ := htree.exists_chain_update hupdate hne hblock hchain
  exact ⟨chain', hchain', hkeeps hfound⟩

omit htree in
/-- The dominator does not change if the end of the edge is above its start. -/
theorem eq_old_of_isAncestor {old : Fin count} (hold : dom succ = some old)
    (hancestor : IsAncestor dom succ b) : found = old := by
  obtain ⟨above, chainOld, chainBlock, habove, hchainOld, hchainBlock, hiff⟩ :=
    hupdate.common old hold
  obtain ⟨chain, hchain, hmem⟩ := hancestor
  obtain rfl := hchain.unique hchainBlock
  have hsubset := hchain.subset_of_mem hmem (.step hold hchainOld)
  have hmemOld : old ∈ above := (hiff old).mpr
    ⟨hchainOld.head_mem, hsubset (mem_cons_of_mem _ hchainOld.head_mem)⟩
  have hfound := ((hiff found).mp habove.head_mem).1
  exact hchainOld.eq_of_length hfound habove
    (Nat.le_antisymm (hchainOld.length_le_of_mem hfound habove)
      (habove.length_le_of_mem hmemOld hchainOld))

/-- The update of a block that was not visited leaves the settled edges settled. -/
theorem settled_of_notMem (hsucc : succ ∉ visited) {next : Fin count}
    (hstart : start ∈ visited) (hsettled : Settled dom start next) :
    Settled (Function.update dom succ (some found)) start next := by
  obtain ⟨old, hold, chain, hchain, hmem⟩ := hsettled
  obtain ⟨chain', hchain', -, hsubset⟩ := htree.chain _ hstart
  obtain rfl := hchain'.unique hchain
  have hnew := hchain.update_of_notMem (fun hother => hsucc (hsubset hother)) (some found)
  by_cases heq : next = succ
  · subst heq
    obtain ⟨above, chainOld, chainBlock, habove, hchainOld, -, hiff⟩ := hupdate.common old hold
    have hfound := ((hiff found).mp habove.head_mem).1
    exact ⟨found, update_self _ _ _, chain', hnew, hchain.subset_of_mem hmem hchainOld hfound⟩
  · exact ⟨old, by rw [update_of_ne heq, hold], chain', hnew, hmem⟩

end Update

theorem push (hfound : dom b = some found) : DominatorTree g dom (visited ++ [b]) := by
  refine ⟨htree.root, fun start hstart => ?_, fun start v hvalue =>
    mem_append_left _ (htree.some_mem _ _ hvalue), htree.strict⟩
  rcases mem_append.mp hstart with hvis | hnew
  · obtain ⟨chain, hchain, hentry, hsubset⟩ := htree.chain _ hvis
    exact ⟨chain, hchain, hentry, List.Subset.trans hsubset (subset_append_left _ _)⟩
  · obtain rfl := mem_singleton.mp hnew
    obtain ⟨chain, hchain, hentry, hsubset⟩ := htree.chain found (htree.some_mem _ _ hfound)
    refine ⟨start :: chain, .step hfound hchain, mem_cons_of_mem _ hentry, ?_⟩
    exact cons_subset.mpr ⟨hstart, List.Subset.trans hsubset (subset_append_left _ _)⟩

end DominatorTree

/-- The immediate dominator is the strict dominator that all strict dominators dominate. -/
def IsImmediateDominator (graph : FlowGraph (Fin count)) (dominator block : Fin count) : Prop :=
  (graph.Dominates dominator block ∧ dominator ≠ block) ∧
    ∀ other, graph.Dominates other block → other ≠ block → graph.Dominates other dominator

/-- The blocks on a chain dominate its start once all edges are settled. -/
theorem dominates_of_settled {dom : Dominators count} (hroot : dom g.entry = none)
    (hsettled : ∀ b succ, succ ∈ g.succs b → Settled dom b succ)
    (hancestor : IsAncestor dom ancestor b) : g.Dominates ancestor b := by
  intro past htrace
  generalize hlist : b :: past = list at htrace
  induction htrace generalizing b past ancestor with
  | entry =>
    cases hlist
    obtain ⟨chain, hchain, hmem⟩ := hancestor
    rwa [hchain.unique (.root hroot)] at hmem
  | @step src t past' _ hedge ih =>
    obtain ⟨rfl, rfl⟩ := cons.inj hlist
    obtain ⟨found, hfound, chainSource, hchainSource, hmem⟩ := hsettled _ _ hedge
    obtain ⟨chain, hchain, hancestor⟩ := hancestor
    cases hchain with
    | root hnone =>
      rw [hnone] at hfound
      cases hfound
    | step hsome hrest =>
      obtain rfl := some.inj (hsome.symm.trans hfound)
      rcases mem_cons.mp hancestor with rfl | hlater
      · exact mem_cons_self
      · exact mem_cons_of_mem _
          (ih ⟨chainSource, hchainSource, hchainSource.subset_of_mem hmem hrest hlater⟩ past' rfl)

/-- The dominators of a tree are immediate once all edges are settled. -/
theorem isImmediateDominator_of_settled {dom : Dominators count} {visited : List (Fin count)}
    (htree : DominatorTree g dom visited)
    (hsettled : ∀ b succ, succ ∈ g.succs b → Settled dom b succ)
    (hfound : dom b = some found) : IsImmediateDominator g found b := by
  obtain ⟨chain, hchain, -, -⟩ := htree.chain _ (htree.some_mem _ _ hfound)
  have hstep := ParentChain.step hfound hchain
  refine ⟨⟨dominates_of_settled htree.root hsettled ⟨_, hstep,
    mem_cons_of_mem _ hchain.head_mem⟩, ?_⟩, fun other hdom hne =>
      htree.strict _ _ hfound _ hne hdom⟩
  rintro rfl
  exact (nodup_cons.mp hstep.nodup).1 hchain.head_mem

end NougatArt.Graphs
