import NougatArt.Core.ParentChain

/-!
# Common dominators

This is `CommonDominator`: the chain of the deeper block is shortened until both have
the same length, then both are walked up until they meet. The walks end if the chains
of both blocks end in the same block.
-/

namespace NougatArt.Graphs

open List Option Nat

variable {V : Type} [DecidableEq V] (dominator : V → Option V)

def chainLength : ℕ → Option V → Option ℕ
  | _, none => some 0
  | 0, some _ => none
  | fuel + 1, some block => (chainLength fuel (dominator block)).map (· + 1)

/-- So many calls of `GetDominator`. -/
def climb : ℕ → V → Option V
  | 0, block => some block
  | steps + 1, block => (dominator block).bind (climb steps)

/-- The last loop of `Update`. -/
def meet : ℕ → V → V → Option V
  | 0, block, block2 => if block = block2 then some block else none
  | fuel + 1, block, block2 =>
    if block = block2 then
      some block
    else
      match dominator block, dominator block2 with
      | some next, some next2 => meet fuel next next2
      | _, _ => none

def forPair (fuel : ℕ) (block1 block2 : V) : Option V := do
  let chainLength2 ← chainLength dominator fuel (some block1)
  if block2 = block1 then
    return block1
  let chainLength ← chainLength dominator fuel (some block2)
  let next ← climb dominator (chainLength - chainLength2) block2
  let next2 ← climb dominator (chainLength2 - chainLength) block1
  meet dominator fuel next next2

variable {dominator}

theorem meet_self (fuel : ℕ) (b : V) : meet dominator fuel b b = some b := by
  cases fuel <;> rw [meet, if_pos rfl]

variable {b block2 shared : V} {chain chain2 : List V} {fuel : ℕ}

section

variable (hchain : ParentChain dominator b chain)

include hchain

omit [DecidableEq V] in
theorem chainLength_eq (hfuel : chain.length ≤ fuel) :
    chainLength dominator fuel (some b) = some chain.length := by
  induction hchain generalizing fuel with
  | root hnone =>
    obtain ⟨fuel, rfl⟩ : ∃ rest, fuel = rest + 1 := ⟨fuel - 1, by simp at hfuel; omega⟩
    rw [chainLength, hnone, chainLength.eq_def]
    rfl
  | step hsome _ ih =>
    obtain ⟨fuel, rfl⟩ : ∃ rest, fuel = rest + 1 := ⟨fuel - 1, by simp at hfuel; omega⟩
    rw [chainLength, hsome, ih (le_of_succ_le_succ hfuel)]
    rfl

omit [DecidableEq V] in
/-- The block after so many steps that its chain has the given length. -/
theorem exists_climb {left : ℕ} (hpos : 0 < left) (hleft : left ≤ chain.length) :
    ∃ next back, climb dominator (chain.length - left) b = some next ∧
      ParentChain dominator next back ∧ back.length = left ∧ next ∈ chain := by
  induction hchain with
  | @root b hnone =>
    rw [length_singleton] at hleft ⊢
    rw [show 1 - left = 0 by omega]
    exact ⟨b, [b], rfl, .root hnone, by simp; omega, mem_cons_self⟩
  | @step b next rest hsome hrest ih =>
    by_cases hall : left = rest.length + 1
    · rw [List.length_cons, ← hall, Nat.sub_self]
      exact ⟨b, b :: rest, rfl, .step hsome hrest, by rw [length_cons, hall], mem_cons_self⟩
    · rw [length_cons] at hleft
      obtain ⟨last, back, hclimb, hback, hlen, hmem⟩ := ih (by omega)
      refine ⟨last, back, ?_, hback, hlen, mem_cons_of_mem _ hmem⟩
      rw [length_cons, show rest.length + 1 - left = rest.length - left + 1 by omega, climb, hsome]
      exact hclimb

/-- Two walks from the same height meet in the nearest common block. -/
theorem exists_meet (hchain2 : ParentChain dominator block2 chain2)
    (hlen : chain.length = chain2.length) (hshared : shared ∈ chain) (hshared2 : shared ∈ chain2)
    (hfuel : chain.length ≤ fuel) : ∃ found common, meet dominator fuel b block2 = some found ∧
      ParentChain dominator found common ∧
      ∀ other, other ∈ common ↔ other ∈ chain ∧ other ∈ chain2 := by
  induction hchain generalizing block2 chain2 fuel with
  | @root b hnone =>
    obtain rfl := mem_singleton.mp hshared
    obtain rfl := hchain2.eq_of_length hshared2 (.root hnone) hlen
    refine ⟨shared, [shared], meet_self _ _, .root hnone, fun other => ?_⟩
    rw [hchain2.unique (.root hnone), and_self]
  | @step b next rest hsome hrest ih =>
    by_cases heq : b = block2
    · subst heq
      refine ⟨b, b :: rest, meet_self _ _, .step hsome hrest, fun other => ?_⟩
      rw [hchain2.unique (.step hsome hrest), and_self]
    -- The blocks are at the same height, so that none is on the chain of the other.
    have hnot : b ∉ chain2 := fun hmem => heq (hchain2.eq_of_length hmem (.step hsome hrest) hlen)
    have hnot2 : block2 ∉ b :: rest := fun hmem =>
      heq ((ParentChain.step hsome hrest).eq_of_length hmem hchain2 hlen.symm).symm
    have hsharedRest : shared ∈ rest :=
      (mem_cons.mp hshared).resolve_left fun hsame => hnot (hsame ▸ hshared2)
    cases hchain2 with
    | root hnone =>
      rw [mem_singleton] at hshared2
      exact absurd (hshared2 ▸ hshared) hnot2
    | @step _ next2 rest2 hsome2 hrest2 =>
      have hsharedRest2 : shared ∈ rest2 :=
        (mem_cons.mp hshared2).resolve_left fun hsame => hnot2 (hsame ▸ hshared)
      obtain ⟨fuel, rfl⟩ : ∃ left, fuel = left + 1 :=
        ⟨fuel - 1, by rw [length_cons] at hfuel; omega⟩
      obtain ⟨found, common, hfound, hcommon, hiff⟩ := ih hrest2
        (succ.inj hlen) hsharedRest hsharedRest2 (le_of_succ_le_succ hfuel)
      refine ⟨found, common, ?_, hcommon, fun other => ?_⟩
      · rw [meet, if_neg heq, hsome, hsome2]
        exact hfound
      · rw [hiff]
        constructor
        · exact fun hboth => ⟨mem_cons_of_mem _ hboth.1, mem_cons_of_mem _ hboth.2⟩
        · intro hboth
          exact ⟨(mem_cons.mp hboth.1).resolve_left fun hsame => hnot (hsame ▸ hboth.2),
            (mem_cons.mp hboth.2).resolve_left fun hsame => hnot2 (hsame ▸ hboth.1)⟩

end

/-- The common dominator of two blocks is the nearest one. -/
theorem exists_forPair {block1 : V} {chain1 : List V}
    (hchain1 : ParentChain dominator block1 chain1) (hchain2 : ParentChain dominator block2 chain2)
    (hshared1 : shared ∈ chain1) (hshared2 : shared ∈ chain2) (hfuel1 : chain1.length ≤ fuel)
    (hfuel2 : chain2.length ≤ fuel) :
    ∃ found common, forPair dominator fuel block1 block2 = some found ∧
      ParentChain dominator found common ∧
      ∀ other, other ∈ common ↔ other ∈ chain1 ∧ other ∈ chain2 := by
  rw [forPair, chainLength_eq hchain1 hfuel1]
  by_cases heq : block2 = block1
  · subst heq
    refine ⟨block2, chain1, ?_, hchain1, fun other => ?_⟩
    · rw [bind_eq_bind, bind_some, if_pos rfl]
      rfl
    · rw [hchain2.unique hchain1, and_self]
  have hpos : 0 < min chain1.length chain2.length :=
    lt_min (length_pos_of_mem hshared1) (length_pos_of_mem hshared2)
  obtain ⟨next2, back2, hclimb2, hback2, hlength2, hmem2⟩ :=
    exists_climb hchain2 hpos (min_le_right _ _)
  obtain ⟨next1, back1, hclimb1, hback1, hlength1, hmem1⟩ :=
    exists_climb hchain1 hpos (min_le_left _ _)
  -- What is on both chains is on the parts of equal length.
  have hboth : ∀ other, other ∈ back2 ∧ other ∈ back1 ↔ other ∈ chain1 ∧ other ∈ chain2 := by
    intro other
    constructor
    · exact fun hmem => ⟨hchain1.subset_of_mem hmem1 hback1 hmem.2,
        hchain2.subset_of_mem hmem2 hback2 hmem.1⟩
    · rintro ⟨hother1, hother2⟩
      obtain ⟨front, back, -, hback⟩ := hchain1.exists_suffix hother1
      have hshort : back.length ≤ min chain1.length chain2.length :=
        le_min (hchain1.length_le_of_mem hother1 hback) (hchain2.length_le_of_mem hother2 hback)
      exact ⟨hchain2.mem_of_length_le hmem2 hback2 hother2 hback (hlength2 ▸ hshort),
        hchain1.mem_of_length_le hmem1 hback1 hother1 hback (hlength1 ▸ hshort)⟩
  obtain ⟨hsharedBack2, hsharedBack1⟩ := (hboth shared).mpr ⟨hshared1, hshared2⟩
  obtain ⟨found, common, hfound, hcommon, hiff⟩ := exists_meet hback2 hback1
    (hlength2.trans hlength1.symm) hsharedBack2 hsharedBack1
    (show back2.length ≤ fuel by omega)
  refine ⟨found, common, ?_, hcommon, fun other => (hiff other).trans (hboth other)⟩
  rw [show chain2.length - min chain1.length chain2.length = chain2.length - chain1.length by
    omega] at hclimb2
  rw [show chain1.length - min chain1.length chain2.length = chain1.length - chain2.length by
    omega] at hclimb1
  simp only [bind_eq_bind, bind_some, if_neg heq, chainLength_eq hchain2 hfuel2,
    hclimb2, hclimb1, hfound]

end NougatArt.Graphs
