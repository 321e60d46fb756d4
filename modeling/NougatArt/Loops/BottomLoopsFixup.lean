import NougatArt.Core.OptionFold
import NougatArt.Loops.BottomLoops

/-!
# When the fixups are defined

The fixup of a phi of the header depends on its input from the back edge only, so
the maps hold the same fixups whatever the order of the uses. A fixup is missing
exactly when a phi takes a class load or an elided conversion of the header, or
another phi for which this is so.
-/

namespace NougatArt.BottomLoops

open List Function Prod HLoopInformation SsaGraph

variable {blocks insns : ℕ} {graph : HGraph blocks insns} {loop : HLoopInformation graph}
  {first second : FBLContext insns}

namespace HLoopInformation

variable (loop)

def fixupOf (phi : Fin insns) : Target insns :=
  let input := loop.phiInput phi loop.backBlock
  match loop.getInstructionPosition input with
  | .header => .headerFixup .inside input
  | .phi => .interlaceFixup .inside input
  | .clone | .exit | .backEdge => .old input

/-- A phi of the header takes an instruction of the header that is not cloned, from the back edge
or through other phis of the header. -/
inductive TakesOwnClone : Fin insns → Prop
  | here {phi : Fin insns} :
      loop.getInstructionPosition (loop.phiInput phi loop.backBlock) = .header →
      loop.phiInput phi loop.backBlock ∉ loop.cloned → TakesOwnClone phi
  | there {phi : Fin insns} : loop.phiInput phi loop.backBlock ∈ loop.headerPhis →
      TakesOwnClone (loop.phiInput phi loop.backBlock) → TakesOwnClone phi

def FixupNeeded (phi : Fin insns) : Prop :=
  (∃ user ∈ loop.users phi, loop.getInstructionPosition user = .exit ∨
    loop.getInstructionPosition user = .backEdge) ∨ loop.clonedUsers phi ≠ []

end HLoopInformation

def FBLContext.Created (context : FBLContext insns) : Target insns → Prop
  | .headerFixup place insn => insn ∈ context.headerFixup place
  | .interlaceFixup place phi => phi ∈ context.interlacePhiFixup place
  | .old _ | .clone _ => True

/-- The maps of the first context are part of those of the second. -/
structure Extends (context context' : FBLContext insns) : Prop where
  header : context'.headerFixup = context.headerFixup
  interlace : ∀ place phi, phi ∈ context.interlacePhiFixup place →
    phi ∈ context'.interlacePhiFixup place
  fixup : ∀ phi fixup, context.phiFixup.lookup phi = some fixup →
    context'.phiFixup.lookup phi = some fixup

theorem Extends.refl (context : FBLContext insns) : Extends context context :=
  ⟨rfl, fun _ _ hphi => hphi, fun _ _ hfixup => hfixup⟩

theorem Extends.trans {third : FBLContext insns} (hfirst : Extends first second)
    (hsnd : Extends second third) : Extends first third where
  header := hsnd.header.trans hfirst.header
  interlace place phi hphi := hsnd.interlace place phi (hfirst.interlace place phi hphi)
  fixup phi fixup hfixup := hsnd.fixup phi fixup (hfirst.fixup phi fixup hfixup)

variable {context context' : FBLContext insns} {fixup : Target insns}

theorem Extends.created (hext : Extends context context')
    (hcreated : context.Created fixup) : context'.Created fixup := by
  cases fixup with
  | old insn | clone insn => trivial
  | headerFixup place insn =>
    change insn ∈ context'.headerFixup place
    rw [hext.header]
    exact hcreated
  | interlaceFixup place phi => exact hext.interlace _ phi hcreated

/-- The maps agree with the rules, but for the interlace fixups that are being created. -/
structure WellFormed (loop : HLoopInformation graph) (pending : List (Place × Fin insns))
    (context : FBLContext insns) : Prop where
  header : ∀ place insn, insn ∈ context.headerFixup place → insn ∈ loop.cloned
  fixup : ∀ phi fixup, context.phiFixup.lookup phi = some fixup →
    fixup = loop.fixupOf phi ∧ context.Created fixup
  interlace : ∀ place phi, phi ∈ context.interlacePhiFixup place → phi ∈ loop.headerPhis ∧
    ((place, phi) ∈ pending ∨
      context.secondInput.lookup (.interlaceFixup place phi) = some (loop.fixupOf phi) ∧
        context.Created (loop.fixupOf phi))

variable {insn : Fin insns}

theorem resolve_of_not_degenerate (hinsn : loop.isDegenerate insn = false) :
    loop.resolve insn = insn := by
  rw [resolve, hinsn]
  rfl

variable {phi other : Fin insns}

theorem mem_headerPhis : phi ∈ loop.headerPhis ↔
      phi ∈ graph.code.phis loop.header ∧ loop.isDegenerate phi = false := by
  simp [headerPhis]

theorem mem_phis_of_isDegenerate (hdegen : loop.isDegenerate insn) :
    insn ∈ graph.code.phis loop.header := by
  simp only [isDegenerate, Bool.and_eq_true, decide_eq_true_eq] at hdegen
  exact hdegen.1

/-- What a phi of the header takes from the preheader is not in the loop. -/
theorem resolve_of_mem_body (hbody : graph.getBlock (loop.resolve insn) ∈ loop.body) :
    loop.isDegenerate insn = false ∧ loop.resolve insn = insn := by
  cases hdegen : loop.isDegenerate insn with
  | true =>
    rw [resolve, if_pos hdegen] at hbody
    exact absurd hbody (loop.phiInput_preHeader_notMem (mem_phis_of_isDegenerate hdegen))
  | false => exact ⟨rfl, if_neg (by simp [hdegen])⟩

/-- A resolved operand is not a degenerate phi. -/
theorem isDegenerate_resolve (insn : Fin insns) :
    loop.isDegenerate (loop.resolve insn) = false := by
  rw [Bool.eq_false_iff]
  intro hdegen
  have hblock := getBlock_of_mem_phis (mem_phis_of_isDegenerate hdegen)
  obtain ⟨hnot, heq⟩ := resolve_of_mem_body (hblock ▸ loop.header_mem)
  rw [heq, hnot] at hdegen
  cases hdegen

theorem suspendCheck_notMem_phis (hinsn : insn ∈ graph.code.phis loop.header) :
    loop.suspendCheck ≠ some insn := by
  intro hsusp
  exact notMem_phis_of_mem_instructions (loop.suspendCheck_mem _ hsusp) _ hinsn

theorem position_of_mem_phis (hphi : phi ∈ graph.code.phis loop.header) :
    loop.getInstructionPosition phi = .phi := by
  rw [getInstructionPosition, if_neg (suspendCheck_notMem_phis hphi),
    if_neg (not_not.mpr (getBlock_of_mem_phis hphi)), if_pos hphi]

theorem mem_phis_of_position (hinsn : loop.getInstructionPosition insn = .phi) :
    insn ∈ graph.code.phis loop.header := by
  simp only [getInstructionPosition] at hinsn
  split_ifs at hinsn with _ _ _ hphi
  exact hphi

theorem mem_headerPhis_of_position
    (hinsn : loop.getInstructionPosition (loop.resolve insn) = .phi) :
    loop.resolve insn ∈ loop.headerPhis :=
  mem_headerPhis.mpr ⟨mem_phis_of_position hinsn, isDegenerate_resolve insn⟩

theorem position_ne_clone (insn : Fin insns) : loop.getInstructionPosition insn ≠ .clone := by
  rw [getInstructionPosition]
  split_ifs <;> exact nofun

theorem mem_cloned : insn ∈ loop.cloned ↔ insn ∈ graph.code.instructions loop.header ∧
      loop.suspendCheck ≠ some insn ∧ loop.isOwnClone insn = false ∧
        loop.isElided insn = false := by
  simp [cloned, and_assoc]

theorem position_of_mem_instructions (hmem : insn ∈ graph.code.instructions loop.header)
    (hsusp : loop.suspendCheck ≠ some insn) : loop.getInstructionPosition insn = .header := by
  rw [getInstructionPosition, if_neg hsusp,
    if_neg (not_not.mpr (getBlock_of_mem_instructions hmem)),
    if_neg (notMem_phis_of_mem_instructions hmem _)]

theorem position_of_mem_cloned (hinsn : insn ∈ loop.cloned) :
    loop.getInstructionPosition insn = .header :=
  position_of_mem_instructions (mem_cloned.mp hinsn).1 (mem_cloned.mp hinsn).2.1

/-! ## Elided conversions -/

theorem inputs_of_isElided (helided : loop.isElided insn) :
    insn ∈ graph.code.instructions loop.header ∧ loop.suspendCheck ≠ some insn ∧
      ∃ input, loop.inputs insn = [input] := by
  simp only [isElided, Bool.and_eq_true, decide_eq_true_eq] at helided
  obtain ⟨⟨⟨hmem, hsusp⟩, -⟩, htype⟩ := helided
  refine ⟨hmem, hsusp, ?_⟩
  split at htype
  next input hinput => exact ⟨input, hinput⟩
  · cases htype

/-- What holds of an operand and passes from an elided conversion to its input holds of
what is used for the operand in a clone. -/
theorem cloneSource_induction {P : Fin insns → Prop}
    (hpass : ∀ insn input, loop.isElided insn → loop.inputs insn = [input] → P insn → P input)
    (fuel : ℕ) : ∀ insn, P insn → P (loop.cloneSource fuel insn) := by
  induction fuel with
  | zero => exact fun _ hinsn => hinsn
  | succ fuel ih =>
    intro insn hinsn
    rw [cloneSource]
    split
    next helided =>
      split
      next input hinput => exact ih _ (hpass _ _ helided hinput hinsn)
      · exact hinsn
    · exact hinsn

section Split

variable {before rest : List (Fin insns)}
  (hsplit : graph.code.instructions loop.header = before ++ insn :: rest)

include hsplit

theorem instructionsOf_header : graph.code.instructionsOf loop.header =
    (graph.code.phis loop.header ++ before) ++
      insn :: (rest ++ [graph.code.terminator loop.header]) := by
  simp [Code.instructionsOf, hsplit]

theorem notMem_before_of_split : insn ∉ before := fun hmem =>
  notMem_before (instructionsOf_header hsplit) (mem_append_right _ hmem)

/-- An operand in the header comes earlier. -/
theorem mem_before_of_mem_inputs {input : Fin insns}
    (hinput : input ∈ loop.inputs insn) (hmem : input ∈ graph.code.instructions loop.header) :
    input ∈ before := by
  obtain ⟨operand, hoperand, rfl⟩ := mem_map.mp hinput
  have hblock := getBlock_of_mem_instructions hmem
  obtain ⟨-, heq⟩ := resolve_of_mem_body (hblock ▸ loop.header_mem)
  rw [heq] at hblock hmem ⊢
  have hinsn : insn ∈ graph.code.instructions loop.header := by simp [hsplit]
  have hbefore := mem_before_of_operand (instructionsOf_header hsplit)
    (notMem_phis_of_mem_instructions hinsn _) hoperand hblock
  exact (mem_append.mp hbefore).resolve_left (notMem_phis_of_mem_instructions hmem _)

end Split

/-- The depth suffices: each conversion comes after its input. -/
theorem isElided_cloneSource (fuel : ℕ) : ∀ insn,
    (loop.isElided insn → (graph.code.instructions loop.header).idxOf insn < fuel) →
    loop.isElided (loop.cloneSource fuel insn) = false := by
  induction fuel with
  | zero =>
    intro insn hindex
    exact Bool.eq_false_iff.mpr fun helided => absurd (hindex helided) (Nat.not_lt_zero _)
  | succ fuel ih =>
    intro insn hindex
    rw [cloneSource]
    split
    next helided =>
      obtain ⟨hmem, -, input, hinput⟩ := inputs_of_isElided helided
      rw [hinput]
      refine ih _ fun hinputElided => ?_
      obtain ⟨before, rest, hsplit, hnot⟩ := eq_append_cons_of_mem hmem
      have hbefore := mem_before_of_mem_inputs hsplit (by rw [hinput]; exact mem_singleton_self _)
        (inputs_of_isElided hinputElided).1
      have hlt := hindex helided
      rw [hsplit, idxOf_append_of_notMem hnot, idxOf_cons_self] at hlt
      rw [hsplit, idxOf_append_of_mem hbefore]
      have := idxOf_lt_length_of_mem hbefore
      omega
    next helided => exact Bool.eq_false_iff.mpr helided

/-! ## What the fixups of phis are -/

structure InterlaceResult (loop : HLoopInformation graph) (pending : List (Place × Fin insns))
    (place : Place) (phi : Fin insns) (context : FBLContext insns)
    (result : Target insns × FBLContext insns) : Prop where
  eq : result.1 = .interlaceFixup place phi
  mem : phi ∈ result.2.interlacePhiFixup place
  wellFormed : WellFormed loop pending result.2
  extend : Extends context result.2

structure FixupResult (loop : HLoopInformation graph) (pending : List (Place × Fin insns))
    (phi : Fin insns) (context : FBLContext insns) (result : Target insns × FBLContext insns) :
    Prop where
  eq : result.1 = loop.fixupOf phi
  lookup : result.2.phiFixup.lookup phi = some result.1
  wellFormed : WellFormed loop pending result.2
  extend : Extends context result.2

theorem lookup_cons_ne {key : Fin insns} {v : Target insns}
    {entries : List (Fin insns × Target insns)} (hne : other ≠ key) :
    ((key, v) :: entries).lookup other = entries.lookup other := by
  rw [lookup_cons, beq_false_of_ne hne]

variable {pending : List (Place × Fin insns)} {result : Target insns × FBLContext insns}

theorem WellFormed.add_fixup (hwell : WellFormed loop pending context)
    (heq : fixup = loop.fixupOf phi) (hcreated : context.Created fixup) :
    FixupResult loop pending phi context
      (fixup, { context with phiFixup := (phi, fixup) :: context.phiFixup }) where
  eq := heq
  lookup := lookup_cons_self
  wellFormed :=
    { header := hwell.header
      fixup := by
        intro other found hfound
        by_cases hother : other = phi
        · subst hother
          obtain rfl := Option.some.inj (lookup_cons_self.symm.trans hfound)
          exact ⟨heq, hcreated⟩
        · exact hwell.fixup other found ((lookup_cons_ne hother).symm.trans hfound)
      interlace := hwell.interlace }
  extend :=
    { header := rfl
      interlace := fun _ _ hmem => hmem
      fixup := by
        intro other found hfound
        by_cases hother : other = phi
        · subst hother
          rw [(hwell.fixup _ _ hfound).1, ← heq]
          exact lookup_cons_self
        · exact (lookup_cons_ne hother).trans hfound }

theorem FixupResult.after (hext : Extends first second)
    (hres : FixupResult loop pending phi second result) :
    FixupResult loop pending phi first result :=
  ⟨hres.eq, hres.lookup, hres.wellFormed, hext.trans hres.extend⟩

section GetPhiFixup

variable {pending : List (Place × Fin insns)}
  {interlace : Fin insns → FBLContext insns → Option (Target insns × FBLContext insns)}
  (hinterlace : ∀ phi ∈ loop.headerPhis, ∀ context result, WellFormed loop pending context →
    interlace phi context = some result → InterlaceResult loop pending .inside phi context result)

include hinterlace

theorem getPhiFixupWith_spec {context : FBLContext insns} (hwell : WellFormed loop pending context)
    (hres : loop.getPhiFixupWith interlace phi context = some result) :
    FixupResult loop pending phi context result := by
  rw [getPhiFixupWith] at hres
  cases hlookup : context.phiFixup.lookup phi with
  | some fixup =>
    rw [hlookup] at hres
    cases hres
    exact ⟨(hwell.fixup phi _ hlookup).1, hlookup, hwell, .refl context⟩
  | none =>
    rw [hlookup] at hres
    obtain ⟨⟨fixup, middle⟩, hfixup, rfl⟩ := Option.map_eq_some_iff.mp hres
    -- The rule depends on the position of the input from the back edge.
    cases hposition : loop.getInstructionPosition (loop.phiInput phi loop.backBlock) <;>
      rw [hposition] at hfixup
    case header =>
      dsimp only at hfixup
      split at hfixup
      next hmem =>
        obtain ⟨rfl, rfl⟩ := mk.inj (Option.some.inj hfixup)
        refine hwell.add_fixup ?_ hmem
        rw [fixupOf, hposition]
      · cases hfixup
    case phi =>
      have hinput := mem_headerPhis_of_position hposition
      have hspec := hinterlace _ hinput _ _ hwell hfixup
      obtain rfl : fixup = .interlaceFixup .inside (loop.phiInput phi loop.backBlock) := hspec.eq
      have hmem := hspec.mem
      refine FixupResult.after hspec.extend (hspec.wellFormed.add_fixup ?_ hmem)
      rw [fixupOf, hposition]
    case exit | backEdge | clone =>
      obtain ⟨rfl, rfl⟩ := mk.inj (Option.some.inj hfixup)
      refine hwell.add_fixup ?_ trivial
      rw [fixupOf, hposition]

end GetPhiFixup

theorem WellFormed.addInterlace (hwell : WellFormed loop pending context)
    (hphi : phi ∈ loop.headerPhis) (place : Place) :
    WellFormed loop ((place, phi) :: pending) (context.addInterlace phi place) ∧
      Extends context (context.addInterlace phi place) ∧
      phi ∈ (context.addInterlace phi place).interlacePhiFixup place := by
  have hmem : ∀ place' other, other ∈ (context.addInterlace phi place).interlacePhiFixup place' ↔
      (place' = place ∧ other = phi) ∨ other ∈ context.interlacePhiFixup place' := by
    intro place' other
    change other ∈ update context.interlacePhiFixup place _ place' ↔ _
    by_cases hplace : place' = place
    · subst hplace
      simp
    · simp [hplace]
  have hext : Extends context (context.addInterlace phi place) :=
    ⟨rfl, fun place' other hother => (hmem place' other).mpr (.inr hother),
      fun _ _ hfound => hfound⟩
  refine ⟨⟨hwell.header, ?_, ?_⟩, hext, (hmem place phi).mpr (.inl ⟨rfl, rfl⟩)⟩
  · intro other found hfound
    obtain ⟨heq, hcreated⟩ := hwell.fixup _ _ hfound
    exact ⟨heq, hext.created hcreated⟩
  · intro place' other hother
    rcases (hmem place' other).mp hother with ⟨rfl, rfl⟩ | hbefore
    · exact ⟨hphi, .inl mem_cons_self⟩
    · obtain ⟨hheader, hstate⟩ := hwell.interlace _ _ hbefore
      refine ⟨hheader, hstate.imp (mem_cons_of_mem _) ?_⟩
      exact fun hinput => ⟨hinput.1, hext.created hinput.2⟩

variable {place : Place}

/-- The second input completes an interlace fixup. -/
theorem WellFormed.setSecondInput (hwell : WellFormed loop ((place, phi) :: pending) context)
    (hcreated : context.Created (loop.fixupOf phi)) :
    WellFormed loop pending { context with
      secondInput := (.interlaceFixup place phi, loop.fixupOf phi) :: context.secondInput } where
  header := hwell.header
  fixup := hwell.fixup
  interlace := by
    intro place' other hother
    obtain ⟨hheader, hstate⟩ := hwell.interlace _ _ hother
    refine ⟨hheader, ?_⟩
    by_cases hsame : place' = place ∧ other = phi
    · obtain ⟨rfl, rfl⟩ := hsame
      exact .inr ⟨lookup_cons_self, hcreated⟩
    · have hne : Target.interlaceFixup place' other ≠ .interlaceFixup place phi := by
        intro heq
        exact hsame (Target.interlaceFixup.inj heq)
      rcases hstate with hpend | ⟨hinput, hother⟩
      · refine .inl ((mem_cons.mp hpend).resolve_left ?_)
        exact fun heq => hsame (mk.inj heq)
      · refine .inr ⟨?_, hother⟩
        rw [← hinput, lookup_cons, beq_false_of_ne hne]

theorem getPhiInterlaceFixup_spec (fuel : ℕ) :
    ∀ (pending : List (Place × Fin insns)) (place : Place), ∀ phi ∈ loop.headerPhis,
      ∀ context result, WellFormed loop pending context →
        loop.getPhiInterlaceFixup fuel place phi context = some result →
          InterlaceResult loop pending place phi context result := by
  induction fuel with
  | zero => exact fun _ _ _ _ _ _ _ hres => nomatch hres
  | succ fuel ih =>
    intro pending place phi hphi context result hwell hres
    rw [getPhiInterlaceFixup] at hres
    split at hres
    next hmem =>
      cases hres
      exact ⟨rfl, hmem, hwell, .refl context⟩
    · obtain ⟨fixup, hfixup, rfl⟩ := Option.map_eq_some_iff.mp hres
      obtain ⟨hadded, hext, hmem⟩ := hwell.addInterlace hphi _
      have hspec := getPhiFixupWith_spec (ih ((place, phi) :: pending) .inside) hadded hfixup
      have hcreated : fixup.2.Created (loop.fixupOf phi) := by
        rw [← hspec.eq]
        exact (hspec.wellFormed.fixup phi fixup.1 hspec.lookup).2
      refine ⟨rfl, hspec.extend.interlace _ phi hmem, ?_, ?_⟩
      · rw [hspec.eq]
        exact hspec.wellFormed.setSecondInput hcreated
      · have hall := hext.trans hspec.extend
        exact ⟨hall.header, hall.interlace, hall.fixup⟩

theorem getPhiFixup_spec
    (hwell : WellFormed loop pending context) (hres : loop.getPhiFixup phi context = some result) :
    FixupResult loop pending phi context result :=
  getPhiFixupWith_spec (getPhiInterlaceFixup_spec _ pending .inside) hwell hres

/-! ## The phis of the header form no cycle -/

/-- The directions of the references between some phis, after others were seen. -/
def Directed (loop : HLoopInformation graph) (seen rest : List (Fin insns))
    (forward backward : Bool) : Prop :=
  ∀ first phi second, rest = first ++ phi :: second →
    graph.code.phiInput phi loop.backBlock ∈ loop.headerPhis →
    graph.code.phiInput phi loop.backBlock ≠ phi →
    if graph.code.phiInput phi loop.backBlock ∈ first ∨
        graph.code.phiInput phi loop.backBlock ∈ seen then
      backward = true
    else
      forward = true

/-- All references between phis that the scan counts go in one direction. -/
theorem exists_direction {seen rest : List (Fin insns)} {looksForward looksBackward : Bool}
    (hflags : (looksForward && looksBackward) = false)
    (hscan : loop.phisDontFormCycles seen looksForward looksBackward rest) :
    ∃ forward backward : Bool, (forward && backward) = false ∧
      (looksForward → forward) ∧ (looksBackward → backward) ∧
      Directed loop seen rest forward backward := by
  induction rest generalizing seen looksForward looksBackward with
  | nil => exact ⟨looksForward, looksBackward, hflags, id, id, by simp [Directed]⟩
  | cons phi rest ih =>
    rw [phisDontFormCycles] at hscan
    dsimp only at hscan
    -- The later phis have this one among those seen.
    have hlater : ∀ {looksForward' looksBackward' : Bool},
        (looksForward' && looksBackward') = false →
        loop.phisDontFormCycles (phi :: seen) looksForward' looksBackward' rest = true →
        (looksForward = true → looksForward' = true) →
        (looksBackward = true → looksBackward' = true) →
        (graph.code.phiInput phi loop.backBlock ∈ loop.headerPhis →
          graph.code.phiInput phi loop.backBlock ≠ phi →
          if graph.code.phiInput phi loop.backBlock ∈ seen then looksBackward' = true
          else looksForward' = true) →
        ∃ forward backward : Bool, (forward && backward) = false ∧
          (looksForward = true → forward = true) ∧ (looksBackward = true → backward = true) ∧
          Directed loop seen (phi :: rest) forward backward := by
      intro looksForward' looksBackward' hflags' hscan' hfwd hbackward hphi
      obtain ⟨forward, backward, hone, hfwd', hbackward', hall⟩ := ih hflags' hscan'
      refine ⟨forward, backward, hone, hfwd' ∘ hfwd, hbackward' ∘ hbackward, ?_⟩
      intro first other second hsplit hinput hne
      cases first with
      | nil =>
        obtain ⟨rfl, -⟩ := cons.inj hsplit
        have hdirection := hphi hinput hne
        simp only [not_mem_nil, false_or]
        split at hdirection
        next hseen =>
          rw [if_pos hseen]
          exact hbackward' hdirection
        next hseen =>
          rw [if_neg hseen]
          exact hfwd' hdirection
      | cons head first =>
        obtain ⟨rfl, htail⟩ := cons.inj hsplit
        have hdirection := hall _ _ _ htail hinput hne
        simp only [mem_cons, or_left_comm, or_assoc] at hdirection ⊢
        exact hdirection
    split at hscan
    next heq => exact hlater hflags hscan id id fun _ hne => absurd heq hne
    split at hscan
    · split at hscan
      · cases hscan
      next hone =>
        refine hlater (by simpa using hone) hscan (fun h => by simp [h]) (fun h => by simp [h])
          fun _ _ => ?_
        split
        next hseen => simp [hseen]
        next hseen => simp [hseen]
    next hnot =>
      refine hlater hflags hscan id id fun hinput _ => ?_
      obtain ⟨hmem, hdegen⟩ := mem_headerPhis.mp hinput
      exact absurd ⟨hmem, by simp [hdegen]⟩ hnot

/-- The phis of the header can be ranked so that one that takes another has the higher
rank. -/
theorem exists_rank (hheader : loop.checkLoopHeader) :
    ∃ rank : Fin insns → ℕ, (∀ phi, rank phi ≤ (graph.code.phis loop.header).length) ∧
      ∀ phi ∈ loop.headerPhis, loop.phiInput phi loop.backBlock ∈ loop.headerPhis →
        rank (loop.phiInput phi loop.backBlock) < rank phi := by
  have hscan := (Bool.and_eq_true_iff.mp hheader).2
  obtain ⟨forward, backward, hone, -, -, hall⟩ := exists_direction rfl hscan
  have hinput : ∀ phi, loop.phiInput phi loop.backBlock ∈ loop.headerPhis →
      loop.phiInput phi loop.backBlock = graph.code.phiInput phi loop.backBlock := by
    intro phi hmem
    have hblock := getBlock_of_mem_phis (mem_headerPhis.mp hmem).1
    exact (resolve_of_mem_body (hblock ▸ loop.header_mem)).2
  -- Whether the input of a phi comes before or after it in the list.
  have hdirection : ∀ phi ∈ loop.headerPhis, loop.phiInput phi loop.backBlock ∈ loop.headerPhis →
      (backward = true ∧ (graph.code.phis loop.header).idxOf (loop.phiInput phi loop.backBlock) <
          (graph.code.phis loop.header).idxOf phi) ∨
        forward = true ∧ (graph.code.phis loop.header).idxOf phi <
          (graph.code.phis loop.header).idxOf (loop.phiInput phi loop.backBlock) := by
    intro phi hphi hmem
    obtain ⟨hmemPhis, hdegen⟩ := mem_headerPhis.mp hphi
    have heq := hinput phi hmem
    obtain ⟨first, second, hsplit, hnot⟩ := eq_append_cons_of_mem hmemPhis
    have hne : graph.code.phiInput phi loop.backBlock ≠ phi := by
      intro hself
      simp [isDegenerate, hmemPhis, hself] at hdegen
    have hflag := hall _ phi _ hsplit (heq ▸ hmem) hne
    simp only [not_mem_nil, or_false] at hflag
    rw [heq, hsplit, idxOf_append_of_notMem hnot, idxOf_cons_self]
    split at hflag
    next hfirst =>
      refine .inl ⟨hflag, ?_⟩
      rw [idxOf_append_of_mem hfirst]
      exact Nat.lt_of_lt_of_le (idxOf_lt_length_of_mem hfirst) (Nat.le_add_right _ _)
    next hfirst =>
      refine .inr ⟨hflag, ?_⟩
      rw [idxOf_append_of_notMem hfirst, idxOf_cons_ne _ (Ne.symm hne)]
      omega
  cases hfwd : forward with
  | true =>
    -- All references go to later phis.
    refine ⟨fun phi =>
        (graph.code.phis loop.header).length - (graph.code.phis loop.header).idxOf phi,
      fun phi => Nat.sub_le _ _, fun phi hphi hmem => ?_⟩
    have hlt := idxOf_lt_length_of_mem (mem_headerPhis.mp hmem).1
    rcases hdirection phi hphi hmem with ⟨hbackward, -⟩ | ⟨-, hless⟩
    · rw [hfwd, hbackward] at hone
      cases hone
    · exact Nat.sub_lt_sub_left (hless.trans hlt) hless
  | false =>
    refine ⟨(graph.code.phis loop.header).idxOf, fun phi => idxOf_le_length,
      fun phi hphi hmem => ?_⟩
    rcases hdirection phi hphi hmem with ⟨-, hless⟩ | ⟨htrue, -⟩
    · exact hless
    · rw [hfwd] at htrue
      cases htrue

/-! ## The fixups of the instructions of the header -/

/-- The users that ask for a fixup of an instruction of the header. -/
def NeedsHeaderFixup (place : Place) (position : HLoopInformation.InstructionPosition) : Prop :=
  match place with
  | .inside => position = .backEdge ∨ position = .phi
  | .outside => position = .exit

theorem mem_getHeaderFixup {place' : Place} :
    other ∈ (context.getHeaderFixup insn place).headerFixup place' ↔
      other ∈ context.headerFixup place' ∨ other = insn ∧ place' = place := by
  rw [FBLContext.getHeaderFixup]
  split
  next hmem =>
    refine ⟨.inl, ?_⟩
    rintro (hother | ⟨rfl, rfl⟩)
    · exact hother
    · exact hmem
  · by_cases hplace : place' = place
    · subst hplace
      simp [or_comm]
    · simp [hplace]

/-- The other maps are not changed by the fixups of instructions. -/
def OnlyHeaderFixups (context : FBLContext insns) : Prop :=
  context.phiFixup = [] ∧ ∀ place, context.interlacePhiFixup place = []

theorem onlyHeaderFixups_getHeaderFixup (honly : OnlyHeaderFixups context) (insn : Fin insns)
    (place : Place) : OnlyHeaderFixups (context.getHeaderFixup insn place) := by
  rw [FBLContext.getHeaderFixup]
  split <;> exact honly

variable (loop) in
theorem fixHeaderInsnUse_spec (honly : OnlyHeaderFixups context) (insn user : Fin insns) :
    OnlyHeaderFixups (loop.fixHeaderInsnUse insn context user) ∧
      ∀ place other, other ∈ (loop.fixHeaderInsnUse insn context user).headerFixup place ↔
        other ∈ context.headerFixup place ∨
          other = insn ∧ NeedsHeaderFixup place (loop.getInstructionPosition user) := by
  rw [fixHeaderInsnUse]
  cases hposition : loop.getInstructionPosition user
  case header | clone =>
    exact ⟨honly, fun place other => by cases place <;> simp [NeedsHeaderFixup]⟩
  case exit | backEdge | phi =>
    refine ⟨onlyHeaderFixups_getHeaderFixup honly insn _, fun place other => ?_⟩
    rw [mem_getHeaderFixup]
    cases place <;> simp [NeedsHeaderFixup]

variable (loop) in
theorem foldl_fixHeaderInsnUse_spec (honly : OnlyHeaderFixups context) (insn : Fin insns)
    (users : List (Fin insns)) :
    OnlyHeaderFixups (users.foldl (loop.fixHeaderInsnUse insn) context) ∧
      ∀ place other, other ∈ (users.foldl (loop.fixHeaderInsnUse insn) context).headerFixup place ↔
        other ∈ context.headerFixup place ∨ other = insn ∧
          ∃ user ∈ users, NeedsHeaderFixup place (loop.getInstructionPosition user) := by
  induction users generalizing context with
  | nil => exact ⟨honly, by simp⟩
  | cons user users ih =>
    obtain ⟨hfirst, hmem⟩ := fixHeaderInsnUse_spec _ honly insn user
    obtain ⟨hrest, hall⟩ := ih hfirst
    refine ⟨hrest, fun place other => ?_⟩
    rw [foldl_cons, hall, hmem]
    simp only [mem_cons, exists_eq_or_imp]
    tauto

variable (loop) in
theorem foldl_fixHeaderInsnUses_spec (honly : OnlyHeaderFixups context) (list : List (Fin insns)) :
    OnlyHeaderFixups (list.foldl loop.fixHeaderInsnUses context) ∧
      ∀ place other, other ∈ (list.foldl loop.fixHeaderInsnUses context).headerFixup place ↔
        other ∈ context.headerFixup place ∨ other ∈ list ∧ ∃ user ∈ loop.users other,
            NeedsHeaderFixup place (loop.getInstructionPosition user) := by
  induction list generalizing context with
  | nil => exact ⟨honly, by simp⟩
  | cons insn list ih =>
    have hspec : OnlyHeaderFixups (loop.fixHeaderInsnUses context insn) ∧
        ∀ place other, other ∈ (loop.fixHeaderInsnUses context insn).headerFixup place ↔
          other ∈ context.headerFixup place ∨ other = insn ∧
            ∃ user ∈ loop.users insn, NeedsHeaderFixup place (loop.getInstructionPosition user) :=
      foldl_fixHeaderInsnUse_spec _ honly insn (loop.users insn)
    obtain ⟨hrest, hall⟩ := ih hspec.1
    refine ⟨hrest, fun place other => ?_⟩
    rw [foldl_cons, hall, hspec.2, mem_cons]
    constructor
    · rintro ((hbefore | ⟨rfl, hneeds⟩) | ⟨hlist, hneeds⟩)
      · exact .inl hbefore
      · exact .inr ⟨.inl rfl, hneeds⟩
      · exact .inr ⟨.inr hlist, hneeds⟩
    · rintro (hbefore | ⟨rfl | hlist, hneeds⟩)
      · exact .inl (.inl hbefore)
      · exact .inl (.inr ⟨rfl, hneeds⟩)
      · exact .inr ⟨hlist, hneeds⟩

variable (loop) in
def clonedContext : FBLContext insns := loop.cloned.foldl loop.fixHeaderInsnUses .empty

theorem mem_headerFixup_clonedContext :
    insn ∈ (clonedContext loop).headerFixup place ↔ insn ∈ loop.cloned ∧
      ∃ user ∈ loop.users insn, NeedsHeaderFixup place (loop.getInstructionPosition user) := by
  rw [clonedContext, (foldl_fixHeaderInsnUses_spec loop ⟨rfl, fun _ => rfl⟩ loop.cloned).2]
  simp [FBLContext.empty]

theorem wellFormed_clonedContext : WellFormed loop [] (clonedContext loop) := by
  obtain ⟨hfixup, hinterlace⟩ : OnlyHeaderFixups (clonedContext loop) :=
    (foldl_fixHeaderInsnUses_spec loop ⟨rfl, fun _ => rfl⟩ loop.cloned).1
  refine ⟨fun place insn hinsn => (mem_headerFixup_clonedContext.mp hinsn).1, ?_, ?_⟩
  · intro phi fixup hfound
    rw [hfixup] at hfound
    cases hfound
  · intro place phi hphi
    rw [hinterlace] at hphi
    cases hphi

/-! ## The fixups of the phis of the header -/

structure PhiFixed (loop : HLoopInformation graph) (phi : Fin insns)
    (context : FBLContext insns) : Prop where
  outside : ∀ user ∈ loop.users phi, loop.getInstructionPosition user = .exit →
    phi ∈ context.interlacePhiFixup .outside
  inside : ∀ user ∈ loop.users phi, loop.getInstructionPosition user = .backEdge →
    phi ∈ context.interlacePhiFixup .inside
  clone : loop.clonedUsers phi ≠ [] → ∃ fixup, context.phiFixup.lookup phi = some fixup

theorem PhiFixed.extend (hfixed : PhiFixed loop phi context) (hext : Extends context context') :
    PhiFixed loop phi context' where
  outside user huser hposition := hext.interlace _ _ (hfixed.outside user huser hposition)
  inside user huser hposition := hext.interlace _ _ (hfixed.inside user huser hposition)
  clone hclone := by
    obtain ⟨fixup, hfixup⟩ := hfixed.clone hclone
    exact ⟨fixup, hext.fixup phi _ hfixup⟩

section

variable (hphi : phi ∈ loop.headerPhis) (hwell : WellFormed loop [] context)

include hphi hwell

theorem fixHeaderPhiUse_spec {user : Fin insns}
    (huse : loop.fixHeaderPhiUse phi context user = some context') :
    WellFormed loop [] context' ∧ Extends context context' ∧
      (loop.getInstructionPosition user = .exit → phi ∈ context'.interlacePhiFixup .outside) ∧
      (loop.getInstructionPosition user = .backEdge →
        phi ∈ context'.interlacePhiFixup .inside) := by
  rw [fixHeaderPhiUse] at huse
  cases hposition : loop.getInstructionPosition user <;> rw [hposition] at huse
  case header | phi =>
    cases huse
    exact ⟨hwell, .refl context, nofun, nofun⟩
  all_goals obtain ⟨result, hres, rfl⟩ := Option.map_eq_some_iff.mp huse
  case exit =>
    have hspec := getPhiInterlaceFixup_spec _ [] .outside phi hphi _ _ hwell hres
    exact ⟨hspec.wellFormed, hspec.extend, fun _ => hspec.mem, nofun⟩
  case backEdge =>
    have hspec := getPhiInterlaceFixup_spec _ [] .inside phi hphi _ _ hwell hres
    exact ⟨hspec.wellFormed, hspec.extend, nofun, fun _ => hspec.mem⟩
  case clone =>
    have hspec := getPhiFixup_spec hwell hres
    exact ⟨hspec.wellFormed, hspec.extend, nofun, nofun⟩

theorem fixHeaderPhisUses_spec (huses : loop.fixHeaderPhisUses context phi = some context') :
    WellFormed loop [] context' ∧ Extends context context' ∧ PhiFixed loop phi context' := by
  obtain ⟨middle, husers, hclones⟩ := Option.bind_eq_some_iff.mp huses
  obtain ⟨hmiddle, hext, hfixed⟩ := foldlM_spec (WellFormed loop []) Extends (fun user context =>
      (loop.getInstructionPosition user = .exit → phi ∈ context.interlacePhiFixup .outside) ∧
      (loop.getInstructionPosition user = .backEdge → phi ∈ context.interlacePhiFixup .inside))
    .refl (fun _ _ _ => .trans)
    (fun user first second hgrows hpost => ⟨fun hexit => hgrows.interlace _ _ (hpost.1 hexit),
        fun hback => hgrows.interlace _ _ (hpost.2 hback)⟩)
    (fun first user second _ hinv hstep => fixHeaderPhiUse_spec hphi hinv hstep) hwell husers
  obtain ⟨hafter, hext', hclone⟩ := foldlM_spec (WellFormed loop []) Extends
    (fun _ context => ∃ fixup, context.phiFixup.lookup phi = some fixup)
    .refl (fun _ _ _ => .trans)
    (fun _ first second hgrows hpost => hpost.imp (hgrows.fixup phi))
    (fun first user second _ hinv hstep => by
      obtain ⟨result, hres, rfl⟩ := Option.map_eq_some_iff.mp hstep
      have hspec := getPhiFixup_spec hinv hres
      exact ⟨hspec.wellFormed, hspec.extend, result.1, hspec.lookup⟩) hmiddle hclones
  refine ⟨hafter, hext.trans hext', ?_⟩
  refine ⟨fun user huser hexit => hext'.interlace _ _ ((hfixed _ huser).1 hexit),
    fun user huser hback => hext'.interlace _ _ ((hfixed _ huser).2 hback), fun hne => ?_⟩
  obtain ⟨user, huser⟩ := exists_mem_of_ne_nil _ hne
  exact hclone _ huser

end

variable (loop) in
/-- A conversion that is not cloned has no fixups: it is not used in the loop or after it. -/
def ConversionsLocal : Prop := ∀ insn, loop.isElided insn → ∀ user ∈ loop.users insn,
  loop.getInstructionPosition user ≠ .backEdge ∧ loop.getInstructionPosition user ≠ .exit

variable (loop context) in
structure Complete : Prop where
  wellFormed : WellFormed loop [] context
  header : ∀ place, ∀ insn ∈ loop.cloned, ∀ user ∈ loop.users insn,
    NeedsHeaderFixup place (loop.getInstructionPosition user) → insn ∈ context.headerFixup place
  phi : ∀ phi ∈ loop.headerPhis, PhiFixed loop phi context
  used : ∀ place, ∀ insn ∈ context.headerFixup place, loop.users insn ≠ []
  conversions : ConversionsLocal loop

theorem fixups_of_cloneInstructions (hclone : loop.cloneInstructions = some context) :
    WellFormed loop [] context ∧ Extends (clonedContext loop) context ∧
      ∀ phi ∈ loop.headerPhis, PhiFixed loop phi context :=
  foldlM_spec (WellFormed loop []) Extends (PhiFixed loop)
    .refl (fun _ _ _ => .trans) (fun _ _ _ hgrows hpost => hpost.extend hgrows)
    (fun _ _ _ hphi hinv hstep => fixHeaderPhisUses_spec hphi hinv hstep)
    wellFormed_clonedContext hclone

theorem complete_of_cloneInstructions (hlocal : ConversionsLocal loop)
    (hclone : loop.cloneInstructions = some context) : Complete loop context := by
  obtain ⟨hwell, hext, hfixed⟩ := fixups_of_cloneInstructions hclone
  refine ⟨hwell, fun place insn hinsn user huser hneeds => ?_, hfixed, fun place insn hinsn => ?_,
    hlocal⟩
  · rw [hext.header]
    exact mem_headerFixup_clonedContext.mpr ⟨hinsn, user, huser, hneeds⟩
  · rw [hext.header] at hinsn
    obtain ⟨-, user, huser, -⟩ := mem_headerFixup_clonedContext.mp hinsn
    exact ne_nil_of_mem huser

/-! ## When the maps can be completed -/

/-- A fixup that was created leads to cloned instructions only. -/
theorem not_takesOwnClone_of_created (hwell : WellFormed loop [] context)
    (hphi : phi ∈ loop.headerPhis) (hcreated : context.Created (loop.fixupOf phi)) :
    ¬ loop.TakesOwnClone phi := by
  intro htakes
  induction htakes with
  | here hposition hnot =>
    rw [fixupOf, hposition] at hcreated
    exact hnot (hwell.header .inside _ hcreated)
  | @there phi hinput _ ih =>
    rw [fixupOf, position_of_mem_phis (mem_headerPhis.mp hinput).1] at hcreated
    obtain ⟨hheader, hstate⟩ := hwell.interlace .inside _ hcreated
    exact ih hheader (hstate.resolve_left not_mem_nil).2

section Exists

variable {rank : Fin insns → ℕ}
  (hrank : ∀ phi ∈ loop.headerPhis, loop.phiInput phi loop.backBlock ∈ loop.headerPhis →
    rank (loop.phiInput phi loop.backBlock) < rank phi)
  {headers : Place → List (Fin insns)}
  (hheaders : ∀ phi ∈ loop.headerPhis, loop.phiInput phi loop.backBlock ∈ loop.cloned →
    loop.phiInput phi loop.backBlock ∈ headers .inside)

include hheaders

theorem exists_getPhiFixupWith
    {interlace : Fin insns → FBLContext insns → Option (Target insns × FBLContext insns)}
    (hphi : phi ∈ loop.headerPhis) (htakes : ¬ loop.TakesOwnClone phi)
    (hcontext : context.headerFixup = headers)
    (hinterlace : loop.phiInput phi loop.backBlock ∈ loop.headerPhis →
      ∃ result, interlace (loop.phiInput phi loop.backBlock) context = some result) :
    ∃ result, loop.getPhiFixupWith interlace phi context = some result := by
  rw [getPhiFixupWith]
  cases context.phiFixup.lookup phi with
  | some fixup => exact ⟨_, rfl⟩
  | none =>
    dsimp only
    cases hposition : loop.getInstructionPosition (loop.phiInput phi loop.backBlock) with
    | header =>
      have hcloned : loop.phiInput phi loop.backBlock ∈ loop.cloned := by
        by_contra hnot
        exact htakes (.here hposition hnot)
      have hmem := hheaders phi hphi hcloned
      rw [← hcontext] at hmem
      rw [if_pos hmem]
      exact ⟨_, rfl⟩
    | phi =>
      obtain ⟨result, hres⟩ := hinterlace (mem_headerPhis_of_position hposition)
      rw [hres]
      exact ⟨_, rfl⟩
    | exit | backEdge | clone => exact ⟨_, rfl⟩

include hrank

theorem exists_getPhiInterlaceFixup (fuel : ℕ) :
    ∀ (place : Place), ∀ phi ∈ loop.headerPhis, rank phi < fuel → ¬ loop.TakesOwnClone phi →
      ∀ context, context.headerFixup = headers →
        ∃ result, loop.getPhiInterlaceFixup fuel place phi context = some result := by
  induction fuel with
  | zero => exact fun _ _ _ hlt => absurd hlt (Nat.not_lt_zero _)
  | succ fuel ih =>
    intro place phi hphi hlt htakes context hcontext
    rw [getPhiInterlaceFixup]
    split
    · exact ⟨_, rfl⟩
    · have hinterlace : loop.phiInput phi loop.backBlock ∈ loop.headerPhis →
          ∃ result, loop.getPhiInterlaceFixup fuel .inside (loop.phiInput phi loop.backBlock)
            (context.addInterlace phi place) = some result := fun hinput =>
        ih .inside _ hinput (Nat.lt_of_lt_of_le (hrank phi hphi hinput) (Nat.le_of_lt_succ hlt))
          (fun hother => htakes (.there hinput hother)) _ hcontext
      have hadded : (context.addInterlace phi place).headerFixup = headers := hcontext
      obtain ⟨result, hres⟩ := exists_getPhiFixupWith hheaders hphi htakes hadded hinterlace
      rw [hres]
      exact ⟨_, rfl⟩

variable (hbound : ∀ phi, rank phi ≤ (graph.code.phis loop.header).length)

include hbound

theorem exists_fixHeaderPhisUses (hphi : phi ∈ loop.headerPhis)
    (hneeded : loop.FixupNeeded phi → ¬ loop.TakesOwnClone phi)
    (hwell : WellFormed loop [] context) (hcontext : context.headerFixup = headers) :
    ∃ context', loop.fixHeaderPhisUses context phi = some context' ∧
      WellFormed loop [] context' ∧ context'.headerFixup = headers := by
  have hdepth : ∀ phi, rank phi < loop.depth := fun phi =>
    Nat.lt_of_le_of_lt (hbound phi) (Nat.lt_add_of_pos_right (Nat.zero_lt_two))
  have hfixup : loop.clonedUsers phi ≠ [] → ∀ context : FBLContext insns,
      context.headerFixup = headers → ∃ result, loop.getPhiFixup phi context = some result := by
    intro hclones context hcontext
    have htakes := hneeded (.inr hclones)
    refine exists_getPhiFixupWith hheaders hphi htakes hcontext fun hinput => ?_
    exact exists_getPhiInterlaceFixup hrank hheaders loop.depth .inside _ hinput (hdepth _)
      (fun hother => htakes (.there hinput hother)) _ hcontext
  have huse : ∀ first, ∀ user ∈ loop.users phi,
      WellFormed loop [] first ∧ first.headerFixup = headers →
      ∃ second, loop.fixHeaderPhiUse phi first user = some second ∧
        WellFormed loop [] second ∧ second.headerFixup = headers := by
    intro first user huser hinv
    have hinterlace : ∀ place, loop.FixupNeeded phi → ∃ second,
        (loop.getPhiInterlaceFixup loop.depth place phi first).map snd = some second := by
      intro place hneeds
      obtain ⟨result, hres⟩ := exists_getPhiInterlaceFixup hrank hheaders loop.depth _ phi
        hphi (hdepth phi) (hneeded hneeds) _ hinv.2
      exact ⟨_, congrArg (Option.map snd) hres⟩
    have hexists : ∃ second, loop.fixHeaderPhiUse phi first user = some second := by
      rw [fixHeaderPhiUse]
      cases hposition : loop.getInstructionPosition user with
      | header | phi => exact ⟨_, rfl⟩
      | exit => exact hinterlace .outside (.inl ⟨user, huser, .inl hposition⟩)
      | backEdge => exact hinterlace .inside (.inl ⟨user, huser, .inr hposition⟩)
      | clone => exact absurd hposition (position_ne_clone user)
    obtain ⟨second, hsnd⟩ := hexists
    obtain ⟨hsecondWell, hext, -⟩ := fixHeaderPhiUse_spec hphi hinv.1 hsnd
    exact ⟨second, hsnd, hsecondWell, hext.header.trans hinv.2⟩
  obtain ⟨middle, husers, hmiddle⟩ := exists_foldlM
    (fun context => WellFormed loop [] context ∧ context.headerFixup = headers) huse
    ⟨hwell, hcontext⟩
  have hclone : ∀ first, ∀ user ∈ loop.clonedUsers phi,
      WellFormed loop [] first ∧ first.headerFixup = headers →
      ∃ second, (loop.getPhiFixup phi first).map snd = some second ∧
        WellFormed loop [] second ∧ second.headerFixup = headers := by
    intro first user huser hinv
    obtain ⟨result, hres⟩ := hfixup (ne_nil_of_mem huser) _ hinv.2
    have hspec := getPhiFixup_spec hinv.1 hres
    exact ⟨result.2, congrArg (Option.map snd) hres, hspec.wellFormed,
      hspec.extend.header.trans hinv.2⟩
  obtain ⟨after, hclones, hafter⟩ := exists_foldlM
    (fun context => WellFormed loop [] context ∧ context.headerFixup = headers) hclone hmiddle
  exact ⟨after, Option.bind_eq_some_iff.mpr ⟨middle, husers, hclones⟩, hafter⟩

end Exists

/-- A phi uses what it takes from a predecessor. -/
theorem mem_users_phiInput {src b : Fin blocks} (hphi : phi ∈ graph.code.phis b)
    (hdegen : loop.isDegenerate phi = false) (hedge : b ∈ graph.code.succs src) :
    phi ∈ loop.users (loop.phiInput phi src) := by
  have hblock := getBlock_of_mem_phis hphi
  rw [users, mem_filter, allInputs, hblock, if_pos hphi, hdegen]
  refine ⟨mem_finRange _, ?_⟩
  rw [Bool.not_false, Bool.and_true, decide_eq_true_eq]
  refine mem_map_of_mem (mem_filter.mpr ⟨mem_finRange _, ?_⟩)
  exact decide_eq_true hedge

/-- All fixups are defined unless a phi that needs one takes an instruction of the header that
is not cloned. -/
theorem exists_cloneInstructions_iff (hheader : loop.checkLoopHeader)
    (hback : loop.header ∈ graph.code.succs loop.backBlock) :
    (∃ context, loop.cloneInstructions = some context) ↔
      ∀ phi ∈ loop.headerPhis, loop.FixupNeeded phi → ¬ loop.TakesOwnClone phi := by
  constructor
  · rintro ⟨context, hclone⟩ phi hphi hneeded
    obtain ⟨hwell, -, hfixed⟩ := fixups_of_cloneInstructions hclone
    apply not_takesOwnClone_of_created hwell hphi
    have hinterlace : ∀ place, phi ∈ context.interlacePhiFixup place →
        context.Created (loop.fixupOf phi) := fun place hmem =>
      ((hwell.interlace _ phi hmem).2.resolve_left not_mem_nil).2
    rcases hneeded with ⟨user, huser, hexit | hinside⟩ | hclones
    · exact hinterlace .outside ((hfixed phi hphi).outside _ huser hexit)
    · exact hinterlace .inside ((hfixed phi hphi).inside _ huser hinside)
    · obtain ⟨fixup, hfixup⟩ := (hfixed phi hphi).clone hclones
      obtain ⟨rfl, hcreated⟩ := hwell.fixup phi _ hfixup
      exact hcreated
  · intro hnot
    obtain ⟨rank, hbound, hrank⟩ := exists_rank hheader
    have hheaders : ∀ phi ∈ loop.headerPhis, loop.phiInput phi loop.backBlock ∈ loop.cloned →
        loop.phiInput phi loop.backBlock ∈ (clonedContext loop).headerFixup .inside := by
      intro phi hphi hcloned
      obtain ⟨hmem, hdegen⟩ := mem_headerPhis.mp hphi
      refine mem_headerFixup_clonedContext.mpr
        ⟨hcloned, phi, mem_users_phiInput hmem hdegen hback, ?_⟩
      exact .inr (position_of_mem_phis hmem)
    obtain ⟨context, hclone, -⟩ := exists_foldlM (fun context => WellFormed loop [] context ∧
        context.headerFixup = (clonedContext loop).headerFixup)
      (fun context phi hphi hinv =>
        exists_fixHeaderPhisUses hrank hheaders hbound hphi (hnot phi hphi) hinv.1 hinv.2)
      ⟨wellFormed_clonedContext, rfl⟩
    exact ⟨context, hclone⟩

end NougatArt.BottomLoops
