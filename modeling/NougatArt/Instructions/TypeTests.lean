import NougatArt.Core.FlowGraph
import NougatArt.Core.ParentChain
import NougatArt.Hir.Types

/-!
# Folded type tests

The instruction simplifier decides type tests from the static types of their objects, with
`Class::IsAssignableFrom` of the runtime. A test that succeeds for the static type succeeds for
every object of that type. A test is said to fail if neither type is assignable to the other and
none of them is an interface; an array class is no interface, but its elements may be of one.
-/

namespace NougatArt.TypeTests

open Option

open Bool

open List

/-- A class of the runtime; an array class has a component class. -/
inductive Klass (Name : Type)
  | primitive (type : PrimitiveType)
  | named (name : Name)
  | array (component : Klass Name)
  deriving DecidableEq

/-- The classes and interfaces that exist when the code runs. An interface table lists all
interfaces of a class, also those of its super classes and of other interfaces. -/
structure Hierarchy (Name : Type) where
  object : Name
  superClass : Name → Option Name
  superClasses : Name → List Name
  isInterface : Name → Bool
  ifTable : Name → List Name
  arrayIfTable : List Name
  chain : ∀ name, ParentChain superClass name (superClasses name)
  superClass_eq_none : ∀ name, superClass name = none ↔ name = object
  eq_of_isInterface : ∀ name, ∀ other ∈ superClasses name, isInterface other = true → other = name
  ifTable_super : ∀ name, ∀ other ∈ superClasses name, ifTable other ⊆ ifTable name
  ifTable_trans : ∀ name, ∀ other ∈ ifTable name, ifTable other ⊆ ifTable name
  arrayIfTable_trans : ∀ other ∈ arrayIfTable, ifTable other ⊆ arrayIfTable
  ifTable_object : ifTable object = []
  object_isInterface : isInterface object = false

variable {Name : Type} [DecidableEq Name]

def Klass.isPrimitive : Klass Name → Bool
  | primitive _ => true
  | named _ | array _ => false

namespace Hierarchy

section Runtime

variable (types : Hierarchy Name)

/-- The access flags of an array class are without that of an interface. -/
def isInterfaceClass : Klass Name → Bool
  | .named name => types.isInterface name
  | .primitive _ | .array _ => false

def isObjectClass : Klass Name → Bool
  | .named name => (types.superClass name).isNone
  | .primitive _ | .array _ => false

/-- `Class::Implements`, a scan of the interface table. -/
def implements : Klass Name → Klass Name → Bool
  | .named name, .named interface => interface ∈ types.ifTable name
  | .array _, .named interface => interface ∈ types.arrayIfTable
  | _, _ => false

/-- `Class::IsSubClass`, a walk over the super classes. -/
def isSubClass : Klass Name → Klass Name → Bool
  | .named name, .named other => other ∈ types.superClasses name
  | _, _ => false

/-- `Class::IsAssignableFrom`, with its parts for arrays. -/
def isAssignableFrom (this src : Klass Name) : Bool :=
  if this = src then true
  else if types.isObjectClass this then !src.isPrimitive
  else if types.isInterfaceClass this then types.implements src this
  else
    match this, src with
    | .array component, .array srcComponent => isAssignableFrom component srcComponent
    | this, .array _ => this = .named types.object
    | this, src => !types.isInterfaceClass src && types.isSubClass src this

end Runtime

/-! ## Assignment as a relation -/

inductive Assignable (types : Hierarchy Name) : Klass Name → Klass Name → Prop
  | refl (klass : Klass Name) : Assignable types klass klass
  | object {src : Klass Name} : src.isPrimitive = false → Assignable types (.named types.object) src
  | interface {name : Name} {src : Klass Name} : types.isInterface name = true →
      types.implements src (.named name) = true → Assignable types (.named name) src
  | super {name other : Name} : types.isInterface name = false →
      other ∈ types.superClasses name → Assignable types (.named other) (.named name)
  | array {component srcComponent : Klass Name} : Assignable types component srcComponent →
      Assignable types (.array component) (.array srcComponent)

variable {types : Hierarchy Name} {this src other : Klass Name} {name : Name}

theorem Assignable.isPrimitive_eq (h : types.Assignable this src) :
    this.isPrimitive = src.isPrimitive := by
  cases h with
  | refl => rfl
  | object hsrc => exact hsrc.symm
  | interface _ himplements =>
    cases src with
    | primitive => cases himplements
    | named | array => rfl
  | super | array => rfl

theorem isAssignableFrom_iff : types.isAssignableFrom this src ↔ types.Assignable this src := by
  constructor
  · intro h
    induction this generalizing src with
    | primitive type =>
      by_cases heq : .primitive type = src
      · exact heq ▸ .refl _
      · rw [isAssignableFrom.eq_def, if_neg heq] at h
        cases src with
        | named => exact absurd (and_eq_true_iff.mp h).2 false_ne_true
        | primitive | array => cases h
    | named name =>
      rw [isAssignableFrom.eq_def] at h
      split_ifs at h with heq hobject hinterface
      · exact heq ▸ .refl _
      · obtain rfl := (types.superClass_eq_none name).mp (isNone_iff_eq_none.mp hobject)
        exact .object ((not_eq_true' _).mp h)
      · exact .interface hinterface h
      · cases src with
        | primitive => cases h
        | named srcName =>
          obtain ⟨hclass, hmem⟩ := and_eq_true_iff.mp h
          exact .super ((not_eq_true' _).mp hclass) (of_decide_eq_true hmem)
        | array =>
          rw [of_decide_eq_true h]
          exact .object rfl
    | array component ih =>
      by_cases heq : .array component = src
      · exact heq ▸ .refl _
      · rw [isAssignableFrom.eq_def, if_neg heq] at h
        cases src with
        | primitive => cases h
        | named => exact absurd (and_eq_true_iff.mp h).2 false_ne_true
        | array srcComponent => exact .array (ih h)
  · intro h
    induction h with
    | refl => rw [isAssignableFrom.eq_def, if_pos rfl]
    | @object src hsrc =>
      have hobject : types.isObjectClass (.named types.object) = true :=
        isNone_iff_eq_none.mpr ((types.superClass_eq_none _).mpr rfl)
      rw [isAssignableFrom.eq_def, if_pos hobject, hsrc]
      exact ite_self _
    | @interface name src hinterface himplements =>
      have hobject : ¬ types.isObjectClass (.named name) = true := by
        intro hobject
        obtain rfl := (types.superClass_eq_none name).mp (isNone_iff_eq_none.mp hobject)
        exact false_ne_true (types.object_isInterface.symm.trans hinterface)
      have hthis : types.isInterfaceClass (.named name) = true := hinterface
      rw [isAssignableFrom.eq_def, if_neg hobject, if_pos hthis, himplements]
      exact ite_self _
    | @super name other hclass hmem =>
      have hinterface : ¬ types.isInterfaceClass (.named other) = true := by
        intro hinterface
        obtain rfl := types.eq_of_isInterface _ _ hmem hinterface
        exact false_ne_true (hclass.symm.trans hinterface)
      rw [isAssignableFrom.eq_def, if_neg hinterface]
      simp [isInterfaceClass, isSubClass, Klass.isPrimitive, hclass, hmem]
    | array _ ih =>
      rw [isAssignableFrom.eq_def]
      simp [isObjectClass, isInterfaceClass, ih]

theorem Assignable.implements (h : types.Assignable this src)
    (himplements : types.implements this (.named name)) : types.implements src (.named name) := by
  cases h with
  | refl | array => exact himplements
  | object =>
    rw [Hierarchy.implements, types.ifTable_object] at himplements
    simp at himplements
  | interface _ hsrc =>
    have hname := of_decide_eq_true himplements
    cases src with
    | primitive => cases hsrc
    | named srcName =>
      exact decide_eq_true (types.ifTable_trans _ _ (of_decide_eq_true hsrc) hname)
    | array => exact decide_eq_true (types.arrayIfTable_trans _ (of_decide_eq_true hsrc) hname)
  | super _ hmem =>
    exact decide_eq_true (types.ifTable_super _ _ hmem (of_decide_eq_true himplements))

omit [DecidableEq Name] in
theorem eq_object_of_mem (hmem : name ∈ types.superClasses types.object) : name = types.object := by
  have hchain : ParentChain types.superClass types.object [types.object] :=
    .root ((types.superClass_eq_none _).mpr rfl)
  rw [(types.chain types.object).unique hchain] at hmem
  exact mem_singleton.mp hmem

theorem Assignable.trans (hthis : types.Assignable this other)
    (hother : types.Assignable other src) :
    types.Assignable this src := by
  induction hthis generalizing src with
  | refl => exact hother
  | object hprimitive => exact .object (hother.isPrimitive_eq.symm.trans hprimitive)
  | interface hinterface himplements => exact .interface hinterface (hother.implements himplements)
  | @super name upper hclass hmem =>
    cases hother with
    | refl => exact .super hclass hmem
    | object hprimitive =>
      rw [eq_object_of_mem hmem]
      exact .object hprimitive
    | interface hinterface => exact absurd (hclass.symm.trans hinterface) false_ne_true
    | @super lower _ hlower hmem' =>
      exact .super hlower ((types.chain lower).subset_of_mem hmem' (types.chain name) hmem)
  | array hcomponents ih =>
    cases hother with
    | refl => exact .array hcomponents
    | array hother => exact .array (ih hother)

/-- Where two classes stop being arrays, none of them is an interface. -/
def plainElements (types : Hierarchy Name) : Klass Name → Klass Name → Bool
  | .array component, .array component' => types.plainElements component component'
  | klass, klass' => !types.isInterfaceClass klass && !types.isInterfaceClass klass'

omit [DecidableEq Name] in
theorem not_isInterface_of_plainElements (hplain : types.plainElements (.named name) other ∨
      types.plainElements other (.named name)) : types.isInterface name = false := by
  cases other <;> simp [plainElements, isInterfaceClass] at hplain <;> tauto

/-- The super classes of a class are assignable one to another. -/
theorem Assignable.comparable (hthis : types.Assignable this src)
    (hother : types.Assignable other src) (hplain : types.plainElements this other) :
    types.Assignable this other ∨ types.Assignable other this := by
  induction hthis generalizing other with
  | refl => exact .inr hother
  | object hprimitive => exact .inl (.object (hother.isPrimitive_eq.trans hprimitive))
  | interface hinterface =>
    have hclass := not_isInterface_of_plainElements (.inl hplain)
    exact absurd (hclass.symm.trans hinterface) false_ne_true
  | @super name upper hclass hmem =>
    cases hother with
    | refl => exact .inl (.super hclass hmem)
    | object => exact .inr (.object rfl)
    | interface hinterface =>
      have hclass := not_isInterface_of_plainElements (.inr hplain)
      exact absurd (hclass.symm.trans hinterface) false_ne_true
    | @super _ upper' _ hmem' =>
      -- Of two super classes the one with the shorter chain is above the other.
      have hchain := types.chain name
      rcases le_total (types.superClasses upper).length (types.superClasses upper').length with
        hle | hle
      · exact .inl (.super (not_isInterface_of_plainElements (.inr hplain))
          (hchain.mem_of_length_le hmem' (types.chain upper') hmem (types.chain upper) hle))
      · exact .inr (.super (not_isInterface_of_plainElements (.inl hplain))
          (hchain.mem_of_length_le hmem (types.chain upper) hmem' (types.chain upper') hle))
  | array hcomponents ih =>
    cases hother with
    | refl => exact .inl (.array hcomponents)
    | object => exact .inr (.object rfl)
    | interface hinterface =>
      have hclass := not_isInterface_of_plainElements (.inr hplain)
      exact absurd (hclass.symm.trans hinterface) false_ne_true
    | array hother => exact (ih hother hplain).imp .array .array

end Hierarchy

/-! ## The simplifier -/

/-- What is known of a reference: its class if it is valid, and whether that is the class itself. -/
structure ReferenceTypeInfo (Name : Type) where
  typeHandle : Option (Klass Name)
  isExact : Bool

structure HLoadClass (Name : Type) where
  klass : Klass Name
  isResolved : Bool
  needsAccessCheck : Bool
  deriving DecidableEq

def HLoadClass.getLoadedClassRTI (load : HLoadClass Name) : ReferenceTypeInfo Name :=
  ⟨if load.isResolved then some load.klass else none, load.isResolved⟩

inductive Kind (Name : Type) (insns : ℕ)
  | nullConstant
  | nullCheck (object : Fin insns)
  | checkCast (object : Fin insns) (load : HLoadClass Name)
  | instanceOf (object : Fin insns) (load : HLoadClass Name)
  | other
  deriving DecidableEq

def Kind.object? {insns : ℕ} : Kind Name insns → Option (Fin insns)
  | nullCheck object | checkCast object _ | instanceOf object _ => some object
  | nullConstant | other => none

/-- A graph at the level of single instructions. An edge leads to an instruction that may be
performed next, also to the handlers of what the next instruction throws. -/
structure HGraph (Name : Type) (insns : ℕ) where
  flow : FlowGraph (Fin insns)
  kind : Fin insns → Kind Name insns
  canBeNull : Fin insns → Bool
  info : Fin insns → ReferenceTypeInfo Name
  dominates : ∀ insn object, (kind insn).object? = some object →
    flow.Dominates object insn ∧ object ≠ insn

inductive Replacement
  | constant (value : Bool)
  | notNull
  deriving DecidableEq

section Visitor

variable (types : Hierarchy Name)

def typeCheckHasKnownOutcome (load : HLoadClass Name) (objRti : ReferenceTypeInfo Name) :
    Option Bool :=
  match objRti.typeHandle, load.getLoadedClassRTI.typeHandle with
  | some obj, some klass =>
    if types.isAssignableFrom klass obj then some true
    else if objRti.isExact then some false
    else if !types.isInterfaceClass klass && !types.isInterfaceClass obj &&
        !types.isAssignableFrom obj klass then some false
    else none
  | _, _ => none

variable {insns : ℕ} (graph : HGraph Name insns)

def canEnsureNotNullAt (input point : Fin insns) : Bool :=
  !graph.canBeNull input || decide (∃ user, graph.kind user = .nullCheck input ∧
    user ≠ point ∧ graph.flow.Dominates user point)

def visitCheckCast (object : Fin insns) (load : HLoadClass Name) : Bool :=
  if load.needsAccessCheck then false
  else if graph.kind object = .nullConstant then true
  else typeCheckHasKnownOutcome types load (graph.info object) = some true

def visitInstanceOf (insn object : Fin insns) (load : HLoadClass Name) : Option Replacement :=
  if load.needsAccessCheck then none
  else if graph.kind object = .nullConstant then some (.constant false)
  else (typeCheckHasKnownOutcome types load (graph.info object)).map fun outcome =>
    if outcome && !canEnsureNotNullAt graph object insn then .notNull else .constant outcome

end Visitor

section Executions

/-- A reference at run time: null, or an object of a class. -/
abbrev Reference (Name : Type) := Option (Klass Name)

variable (types : Hierarchy Name)

def instanceOf (klass : Klass Name) (reference : Reference Name) : Bool :=
  reference.any (types.isAssignableFrom klass)

def Replacement.value (reference : Reference Name) : Replacement → Bool
  | constant value => value
  | notNull => reference.isSome

def Admits (info : ReferenceTypeInfo Name) (klass : Klass Name) : Prop :=
  ∀ handle, info.typeHandle = some handle →
    if info.isExact then klass = handle else types.isAssignableFrom handle klass = true

/-- The class of the test and an inexact class of the object have no interfaces as elements. -/
def PlainTest (load : HLoadClass Name) (info : ReferenceTypeInfo Name) : Prop :=
  info.isExact = false → ∀ handle, info.typeHandle = some handle →
    types.plainElements handle load.klass = true

variable {insns : ℕ} (graph : HGraph Name insns)

structure Produces (insn : Fin insns) (reference : Reference Name) : Prop where
  null : graph.kind insn = .nullConstant → reference = none
  notNull : graph.canBeNull insn = false → reference ≠ none
  admits : ∀ klass, reference = some klass → Admits types (graph.info insn) klass

/-- The instructions that were performed, the latest first, and the values they have left. -/
inductive Run : List (Fin insns) → (Fin insns → Reference Name) → Prop
  | start (env : Fin insns → Reference Name) : Run [] env
  | step {past : List (Fin insns)} {env : Fin insns → Reference Name} {insn : Fin insns}
      {reference : Reference Name} : Run past env → graph.flow.Trace (insn :: past) →
      (∀ object, graph.kind insn = .nullCheck object → env object ≠ none) →
      Produces types graph insn reference →
      Run (insn :: past) (Function.update env insn reference)

variable {types graph} {past : List (Fin insns)} {env : Fin insns → Reference Name}
  {insn object : Fin insns} {load : HLoadClass Name} {info : ReferenceTypeInfo Name}

theorem Run.produces (hrun : Run types graph past env) (hmem : object ∈ past) :
    Produces types graph object (env object) := by
  induction hrun with
  | start => cases hmem
  | @step past env insn reference _ _ _ hproduces ih =>
    by_cases heq : object = insn
    · subst heq
      rw [Function.update_self]
      exact hproduces
    · rw [Function.update_of_ne heq]
      exact ih ((mem_cons.mp hmem).resolve_left heq)

/-- A reference stays what it was when it was checked. -/
theorem Run.ne_none_of_nullCheck {later earlier : List (Fin insns)} {user : Fin insns}
    (hrun : Run types graph past env) (hsplit : past = later ++ user :: earlier)
    (huser : graph.kind user = .nullCheck object) (hne : object ≠ user)
    (hlater : object ∉ later) : env object ≠ none := by
  induction later generalizing past env with
  | nil =>
    cases hrun with
    | start => cases hsplit
    | step _ _ hchecked _ =>
      obtain ⟨rfl, -⟩ := cons.inj hsplit
      rw [Function.update_of_ne hne]
      exact hchecked _ huser
  | cons head later ih =>
    cases hrun with
    | start => cases hsplit
    | step hrun _ _ _ =>
      obtain ⟨rfl, hrest⟩ := cons.inj hsplit
      obtain ⟨hhead, hlater⟩ := not_or.mp (mt mem_cons.mpr hlater)
      rw [Function.update_of_ne hhead]
      exact ih hrun hrest hlater

section At

variable (hrun : Run types graph past env) (htrace : graph.flow.Trace (insn :: past))
  (hobject : (graph.kind insn).object? = some object)

include hrun htrace hobject

theorem Run.produces_object : Produces types graph object (env object) := by
  obtain ⟨hdom, hne⟩ := graph.dominates _ _ hobject
  exact hrun.produces ((mem_cons.mp (hdom _ htrace)).resolve_left hne)

theorem Run.ne_none (hensure : canEnsureNotNullAt graph object insn) : env object ≠ none := by
  rcases or_eq_true_iff.mp hensure with hnot | hcheck
  · exact (hrun.produces_object htrace hobject).notNull ((not_eq_true' _).mp hnot)
  · obtain ⟨user, huser, hne, hdom⟩ := of_decide_eq_true hcheck
    obtain ⟨hdef, hne'⟩ := graph.dominates user object (congrArg Kind.object? huser)
    obtain ⟨later, earlier, hsplit, hlatest⟩ := eq_append_cons_of_mem (hdom _ htrace)
    have hnot := FlowGraph.notMem_later_of_dominates hdef hdom htrace hne' hsplit hlatest
    cases later with
    | nil => exact absurd (cons.inj hsplit).1.symm hne
    | cons head later =>
      exact hrun.ne_none_of_nullCheck (cons.inj hsplit).2 huser hne'
        fun hmem => hnot (mem_cons_of_mem _ hmem)

end At

theorem isAssignableFrom_of_knownOutcome {klass : Klass Name} {outcome : Bool}
    (hplain : outcome = false → PlainTest types load info)
    (hknown : typeCheckHasKnownOutcome types load info = some outcome)
    (hadmits : Admits types info klass) : types.isAssignableFrom load.klass klass = outcome := by
  unfold typeCheckHasKnownOutcome at hknown
  split at hknown
  case h_2 => cases hknown
  case h_1 obj test hobj htest =>
    have hadmits := hadmits obj hobj
    obtain rfl : load.klass = test := by
      rw [HLoadClass.getLoadedClassRTI] at htest
      split_ifs at htest
      exact some.inj htest
    split_ifs at hknown with hsuper hexact hunrelated
    · cases hknown
      have hklass : types.Assignable obj klass := by
        split_ifs at hadmits
        · exact hadmits ▸ .refl _
        · exact Hierarchy.isAssignableFrom_iff.mp hadmits
      exact Hierarchy.isAssignableFrom_iff.mpr
        ((Hierarchy.isAssignableFrom_iff.mp hsuper).trans hklass)
    · cases hknown
      rw [if_pos hexact] at hadmits
      rw [hadmits]
      exact eq_false_iff.mpr hsuper
    · cases hknown
      rw [if_neg hexact, Hierarchy.isAssignableFrom_iff] at hadmits
      have hplain := hplain rfl (eq_false_iff.mpr hexact) obj hobj
      have hnot : ¬ types.isAssignableFrom obj load.klass = true := by simp_all
      rw [Hierarchy.isAssignableFrom_iff] at hsuper hnot
      rw [eq_false_iff, Ne, Hierarchy.isAssignableFrom_iff]
      exact fun htest => (hadmits.comparable htest hplain).elim hnot hsuper

/-- A decided test has its outcome for every object that the static information admits, removed
casts succeed and replaced instance tests keep their values, if tests that are said to fail compare
classes without interfaces as elements. -/
theorem knownOutcomes_agree (types : Hierarchy Name) :
    (∀ load info klass outcome, (outcome = false → PlainTest types load info) →
      typeCheckHasKnownOutcome types load info = some outcome → Admits types info klass →
      types.isAssignableFrom load.klass klass = outcome) ∧
    ∀ {insns : ℕ} (graph : HGraph Name insns) (past : List (Fin insns))
      (env : Fin insns → Reference Name) (insn : Fin insns), Run types graph past env →
      graph.flow.Trace (insn :: past) → (∀ object load, graph.kind insn = .checkCast object load →
        visitCheckCast types graph object load = true →
        env object = none ∨ instanceOf types load.klass (env object) = true) ∧
      ∀ object load replacement, graph.kind insn = .instanceOf object load →
        (typeCheckHasKnownOutcome types load (graph.info object) = some false →
          PlainTest types load (graph.info object)) →
        visitInstanceOf types graph insn object load = some replacement →
        replacement.value (env object) = instanceOf types load.klass (env object) := by
  refine ⟨fun load info klass outcome => isAssignableFrom_of_knownOutcome,
    fun graph past env insn hrun htrace => ⟨fun object load hkind hremoved => ?_,
      fun object load replacement hkind hplain hreplaced => ?_⟩⟩
  · have hobject := hrun.produces_object htrace (congrArg Kind.object? hkind)
    unfold visitCheckCast at hremoved
    split_ifs at hremoved with haccess hnull
    · exact .inl (hobject.null hnull)
    · cases henv : env object with
      | none => exact .inl rfl
      | some klass => exact .inr (isAssignableFrom_of_knownOutcome (fun h => by cases h)
          (of_decide_eq_true hremoved) (hobject.admits _ henv))
  · have hobject := hrun.produces_object htrace (congrArg Kind.object? hkind)
    unfold visitInstanceOf at hreplaced
    split_ifs at hreplaced with haccess hnull
    · cases hreplaced
      rw [hobject.null hnull]
      rfl
    obtain ⟨outcome, hknown, rfl⟩ := map_eq_some_iff.mp hreplaced
    have hensure := hrun.ne_none htrace (congrArg Kind.object? hkind)
    cases henv : env object with
    | none =>
      have hnot : canEnsureNotNullAt graph object insn = false :=
        eq_false_iff.mpr fun htrue => hensure htrue henv
      cases outcome <;> simp [hnot, Replacement.value, instanceOf]
    | some klass =>
      have hvalue := isAssignableFrom_of_knownOutcome (fun hfalse => hplain (hfalse ▸ hknown))
        hknown (hobject.admits _ henv)
      rw [instanceOf, any_some, hvalue]
      cases outcome <;> cases canEnsureNotNullAt graph object insn <;> rfl

end Executions

/-! ## Arrays of an interface -/

namespace ArrayTest

inductive JavaClass
  | object
  | runnable
  | foo
  | bar
  deriving DecidableEq

def superClass : JavaClass → Option JavaClass
  | .object => none
  | .runnable | .foo => some .object
  | .bar => some .foo

def superClasses : JavaClass → List JavaClass
  | .object => [.object]
  | .runnable => [.runnable, .object]
  | .foo => [.foo, .object]
  | .bar => [.bar, .foo, .object]

def ifTable : JavaClass → List JavaClass
  | .object | .runnable | .foo => []
  | .bar => [.runnable]

/-- The class `bar` extends `foo` and implements `runnable`. -/
def types : Hierarchy JavaClass where
  object := .object
  superClass := superClass
  superClasses := superClasses
  isInterface name := name = .runnable
  ifTable := ifTable
  arrayIfTable := []
  chain name := by
    cases name
    · exact .root rfl
    · exact .step rfl (.root rfl)
    · exact .step rfl (.root rfl)
    · exact .step rfl (.step rfl (.root rfl))
  superClass_eq_none name := by cases name <;> decide
  eq_of_isInterface name := by cases name <;> decide
  ifTable_super name := by cases name <;> decide
  ifTable_trans name := by cases name <;> decide
  arrayIfTable_trans := by decide
  ifTable_object := rfl
  object_isInterface := rfl

def load : HLoadClass JavaClass := ⟨.array (.named .runnable), true, false⟩

def graph : HGraph JavaClass 2 where
  flow := ⟨0, fun insn => if insn = 0 then [1] else []⟩
  kind insn := if insn = 0 then .other else .instanceOf 0 load
  canBeNull _ := true
  info _ := ⟨some (.array (.named .foo)), false⟩
  dominates := by decide

/-- The test is replaced with false, but an array of `bar` passes it. -/
theorem arrayOfInterface_replaced : visitInstanceOf types graph 1 0 load = some (.constant false) ∧
    ∃ env, Run types graph [0] env ∧ graph.flow.Trace [1, 0] ∧
      instanceOf types load.klass (env 0) = true := by
  have htrace : graph.flow.Trace [0] := .entry
  have hproduces : Produces types graph 0 (some (.array (.named .bar))) := by
    refine ⟨by decide, by decide, ?_⟩
    rintro _ ⟨⟩ _ ⟨⟩
    decide
  exact ⟨by decide, _, .step (.start fun _ => none) htrace (by decide) hproduces,
    .step htrace (by decide), by decide⟩

/-- An object of static type `bar` passes the test for `foo`. -/
theorem bar_instanceOf_foo : types.isAssignableFrom (.named .foo) (.named .bar) = true :=
  (knownOutcomes_agree types).1 ⟨.named .foo, true, false⟩ ⟨some (.named .bar), false⟩ (.named .bar)
    true (fun h => by cases h) (by decide) (by rintro _ ⟨⟩; decide)

end ArrayTest

end NougatArt.TypeTests
