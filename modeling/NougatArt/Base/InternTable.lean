import Mathlib

/-!
# The intern table

`runtime/intern_table.cc`, with the log from which `runtime/transaction.cc` takes back what an
aborted transaction has interned. The lock of the table makes every operation one step. The hash
sets of a `Table` are one list, and strings do not move. An operation has no result while it waits
for the collector, and if the runtime aborts.
-/

namespace NougatArt

open Function Multiset

structure MirrorString where
  address : ℕ
  value : List UInt16

def MirrorString.equals (a b : MirrorString) : Bool := a.value = b.value

inductive StringKind
  | strong
  | weak
  deriving DecidableEq

inductive StringOp
  | insert
  | remove

structure InternStringLog where
  str : MirrorString
  kind : StringKind
  op : StringOp

inductive WeakRootState
  | normal
  | noReadsOrWrites
  | markNewRoots
  deriving DecidableEq

/-- `strong_interns_` and `weak_interns_`, and the log of the active transaction. -/
structure InternTable where
  interns : StringKind → List MirrorString := fun _ => []
  weakRootState : WeakRootState := .normal
  imagesAdded : Bool := false
  logs : Option (List InternStringLog) := none

inductive InternEvent
  | insert (isStrong holdingLocks : Bool) (s : MirrorString)
  | changeWeakRootState (state : WeakRootState)
  | sweepInternTableWeaks (isMarked : MirrorString → Bool)

namespace InternTable

/-- What `LookupStringFromImage` finds. -/
abbrev ImageStrings := (s : MirrorString) → Option {found : MirrorString // found.value = s.value}

variable (image : ImageStrings) (t : InternTable)

/-- `LookupStrongLocked` and `LookupWeakLocked`. -/
def lookup (kind : StringKind) (s : MirrorString) : Option MirrorString :=
  (t.interns kind).find? s.equals

/-- `InsertStrong` and `InsertWeak`. -/
def insertInto (kind : StringKind) (s : MirrorString) : InternTable :=
  { t with
    interns := update t.interns kind (t.interns kind ++ [s])
    logs := t.logs.map (⟨s, kind, .insert⟩ :: ·) }

/-- `RemoveStrong`, which is not recorded, and `RemoveWeak`. -/
def removeFrom (kind : StringKind) (s : MirrorString) : Option InternTable :=
  if (t.interns kind).any s.equals then
    some { t with
      interns := update t.interns kind ((t.interns kind).eraseP s.equals)
      logs := if kind = .weak then t.logs.map (⟨s, kind, .remove⟩ :: ·) else t.logs }
  else none

def insert (isStrong holdingLocks : Bool) (s : MirrorString) :
    Option (MirrorString × InternTable) :=
  if holdingLocks ∧ t.weakRootState ≠ .normal then none
  else
    match t.lookup .strong s with
    | some strong => some (strong, t)
    | none =>
      -- The thread waits while weak strings must not be read; the third state is an error.
      if t.weakRootState ≠ .normal then none
      else
        match t.lookup .weak s with
        | some weak =>
          if isStrong then (t.removeFrom .weak weak).map fun t => (weak, t.insertInto .strong weak)
          else some (weak, t)
        | none =>
          let new := if t.imagesAdded then s else ((image s).map Subtype.val).getD s
          some (new, t.insertInto (if isStrong then .strong else .weak) new)

def step : InternEvent → Option InternTable
  | .insert isStrong holdingLocks s => (t.insert image isStrong holdingLocks s).map Prod.snd
  | .changeWeakRootState state => some { t with weakRootState := state }
  | .sweepInternTableWeaks isMarked =>
    some { t with interns := update t.interns .weak ((t.interns .weak).filter isMarked) }

def run (events : List InternEvent) : Option InternTable := events.foldlM (step image) t

/-- `InternStringLog::Undo`. -/
def undo (log : InternStringLog) : Option InternTable :=
  match log.op with
  | .insert => t.removeFrom log.kind log.str
  | .remove => some (t.insertInto log.kind log.str)

/-- `UndoInternStringTableModifications`, after the end of the transaction. -/
def rollback : Option InternTable := (t.logs.getD []).foldlM undo { t with logs := none }

/-! ## What is interned -/

abbrev Interned := Multiset (StringKind × MirrorString)

def interned (interns : StringKind → List MirrorString) : Interned :=
  ((interns .strong).map (StringKind.strong, ·) ++
    (interns .weak).map (StringKind.weak, ·) : List _)

/-- No two strings are equal. -/
def Distinct (c : Interned) : Prop := (c.map (·.2.value)).Nodup

variable {image t} {t' : InternTable} {s other : MirrorString} {kind : StringKind}
variable {c goal : Interned}
variable {interns : StringKind → List MirrorString} {logs : List InternStringLog}

theorem mem_interned : (kind, s) ∈ interned interns ↔ s ∈ interns kind := by
  cases kind <;> simp [interned]

theorem interned_of_perm {strings : List MirrorString}
    (hperm : (interns kind).Perm (s :: strings)) :
    interned interns = (kind, s) ::ₘ interned (update interns kind strings) := by
  rw [interned, interned, cons_coe, coe_eq_coe]
  cases kind with
  | strong => exact (hperm.map (StringKind.strong, ·)).append_right _
  | weak => exact ((hperm.map (StringKind.weak, ·)).append_left _).trans List.perm_middle

theorem distinct_cons : Distinct ((kind, s) ::ₘ c) ↔
    (∀ p ∈ c, p.2.value ≠ s.value) ∧ Distinct c := by
  rw [Distinct, map_cons, nodup_cons, mem_map, Distinct]
  simp only [not_exists, not_and, ne_eq]

theorem Distinct.eq_of_value {kind' : StringKind} (h : Distinct c) (hs : (kind, s) ∈ c)
    (hother : (kind', other) ∈ c) (hvalue : s.value = other.value) : s = other :=
  congrArg Prod.snd (inj_on_of_nodup_map h _ hs _ hother hvalue)

theorem mem_of_lookup (h : t.lookup kind s = some other) :
    (kind, other) ∈ interned t.interns ∧ other.value = s.value := by
  have hequal : s.equals other := List.find?_some h
  exact ⟨mem_interned.mpr (List.mem_of_find?_eq_some h), (of_decide_eq_true hequal).symm⟩

theorem ne_of_lookup (h : t.lookup kind s = none) (hother : (kind, other) ∈ interned t.interns) :
    other.value ≠ s.value := fun hvalue =>
  List.find?_eq_none.mp h other (mem_interned.mp hother) (decide_eq_true hvalue.symm)

theorem interned_insertInto :
    interned (t.insertInto kind s).interns = (kind, s) ::ₘ interned t.interns := by
  have hperm : ((t.insertInto kind s).interns kind).Perm (s :: t.interns kind) := by
    simp [insertInto]
  rw [interned_of_perm hperm]
  simp [insertInto]

theorem exists_removeFrom (h : Distinct (interned t.interns))
    (hs : (kind, s) ∈ interned t.interns) :
    ∃ t', t.removeFrom kind s = some t' ∧ interned t.interns = (kind, s) ::ₘ interned t'.interns ∧
      t'.logs = if kind = .weak then t.logs.map (⟨s, kind, .remove⟩ :: ·) else t.logs := by
  have hmem := mem_interned.mp hs
  have hself : s.equals s := decide_eq_true rfl
  obtain ⟨found, before, after, -, hfound, hsplit, herase⟩ := List.exists_of_eraseP hmem hself
  obtain rfl : s = found := h.eq_of_value hs
    (mem_interned.mpr (by rw [hsplit]; simp)) (of_decide_eq_true hfound)
  refine ⟨_, if_pos (List.any_eq_true.mpr ⟨s, hmem, hself⟩), interned_of_perm ?_, rfl⟩
  rw [herase, hsplit]
  exact List.perm_middle

/-- The entries of a log, the latest one first, lead from what is interned back to what was. -/
inductive Undoes : List InternStringLog → Interned → Interned → Prop
  | nil (c : Interned) : Undoes [] c c
  | insert {logs : _} {c goal : Interned} (s : MirrorString) (kind : StringKind) :
      Undoes logs c goal → Undoes (⟨s, kind, .insert⟩ :: logs) ((kind, s) ::ₘ c) goal
  | remove {logs : _} {c goal : Interned} (s : MirrorString) (kind : StringKind) :
      Distinct ((kind, s) ::ₘ c) →
      Undoes logs ((kind, s) ::ₘ c) goal → Undoes (⟨s, kind, .remove⟩ :: logs) c goal

theorem Undoes.trans {logs' : List InternStringLog} {middle : Interned}
    (h : Undoes logs c middle) (h' : Undoes logs' middle goal) : Undoes (logs ++ logs') c goal := by
  induction h with
  | nil => exact h'
  | insert s kind _ ih => exact .insert s kind (ih h')
  | remove s kind hdistinct _ ih => exact .remove s kind hdistinct (ih h')

theorem Undoes.exists_undo (h : Undoes logs c goal) (hc : interned t.interns = c)
    (hdistinct : Distinct c) (hlogs : t.logs = none) :
    ∃ t', logs.foldlM undo t = some t' ∧ interned t'.interns = goal := by
  induction h generalizing t with
  | nil => exact ⟨t, rfl, hc⟩
  | insert s kind _ ih =>
    obtain ⟨t₁, hremove, hcons, hlogs₁⟩ :=
      exists_removeFrom (hc ▸ hdistinct) (hc ▸ mem_cons_self (kind, s) _)
    obtain ⟨t', hrest, hgoal⟩ := ih ((cons_inj_right _).mp (hcons.symm.trans hc))
      (distinct_cons.mp hdistinct).2 (by rw [hlogs₁, hlogs]; exact ite_self none)
    refine ⟨t', ?_, hgoal⟩
    rw [List.foldlM_cons, undo, hremove]
    exact hrest
  | remove s kind hcons _ ih =>
    refine ih (t := t.insertInto kind s) ?_ hcons (by rw [insertInto, hlogs]; rfl)
    rw [interned_insertInto, hc]

/-- The log of a transaction undoes what has been done. -/
def Recorded (t t' : InternTable) : Prop :=
  ∃ logs, t'.logs = t.logs.map (logs ++ ·) ∧ Undoes logs (interned t'.interns) (interned t.interns)

theorem Recorded.refl (t : InternTable) : Recorded t t := ⟨[], by simp, .nil _⟩

theorem Recorded.trans {t₁ : InternTable} (h : Recorded t t₁) (h' : Recorded t₁ t') :
    Recorded t t' := by
  obtain ⟨logs, hlogs, hundoes⟩ := h
  obtain ⟨logs', hlogs', hundoes'⟩ := h'
  refine ⟨logs' ++ logs, ?_, hundoes'.trans hundoes⟩
  simp [hlogs', hlogs, comp_def]

theorem Recorded.insertInto (t : InternTable) (kind : StringKind) (s : MirrorString) :
    Recorded t (t.insertInto kind s) :=
  ⟨[⟨s, kind, .insert⟩], rfl, interned_insertInto ▸ .insert s kind (.nil _)⟩

def KeepsStrong (t t' : InternTable) : Prop :=
  ∀ s, (.strong, s) ∈ interned t.interns → (.strong, s) ∈ interned t'.interns

/-- What `Insert` returns and does. -/
theorem insert_spec {isStrong holdingLocks : Bool} (h : Distinct (interned t.interns))
    (hinsert : t.insert image isStrong holdingLocks s = some (other, t')) :
    other.value = s.value ∧ Distinct (interned t'.interns) ∧
      (isStrong → (.strong, other) ∈ interned t'.interns) ∧ KeepsStrong t t' ∧ Recorded t t' := by
  rw [insert] at hinsert
  split at hinsert
  · cases hinsert
  split at hinsert
  next strong hstrong =>
    cases hinsert
    obtain ⟨hmem, hvalue⟩ := mem_of_lookup hstrong
    exact ⟨hvalue, h, fun _ => hmem, fun _ => id, .refl t⟩
  next hstrong =>
  split at hinsert
  · cases hinsert
  split at hinsert
  next weak hweak =>
    obtain ⟨hmem, hvalue⟩ := mem_of_lookup hweak
    split at hinsert
    next =>
      obtain ⟨t₁, hremove, hold, hlogs⟩ := exists_removeFrom h hmem
      rw [hremove] at hinsert
      cases hinsert
      have hdistinct := hold ▸ h
      rw [interned_insertInto]
      refine ⟨hvalue, distinct_cons.mpr (distinct_cons.mp hdistinct), fun _ => mem_cons_self _ _,
        fun s hs => ?_, Recorded.trans ⟨[⟨other, .weak, .remove⟩], hlogs, ?_⟩ (.insertInto ..)⟩
      · rw [hold, mem_cons, Prod.mk.injEq] at hs
        exact interned_insertInto ▸ mem_cons_of_mem (hs.resolve_left (by simp))
      · exact .remove _ _ hdistinct (hold ▸ .nil _)
    next hisStrong =>
      cases hinsert
      exact ⟨hvalue, h, fun his => absurd his hisStrong, fun _ => id, .refl t⟩
  next hweak =>
    cases hinsert
    have hvalue :
        (if t.imagesAdded then s else ((image s).map Subtype.val).getD s).value = s.value := by
      split
      · rfl
      · cases image s with
        | none => rfl
        | some found => exact found.property
    have hdifferent : ∀ p ∈ interned t.interns, p.2.value ≠ s.value := by
      rintro ⟨_ | _, other⟩ hother
      exacts [ne_of_lookup hstrong hother, ne_of_lookup hweak hother]
    refine ⟨hvalue, ?_, fun his => ?_, fun s hs => ?_, .insertInto ..⟩
    · exact interned_insertInto ▸ distinct_cons.mpr ⟨hvalue.symm ▸ hdifferent, h⟩
    · rw [interned_insertInto, if_pos his]
      exact mem_cons_self _ _
    · exact interned_insertInto ▸ mem_cons_of_mem hs

variable {event : InternEvent} {events : List InternEvent}

/-- What is not a sweep is undone by what it records. -/
theorem step_spec (h : Distinct (interned t.interns)) (hstep : t.step image event = some t') :
    Distinct (interned t'.interns) ∧ KeepsStrong t t' ∧
      ((∀ isMarked, event ≠ .sweepInternTableWeaks isMarked) → Recorded t t') := by
  cases event with
  | insert isStrong holdingLocks s =>
    obtain ⟨⟨found, t'⟩, hinsert, rfl⟩ := Option.map_eq_some_iff.mp hstep
    obtain ⟨-, hdistinct, -, hstrong, hrecorded⟩ := insert_spec h hinsert
    exact ⟨hdistinct, hstrong, fun _ => hrecorded⟩
  | changeWeakRootState state =>
    cases hstep
    exact ⟨h, fun _ => id, fun _ => .refl _⟩
  | sweepInternTableWeaks isMarked =>
    cases hstep
    refine ⟨?_, fun s hs => ?_, fun hne => absurd rfl (hne isMarked)⟩
    · refine nodup_of_le (map_le_map (coe_le.mpr (List.Sublist.subperm ?_))) h
      exact List.Sublist.append_left (List.filter_sublist.map _) _
    · rw [mem_interned] at hs ⊢
      exact hs

theorem run_spec (h : Distinct (interned t.interns)) (hrun : t.run image events = some t') :
    Distinct (interned t'.interns) ∧ KeepsStrong t t' ∧
      ((∀ isMarked, .sweepInternTableWeaks isMarked ∉ events) → Recorded t t') := by
  induction events generalizing t with
  | nil =>
    cases hrun
    exact ⟨h, fun _ => id, fun _ => .refl _⟩
  | cons event events ih =>
    rw [run, List.foldlM_cons] at hrun
    obtain ⟨t₁, hstep, hrest⟩ := Option.bind_eq_some_iff.mp hrun
    obtain ⟨h₁, hstrong₁, hrecorded₁⟩ := step_spec h hstep
    obtain ⟨h', hstrong, hrecorded⟩ := ih h₁ hrest
    refine ⟨h', fun s hs => hstrong s (hstrong₁ s hs), fun hno => ?_⟩
    have hfirst := hrecorded₁ fun isMarked heq => hno isMarked (heq ▸ List.mem_cons_self)
    exact hfirst.trans (hrecorded fun isMarked hmem => hno isMarked (List.mem_cons_of_mem _ hmem))

variable (image events)

/-- However operations follow each other, no two interned strings, strong or weak, are equal. -/
theorem run_distinct (h : Distinct (interned t.interns)) (hrun : t.run image events = some t') :
    Distinct (interned t'.interns) :=
  (run_spec h hrun).1

/-- A string is interned weakly, and then an equal one strongly. -/
def promotion : List InternEvent := [.insert false false ⟨0, [65]⟩, .insert true false ⟨8, [65]⟩]

theorem run_distinct_promotion :
    ∃ t, run (fun _ => none) {} promotion = some t ∧ Distinct (interned t.interns) :=
  ⟨_, rfl, run_distinct (fun _ => none) promotion (t := {}) nodup_zero rfl⟩

/-- Whatever follows the strong interning of a string, every equal string is interned as its result,
at once and without a change. -/
theorem insert_stays (holdingLocks isStrong : Bool) (h : Distinct (interned t.interns))
    {t₁ : InternTable} {found : MirrorString}
    (hfirst : t.insert image true holdingLocks s = some (found, t₁))
    (hrun : t₁.run image events = some t') (hvalue : other.value = s.value) :
    t'.insert image isStrong false other = some (found, t') := by
  obtain ⟨hfound, h₁, hstrong, -⟩ := insert_spec h hfirst
  obtain ⟨h', hkeeps, -⟩ := run_spec h₁ hrun
  have hmem := hkeeps found (hstrong rfl)
  rw [insert, if_neg (by simp)]
  cases hlookup : t'.lookup .strong other with
  | none => exact absurd (hfound.trans hvalue.symm) (ne_of_lookup hlookup hmem)
  | some again =>
    obtain ⟨hagain, hsame⟩ := mem_of_lookup hlookup
    rw [h'.eq_of_value hagain hmem (hsame.trans (hvalue.trans hfound.symm))]

theorem insert_stays_swept : ∃ t₁ t',
    insert (fun _ => none) {} true false ⟨0, [65]⟩ = some (⟨0, [65]⟩, t₁) ∧
      t₁.run (fun _ => none) [.sweepInternTableWeaks fun _ => false] = some t' ∧
      t'.insert (fun _ => none) false false ⟨8, [65]⟩ = some (⟨0, [65]⟩, t') :=
  ⟨_, _, rfl, rfl, insert_stays (fun _ => none) [.sweepInternTableWeaks fun _ => false] false false
    (t := {}) (s := ⟨0, [65]⟩) nodup_zero rfl rfl rfl⟩

/-- The log of an aborted transaction can be undone, and what was interned before is left. -/
theorem rollback_restores (h : Distinct (interned t.interns)) (hlogs : t.logs = some [])
    (hrun : t.run image events = some t')
    (hsweep : ∀ isMarked, .sweepInternTableWeaks isMarked ∉ events) :
    ∃ after, t'.rollback = some after ∧ interned after.interns = interned t.interns := by
  obtain ⟨h', -, hrecorded⟩ := run_spec h hrun
  obtain ⟨logs, hlogs', hundoes⟩ := hrecorded hsweep
  have hall : t'.logs.getD [] = logs := by rw [hlogs', hlogs]; simp
  rw [rollback, hall]
  exact Undoes.exists_undo hundoes rfl h' rfl

theorem rollback_restores_promotion : ∃ t' after,
    run (fun _ => none) { logs := some [] } promotion = some t' ∧
      t'.rollback = some after ∧ interned after.interns = 0 :=
  ⟨_, _, rfl, (rollback_restores (fun _ => none) promotion (t := { logs := some [] }) nodup_zero
    rfl rfl (by simp [promotion])).choose_spec⟩

end InternTable

end NougatArt
