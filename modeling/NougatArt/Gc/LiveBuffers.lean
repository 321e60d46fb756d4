import Mathlib

/-!
# The buffers of a bump pointer space

Threads allocate from buffers of their own. The space counts the buffers in it, and a
walk of its objects looks at the threads only if the counter is not zero. A request for a
buffer counts it first, and keeps it counted if there is no room for it.
-/

namespace NougatArt.BumpPointer

open Function Finset

/-- The addresses of the space; the null address is not one of them. -/
structure Space where
  start : ℕ
  growthEnd : ℕ
  limit : ℕ
  start_pos : 0 < start
  growthEnd_le : growthEnd ≤ limit

structure Tlab where
  start : ℕ
  pos : ℕ
  stop : ℕ

/-- The end of the space, its counter, an `AtomicInteger`, and the buffers of the threads. -/
structure State (threads : ℕ) where
  endPos : ℕ
  tlabsAlive : BitVec 32
  tlab : Fin threads → Tlab

namespace Space

variable (space : Space) {threads : ℕ} (state : State threads)

def hasAddress (address : ℕ) : Bool :=
  space.start ≤ address && address < space.limit

def setTlab (thread : Fin threads) (start stop : ℕ) : State threads :=
  { state with tlab := update state.tlab thread ⟨start, start, stop⟩ }

def revokeThreadLocalBuffers (thread : Fin threads) : State threads :=
  if space.hasAddress (state.tlab thread).start then
    setTlab { state with tlabsAlive := state.tlabsAlive - 1 } thread 0 0
  else state

def revokeAllThreadLocalBuffers : State threads :=
  (List.finRange threads).foldl space.revokeThreadLocalBuffers state

def allocNonvirtualWithoutAccounting (numBytes : ℕ) : Option ℕ × State threads :=
  if space.growthEnd < state.endPos + numBytes then (none, state)
  else (some state.endPos, { state with endPos := state.endPos + numBytes })

def allocNewTlab (self : Fin threads) (bytes : ℕ) : Bool × State threads :=
  let counted := { state with tlabsAlive := state.tlabsAlive + 1 }
  let revoked := space.revokeThreadLocalBuffers counted self
  match space.allocNonvirtualWithoutAccounting revoked bytes with
  | (none, after) => (false, after)
  | (some start, after) => (true, setTlab after self start (start + bytes))

/-- `Walk` suspends the other threads, unless they are, and collects their buffers. -/
def walkCollectsTlabs : Bool :=
  state.tlabsAlive ≠ 0

inductive Call (threads : ℕ)
  | allocNewTlab (self : Fin threads) (bytes : ℕ)
  | revokeThreadLocalBuffers (thread : Fin threads)
  | revokeAllThreadLocalBuffers
  | allocNonvirtual (numBytes : ℕ)

def step : Call threads → State threads
  | .allocNewTlab self bytes => (space.allocNewTlab state self bytes).2
  | .revokeThreadLocalBuffers thread => space.revokeThreadLocalBuffers state thread
  | .revokeAllThreadLocalBuffers => space.revokeAllThreadLocalBuffers state
  | .allocNonvirtual numBytes => (space.allocNonvirtualWithoutAccounting state numBytes).2

def run (calls : List (Call threads)) : State threads :=
  calls.foldl space.step state

def owns (thread : Fin threads) : Bool :=
  space.hasAddress (state.tlab thread).start

def owners : ℕ :=
  (univ.filter fun thread => space.owns state thread = true).card

/-- A request for a buffer for which there is no room, or of no bytes at the limit of the space. -/
def leaks : Call threads → Bool
  | .allocNewTlab _ bytes =>
    decide (space.growthEnd < state.endPos + bytes) || !space.hasAddress state.endPos
  | _ => false

def leaked : State threads → List (Call threads) → ℕ
  | _, [] => 0
  | state, call :: calls =>
    (if space.leaks state call then 1 else 0) + leaked (space.step state call) calls

variable {space} {state}

theorem hasAddress_null : space.hasAddress 0 = false := by
  have hpos := space.start_pos
  rw [hasAddress, Bool.and_eq_false_iff, decide_eq_false_iff_not]
  exact .inl (by omega)

theorem owns_setTlab (thread other : Fin threads) (start stop : ℕ) :
    space.owns (setTlab state thread start stop) other =
      if other = thread then space.hasAddress start else space.owns state other := by
  by_cases heq : other = thread <;> simp [owns, setTlab, heq]

variable (space) in
/-- How far the counter is above the number of buffers. -/
def drift (state : State threads) : BitVec 32 :=
  state.tlabsAlive - space.owners state

theorem drift_tlabsAlive (alive : BitVec 32) :
    space.drift { state with tlabsAlive := alive } =
      space.drift state + (alive - state.tlabsAlive) := by
  change alive - (space.owners state : BitVec 32) = state.tlabsAlive - space.owners state + _
  ring

/-- Only the thread whose buffer is set gains or loses one. -/
theorem drift_setTlab (thread : Fin threads) (start stop : ℕ) :
    space.drift (setTlab state thread start stop) = space.drift state +
      (if space.owns state thread then 1 else 0) - if space.hasAddress start then 1 else 0 := by
  have hsplit : ∀ state : State threads, (space.owners state : BitVec 32) =
      (if space.owns state thread then 1 else 0) +
        ∑ other ∈ univ.erase thread, if space.owns state other then 1 else 0 := by
    intro state
    rw [add_sum_erase univ (fun other => if space.owns state other then (1 : BitVec 32) else 0)
      (mem_univ thread), owners, sum_boole]
  have hothers : ∀ other ∈ univ.erase thread,
      (if space.owns (setTlab state thread start stop) other then (1 : BitVec 32) else 0) =
        if space.owns state other then 1 else 0 := by
    intro other hother
    rw [owns_setTlab, if_neg (ne_of_mem_erase hother)]
  rw [drift, drift, hsplit, hsplit state, owns_setTlab, if_pos rfl, sum_congr rfl hothers, setTlab]
  ring

theorem revokeThreadLocalBuffers_spec (space : Space) (state : State threads)
    (thread : Fin threads) :
    space.drift (space.revokeThreadLocalBuffers state thread) = space.drift state ∧
      space.owns (space.revokeThreadLocalBuffers state thread) thread = false ∧
      (space.revokeThreadLocalBuffers state thread).endPos = state.endPos := by
  rw [revokeThreadLocalBuffers]
  split
  next hown =>
    rw [drift_setTlab, owns_setTlab, drift_tlabsAlive, hasAddress_null, if_pos rfl]
    refine ⟨?_, rfl, rfl⟩
    change _ + (if space.hasAddress (state.tlab thread).start then 1 else 0) - _ = _
    rw [hown, if_pos rfl, if_neg Bool.false_ne_true]
    ring
  next hown => exact ⟨rfl, Bool.not_eq_true _ ▸ hown, rfl⟩

theorem drift_revokeAllThreadLocalBuffers :
    space.drift (space.revokeAllThreadLocalBuffers state) = space.drift state := by
  rw [revokeAllThreadLocalBuffers]
  generalize List.finRange threads = list
  induction list generalizing state with
  | nil => rfl
  | cons thread list ih =>
    rw [List.foldl_cons, ih, (revokeThreadLocalBuffers_spec space state thread).1]

theorem drift_allocNonvirtualWithoutAccounting (numBytes : ℕ) :
    space.drift (space.allocNonvirtualWithoutAccounting state numBytes).2 = space.drift state := by
  rw [allocNonvirtualWithoutAccounting]
  split <;> rfl

/-- A request is counted for good if it leaves its thread without a buffer. -/
theorem drift_allocNewTlab (self : Fin threads) (bytes : ℕ) :
    space.drift (space.allocNewTlab state self bytes).2 =
      space.drift state + if space.leaks state (.allocNewTlab self bytes) then 1 else 0 := by
  have hcounted : space.drift { state with tlabsAlive := state.tlabsAlive + 1 } =
      space.drift state + 1 := by
    rw [drift_tlabsAlive, add_sub_cancel_left]
  obtain ⟨hdrift, howns, hend⟩ := revokeThreadLocalBuffers_spec space
    { state with tlabsAlive := state.tlabsAlive + 1 } self
  rw [hcounted] at hdrift
  change _ = state.endPos at hend
  rw [allocNewTlab, allocNonvirtualWithoutAccounting, leaks]
  generalize space.revokeThreadLocalBuffers _ self = revoked at hdrift howns hend ⊢
  rw [← hend]
  by_cases hroom : space.growthEnd < revoked.endPos + bytes
  · rw [if_pos hroom, hdrift, decide_eq_true hroom]
    rfl
  · rw [if_neg hroom, decide_eq_false hroom]
    dsimp only
    have hkept : space.owns { revoked with endPos := revoked.endPos + bytes } self = false := howns
    have hsame : space.drift { revoked with endPos := revoked.endPos + bytes } =
        space.drift state + 1 := hdrift
    rw [drift_setTlab, hkept, hsame]
    cases space.hasAddress revoked.endPos <;> simp

theorem drift_step (state : State threads) (call : Call threads) :
    space.drift (space.step state call) =
      space.drift state + if space.leaks state call then 1 else 0 := by
  cases call with
  | allocNewTlab self bytes => rw [step, drift_allocNewTlab]
  | revokeThreadLocalBuffers thread =>
    rw [step, (revokeThreadLocalBuffers_spec space state thread).1]
    exact (add_zero _).symm
  | revokeAllThreadLocalBuffers =>
    rw [step, drift_revokeAllThreadLocalBuffers]
    exact (add_zero _).symm
  | allocNonvirtual numBytes =>
    rw [step, drift_allocNonvirtualWithoutAccounting]
    exact (add_zero _).symm

theorem drift_run (space : Space) (calls : List (Call threads)) (state : State threads) :
    space.drift (space.run state calls) = space.drift state + space.leaked state calls := by
  induction calls generalizing state with
  | nil => exact (add_zero _).symm
  | cons call calls ih =>
    rw [run, List.foldl_cons, ← run, ih, drift_step, leaked]
    push_cast
    ring

theorem toInt_add_eq_iff {owners leaked : ℕ} (howners : owners < 2 ^ 31) :
    (BitVec.ofNat 32 (owners + leaked)).toInt = owners ↔ 2 ^ 32 ∣ leaked := by
  rw [BitVec.toInt_eq_toNat_bmod, BitVec.toNat_ofNat, Int.bmod_def]
  omega

/-- The counter exceeds the number of buffers by the requests in vain, in 32 bits; with that, it is
known when it is the number of buffers, and when a walk looks at the threads exactly if some
thread has a buffer. -/
theorem tlabsAlive_run (calls : List (Call threads)) (state : State threads)
    (hthreads : threads < 2 ^ 31) (hcreated : state.tlabsAlive = 0)
    (hnone : ∀ thread, space.owns state thread = false) :
    (space.run state calls).tlabsAlive =
        BitVec.ofNat 32 (space.owners (space.run state calls) + space.leaked state calls) ∧
      ((space.run state calls).tlabsAlive.toInt = space.owners (space.run state calls) ↔
        2 ^ 32 ∣ space.leaked state calls) ∧
      ((walkCollectsTlabs (space.run state calls) = true ↔
          ∃ thread, space.owns (space.run state calls) thread = true) ↔
        (2 ^ 32 ∣ space.owners (space.run state calls) + space.leaked state calls ↔
          ∀ thread, space.owns (space.run state calls) thread = false)) := by
  have howners : space.owners state = 0 := by
    rw [owners, card_eq_zero, filter_eq_empty_iff]
    exact fun thread _ => by rw [hnone thread]; exact Bool.false_ne_true
  have hdrift := drift_run space calls state
  rw [drift, drift, hcreated, howners] at hdrift
  have halive : (space.run state calls).tlabsAlive =
      BitVec.ofNat 32 (space.owners (space.run state calls) + space.leaked state calls) := by
    rw [Nat.cast_zero, sub_zero, zero_add, sub_eq_iff_eq_add', ← Nat.cast_add] at hdrift
    exact hdrift
  have hle : space.owners (space.run state calls) < 2 ^ 31 :=
    (card_le_univ _).trans_lt (by rwa [Fintype.card_fin])
  refine ⟨halive, by rw [halive, toInt_add_eq_iff hle], ?_⟩
  have hzero : (space.run state calls).tlabsAlive = 0 ↔
      2 ^ 32 ∣ space.owners (space.run state calls) + space.leaked state calls := by
    rw [halive, ← BitVec.toNat_inj, BitVec.toNat_ofNat, Nat.dvd_iff_mod_eq_zero]
    rfl
  have hall : (∀ thread, space.owns (space.run state calls) thread = false) ↔
      ¬ ∃ thread, space.owns (space.run state calls) thread = true := by
    simp
  rw [walkCollectsTlabs, decide_eq_true_eq, ← hzero, hall, ne_eq]
  exact not_iff_comm.trans ⟨Iff.symm, Iff.symm⟩

def page : Space := ⟨4096, 8192, 8192, by decide, le_rfl⟩

def created : State 2 := ⟨4096, 0, fun _ => ⟨0, 0, 0⟩⟩

/-- Two threads get buffers, and one of them gives its buffer back. -/
theorem tlabsAlive_page : (page.run created [.allocNewTlab 0 1024, .allocNewTlab 1 1024,
    .revokeThreadLocalBuffers 0]).tlabsAlive.toInt = page.owners (page.run created
      [.allocNewTlab 0 1024, .allocNewTlab 1 1024, .revokeThreadLocalBuffers 0]) :=
  (tlabsAlive_run [.allocNewTlab 0 1024, .allocNewTlab 1 1024, .revokeThreadLocalBuffers 0]
    created (by decide) rfl (by decide)).2.1.mpr (by decide)

/-- A request without room for it stays counted. -/
theorem tlabsAlive_outOfSpace : created.tlabsAlive = 0 ∧ page.owners created = 0 ∧
    (page.run created [.allocNewTlab 0 8192]).tlabsAlive = 1 ∧
    page.owners (page.run created [.allocNewTlab 0 8192]) = 0 ∧
    walkCollectsTlabs (page.run created [.allocNewTlab 0 8192]) = true := by
  decide

end Space

end NougatArt.BumpPointer
