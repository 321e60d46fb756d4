import Mathlib

/-!
# Placement of passes

`AddX86Optimization` puts a pass into the list of passes, where the placement of the
pass says. A list of pointers is a list of options; `none` as a result stands for an
access outside the list.
-/

namespace NougatArt.Passes

open List

inductive PassInstrumentation
  | insertBefore
  | insertAfter
  | replace
  | append
  | prepend
  deriving DecidableEq

structure HOptimization where
  passName : String
  deriving DecidableEq

structure HCustomPassPlacement where
  passRelativeTo : String
  directive : PassInstrumentation

/-- The loop that pushes elements backwards, from `idx2` down to `start`. Its index is
unsigned: for `idx2 = 0` the element at the largest `size_t` is read. -/
def pushElements (start : ℕ) (list : List (Option HOptimization)) :
    ℕ → Option (List (Option HOptimization))
  | 0 => if start ≤ 0 then none else some list
  | idx2 + 1 =>
    if start ≤ idx2 + 1 then
      match list[idx2]? with
      | some element =>
        if idx2 + 1 < list.length then pushElements start (list.set (idx2 + 1) element) idx2
        else none
      | none => none
    else
      some list

/-- The new pass in front of the element at `start`. -/
def insertPass (optimization : HOptimization) (list : List HOptimization) (start : ℕ) :
    Option (List (Option HOptimization)) :=
  (pushElements start (list.map some ++ [none]) list.length).map fun pushed =>
    pushed.set start (some optimization)

def addX86Optimization (optimization : HOptimization) (list : List HOptimization)
    (placements : String → Option HCustomPassPlacement) : Option (List (Option HOptimization)) :=
  match placements optimization.passName with
  | none => some (list.map some)
  | some ⟨_, .append⟩ => some ((list ++ [optimization]).map some)
  | some ⟨_, .prepend⟩ => some ((optimization :: list).map some)
  | some ⟨passRelativeTo, directive⟩ =>
    match list.findIdx? (·.passName = passRelativeTo) with
    | none => some (list.map some)
    | some idx =>
      match directive with
      | .replace => some ((list.set idx optimization).map some)
      | .insertBefore => insertPass optimization list idx
      | .insertAfter => insertPass optimization list (idx + 1)
      | _ => some (list.map some)

/-- The list with the new pass at the place that was asked for. -/
inductive Placed (optimization : HOptimization) :
    HCustomPassPlacement → List HOptimization → List HOptimization → Prop
  | append {name list} : Placed optimization ⟨name, .append⟩ list (list ++ [optimization])
  | prepend {name list} : Placed optimization ⟨name, .prepend⟩ list (optimization :: list)
  | replace {before pass after} : Placed optimization ⟨pass.passName, .replace⟩
      (before ++ pass :: after) (before ++ optimization :: after)
  | insertBefore {before pass after} : Placed optimization ⟨pass.passName, .insertBefore⟩
      (before ++ pass :: after) (before ++ optimization :: pass :: after)
  | insertAfter {before pass after} : Placed optimization ⟨pass.passName, .insertAfter⟩
      (before ++ pass :: after) (before ++ pass :: optimization :: after)

variable {start : ℕ} {pushed : Option HOptimization} {before after : List (Option HOptimization)}

theorem pushElements_of_lt {idx2 : ℕ} (hlt : idx2 < start) (list : List (Option HOptimization)) :
    pushElements start list idx2 = some list := by
  cases idx2 with
  | zero | succ idx2 => exact if_neg hlt.not_ge

theorem pushElements_succ {element : Option HOptimization} (hstart : start ≤ before.length + 1) :
    pushElements start (before ++ element :: pushed :: after) (before.length + 1) =
      pushElements start (before ++ element :: element :: after) before.length := by
  rw [pushElements, if_pos hstart, getElem?_append_right le_rfl, Nat.sub_self]
  have hset : (before ++ element :: pushed :: after).set (before.length + 1) element =
      before ++ element :: element :: after := by
    rw [set_append_right _ _ (Nat.le_succ _), Nat.succ_sub le_rfl, Nat.sub_self]
    rfl
  simp [hset]

/-- The loop down to index 0 does not stop there. -/
theorem pushElements_zero (list : List (Option HOptimization)) (idx2 : ℕ) :
    pushElements 0 list idx2 = none := by
  induction idx2 generalizing list with
  | zero => rfl
  | succ idx2 ih =>
    rw [pushElements, if_pos (Nat.zero_le _)]
    split
    · split
      · exact ih _
      · rfl
    · rfl

/-- The induction is on the elements that are still to be pushed; the one after them was
pushed already or is the new one at the end. -/
theorem exists_pushElements (before rest after : List (Option HOptimization))
    (last pushed : Option HOptimization) : ∃ element,
      pushElements (before.length + 1) (before ++ last :: rest ++ pushed :: after)
        (before ++ last :: rest).length = some (before ++ last :: element :: (rest ++ after)) := by
  induction rest using reverseRecOn generalizing pushed after with
  | nil =>
    refine ⟨last, ?_⟩
    rw [append_assoc, length_append]
    exact (pushElements_succ le_rfl).trans (pushElements_of_lt (Nat.lt_succ_self _) _)
  | append_singleton rest element ih =>
    obtain ⟨found, hfound⟩ := ih (element :: after) element
    refine ⟨found, ?_⟩
    have hle : before.length + 1 ≤ (before ++ last :: rest).length + 1 := by simp
    rw [← cons_append, ← append_assoc, append_assoc _ [element], length_append, singleton_append,
      length_singleton, pushElements_succ hle, hfound, append_assoc, singleton_append]

theorem insertPass_eq (optimization : HOptimization) (first : List HOptimization)
    (last : HOptimization) (rest : List HOptimization) :
    insertPass optimization (first ++ last :: rest) (first.length + 1) =
      some ((first ++ last :: optimization :: rest).map some) := by
  obtain ⟨element, hpush⟩ := exists_pushElements (first.map some) (rest.map some) [] (some last) _
  have hmap : (first ++ last :: rest).map some = first.map some ++ some last :: rest.map some := by
    rw [map_append, map_cons]
  rw [length_map, ← hmap, length_map] at hpush
  rw [insertPass, hpush]
  simp

theorem exists_findIdx? {name : String} {list : List HOptimization}
    (hmem : ∃ pass ∈ list, pass.passName = name) : ∃ before pass after,
      list = before ++ pass :: after ∧ pass.passName = name ∧
      list.findIdx? (·.passName = name) = some before.length := by
  induction list with
  | nil => simp at hmem
  | cons head tail ih =>
    by_cases hhead : head.passName = name
    · exact ⟨[], head, tail, rfl, hhead, by simp [findIdx?_cons, hhead]⟩
    · obtain ⟨before, pass, after, rfl, hname, hfind⟩ := ih (by simpa [hhead] using hmem)
      exact ⟨head :: before, pass, after, rfl, hname, by simp [findIdx?_cons, hhead, hfind]⟩

theorem exists_placed (optimization : HOptimization) (list : List HOptimization)
    (placements : String → Option HCustomPassPlacement) (placement : HCustomPassPlacement)
    (hplacement : placements optimization.passName = some placement)
    (hrelative : placement.directive = .append ∨ placement.directive = .prepend ∨
      ∃ pass ∈ list, pass.passName = placement.passRelativeTo)
    (hfirst : placement.directive = .insertBefore →
      list.head?.map HOptimization.passName ≠ some placement.passRelativeTo) :
    ∃ result, addX86Optimization optimization list placements = some (result.map some) ∧
      Placed optimization placement list result := by
  obtain ⟨name, directive⟩ := placement
  by_cases hend : directive = .append ∨ directive = .prepend
  · rcases hend with rfl | rfl
    · exact ⟨_, by rw [addX86Optimization, hplacement], .append⟩
    · exact ⟨_, by rw [addX86Optimization, hplacement], .prepend⟩
  obtain ⟨before, pass, after, rfl, rfl, hfind⟩ :=
    exists_findIdx? ((hrelative.resolve_left fun h => hend (.inl h)).resolve_left fun h =>
      hend (.inr h))
  cases directive with
  | append => exact absurd (.inl rfl) hend
  | prepend => exact absurd (.inr rfl) hend
  | replace =>
    refine ⟨before ++ optimization :: after, ?_, .replace⟩
    simp [addX86Optimization, hplacement, hfind]
  | insertBefore =>
    refine ⟨before ++ optimization :: pass :: after, ?_, .insertBefore⟩
    obtain rfl | ⟨first, last, rfl⟩ := eq_nil_or_concat' before
    · exact absurd rfl (hfirst rfl)
    · simp only [append_assoc, singleton_append, length_append, length_singleton] at hfind ⊢
      simp only [addX86Optimization, hplacement, hfind]
      exact insertPass_eq optimization first last (pass :: after)
  | insertAfter =>
    refine ⟨before ++ pass :: optimization :: after, ?_, .insertAfter⟩
    simp only [addX86Optimization, hplacement, hfind]
    exact insertPass_eq optimization before pass after

theorem addX86Optimization_first (optimization first : HOptimization) (list : List HOptimization)
    (placements : String → Option HCustomPassPlacement)
    (hplacement : placements optimization.passName = some ⟨first.passName, .insertBefore⟩) :
    addX86Optimization optimization (first :: list) placements = none := by
  simp [addX86Optimization, hplacement, findIdx?_cons, insertPass, pushElements_zero]

/-- Every pass is put where its placement says, exactly if that is not in front of the first
pass. -/
theorem addX86Optimization_placed_iff (optimization : HOptimization) (list : List HOptimization)
    (placements : String → Option HCustomPassPlacement) (placement : HCustomPassPlacement)
    (hplacement : placements optimization.passName = some placement)
    (hrelative : placement.directive = .append ∨ placement.directive = .prepend ∨
      ∃ pass ∈ list, pass.passName = placement.passRelativeTo) :
    (∃ result, addX86Optimization optimization list placements = some (result.map some) ∧
      Placed optimization placement list result) ↔
      (placement.directive = .insertBefore →
        list.head?.map HOptimization.passName ≠ some placement.passRelativeTo) := by
  refine ⟨?_, exists_placed optimization list placements placement hplacement hrelative⟩
  obtain ⟨name, directive⟩ := placement
  rintro ⟨result, hresult, -⟩ rfl hhead
  obtain ⟨first, hfirst, rfl⟩ := Option.map_eq_some_iff.mp hhead
  obtain ⟨rest, rfl⟩ := head?_eq_some_iff.mp hfirst
  rw [addX86Optimization_first optimization first rest placements hplacement] at hresult
  cases hresult

theorem insertBefore_second : ∃ result,
    addX86Optimization ⟨"loop_peeling"⟩ [⟨"licm"⟩, ⟨"select_generator"⟩]
      (fun _ => some ⟨"select_generator", .insertBefore⟩) = some (result.map some) ∧
      Placed ⟨"loop_peeling"⟩ ⟨"select_generator", .insertBefore⟩
        [⟨"licm"⟩, ⟨"select_generator"⟩] result :=
  (addX86Optimization_placed_iff _ _ _ _ rfl (by decide)).mpr (by decide)

/-- In front of the first pass there is no place: the loop runs below the list. -/
theorem insertBefore_first : addX86Optimization ⟨"loop_peeling"⟩ [⟨"select_generator"⟩]
    (fun _ => some ⟨"select_generator", .insertBefore⟩) = none := by
  decide

end NougatArt.Passes
