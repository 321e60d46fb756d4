import NougatArt.Core.Indices

/-!
# Sweeping the allocation stack

The objects allocated since the last collection are on a stack. Sweeping goes over the stack
once for each space, takes the objects of the space off it and frees the unmarked ones in
chunks. Whatever is left is taken to be a large object; freeing what is none ends the process, and
there is no result then.
-/

namespace NougatArt.SweepArray

open List

variable {Space Obj : Type}

structure LargeObjectSpace (Obj : Type) where
  contains : Obj → Bool
  liveBitmap : Obj → Bool
  markBitmap : Obj → Bool

/-- The spaces of the heap; no object is in two of them. -/
structure Heap (Space Obj : Type) where
  continuousSpaces : List Space
  isAllocSpace : Space → Bool
  isImmune : Space → Bool
  hasLiveBitmap : Space → Bool
  nonMovingSpace : Option Space
  hasAddress : Space → Obj → Bool
  liveBitmap : Space → Obj → Bool
  markBitmap : Space → Obj → Bool
  largeObjectsSpace : Option (LargeObjectSpace Obj)
  allocationSize : Obj → ℕ
  nodup : continuousSpaces.Nodup
  disjoint : ∀ {space other obj}, hasAddress space obj = true → hasAddress other obj = true →
    space = other
  large_disjoint : ∀ large ∈ largeObjectsSpace, ∀ obj, large.contains obj = true →
    ∀ space, hasAddress space obj = false

structure ObjectBytePair where
  objects : ℕ
  bytes : ℕ

def kSweepArrayChunkFreeSize : ℕ := 1024

/-- The buffer of objects to free, which has room for a fixed number of them. -/
structure ChunkFreeBuffer (Obj : Type) where
  objects : List Obj
  fits : objects.length ≤ kSweepArrayChunkFreeSize

/-- The buffer, the totals, and the objects freed so far with the spaces they were freed in. -/
structure State (Space Obj : Type) where
  chunk : ChunkFreeBuffer Obj
  freed : ObjectBytePair
  frees : List (Space × Obj)

def start : State Space Obj := ⟨⟨[], Nat.zero_le _⟩, ⟨0, 0⟩, []⟩

/-- What was freed in the continuous spaces and in the large object space. -/
structure Result (Space Obj : Type) where
  freed : ObjectBytePair
  frees : List (Space × Obj)
  freedLos : ObjectBytePair
  freesLos : List Obj

namespace Heap

variable (heap : Heap Space Obj) (swapBitmaps : Bool)

def isMarked (space : Space) (obj : Obj) : Bool :=
  if swapBitmaps then heap.liveBitmap space obj else heap.markBitmap space obj

/-- `FreeList` of the chunk; nothing changes if it is empty. -/
def freeList (space : Space) (state : State Space Obj) : State Space Obj where
  chunk := ⟨[], Nat.zero_le _⟩
  freed :=
    { objects := state.freed.objects + state.chunk.objects.length
      bytes := state.freed.bytes + (state.chunk.objects.map heap.allocationSize).sum }
  frees := state.frees ++ state.chunk.objects.map (space, ·)

def addToChunk (space : Space) (state : State Space Obj) (obj : Obj) : State Space Obj :=
  if hfull : kSweepArrayChunkFreeSize ≤ state.chunk.objects.length then
    { heap.freeList space state with chunk := ⟨[obj], Nat.le_add_left 1 1023⟩ }
  else
    { state with chunk := ⟨state.chunk.objects ++ [obj], by
        rw [length_append]; exact Nat.lt_of_not_le hfull⟩ }

/-- One object of the array, with the objects written back so far. Writing never overtakes
reading, so these are a list of their own. -/
def sweepObject (space : Space) (state : State Space Obj × List Obj) (obj : Obj) :
    State Space Obj × List Obj :=
  if heap.hasAddress space obj then
    (if heap.isMarked swapBitmaps space obj then state.1 else heap.addToChunk space state.1 obj,
      state.2)
  else (state.1, state.2 ++ [obj])

def sweepSpace (state : State Space Obj × List Obj) (space : Space) :
    State Space Obj × List Obj :=
  let swept := state.2.foldl (heap.sweepObject swapBitmaps space) (state.1, [])
  (heap.freeList space swept.1, swept.2)

def isLargeMarked (large : LargeObjectSpace Obj) (obj : Obj) : Bool :=
  if swapBitmaps then large.liveBitmap obj else large.markBitmap obj

/-- `LargeObjectSpace::Free`, which ends the process for an object that is not in the space. -/
def free (large : LargeObjectSpace Obj) (obj : Obj) : Option ℕ :=
  if large.contains obj then some (heap.allocationSize obj) else none

/-- One object that is left, with the totals and the large objects freed so far. -/
def sweepLargeObject (large : LargeObjectSpace Obj) (swept : ObjectBytePair × List Obj)
    (obj : Obj) : Option (ObjectBytePair × List Obj) :=
  if isLargeMarked swapBitmaps large obj then some swept
  else (heap.free large obj).map fun bytes =>
    (⟨swept.1.objects + 1, swept.1.bytes + bytes⟩, swept.2 ++ [obj])

def sweepSpaces [DecidableEq Space] : List Space :=
  let spaces := heap.continuousSpaces.filter fun space =>
    heap.isAllocSpace space && !heap.isImmune space && heap.hasLiveBitmap space
  spaces.filter (some · ≠ heap.nonMovingSpace) ++ spaces.filter (some · = heap.nonMovingSpace)

def sweepArray [DecidableEq Space] (allocations : List (Option Obj)) :
    Option (Result Space Obj) :=
  -- every pass skips the null entries
  let swept := heap.sweepSpaces.foldl (heap.sweepSpace swapBitmaps)
    (start, allocations.reduceOption)
  let large : Option (ObjectBytePair × List Obj) := match heap.largeObjectsSpace with
    | none => some (⟨0, 0⟩, [])
    | some large => swept.2.foldlM (heap.sweepLargeObject swapBitmaps large) (⟨0, 0⟩, [])
  large.map fun large =>
    { freed := swept.1.freed
      frees := swept.1.frees
      freedLos := large.1
      freesLos := large.2 }

def Counted (state : State Space Obj) : Prop :=
  state.freed = ⟨state.frees.length, (state.frees.map (heap.allocationSize ·.2)).sum⟩

variable {heap} {space : Space} {state : State Space Obj}

theorem Counted.freeList (h : heap.Counted state) : heap.Counted (heap.freeList space state) := by
  unfold Counted Heap.freeList
  rw [h]
  simp [Function.comp_def]

theorem Counted.addToChunk (h : heap.Counted state) (obj : Obj) :
    heap.Counted (heap.addToChunk space state obj) := by
  unfold Heap.addToChunk
  split
  · exact h.freeList
  · exact h

theorem Counted.sweepObjects (objs : List Obj) (out : List Obj) (h : heap.Counted state) :
    heap.Counted (objs.foldl (heap.sweepObject swapBitmaps space) (state, out)).1 := by
  induction objs generalizing state out with
  | nil => exact h
  | cons obj objs ih =>
    rw [foldl_cons, sweepObject]
    split
    · split
      · exact ih _ h
      · exact ih _ (h.addToChunk obj)
    · exact ih _ h

variable (heap)

def unmarked (objs : List Obj) (space : Space) : List Obj :=
  objs.filter fun obj => heap.hasAddress space obj && !heap.isMarked swapBitmaps space obj

variable {heap} {objs : List Obj}

theorem mem_unmarked {obj : Obj} : obj ∈ heap.unmarked swapBitmaps objs space ↔
    obj ∈ objs ∧ heap.hasAddress space obj = true ∧
      heap.isMarked swapBitmaps space obj = false := by
  simp [unmarked]

/-- With the chunk counted as freed, adding an object frees it. -/
theorem frees_freeList_addToChunk (obj : Obj) :
    (heap.freeList space (heap.addToChunk space state obj)).frees =
      (heap.freeList space state).frees ++ [(space, obj)] := by
  unfold addToChunk
  split <;> simp [freeList]

theorem frees_sweepObjects (objs out : List Obj) :
    (heap.freeList space (objs.foldl (heap.sweepObject swapBitmaps space) (state, out)).1).frees =
      (heap.freeList space state).frees ++
        (heap.unmarked swapBitmaps objs space).map (space, ·) := by
  induction objs generalizing state out with
  | nil => exact (append_nil _).symm
  | cons obj objs ih =>
    rw [foldl_cons, sweepObject]
    by_cases hhas : heap.hasAddress space obj
    · by_cases hmark : heap.isMarked swapBitmaps space obj
      · simp [hhas, hmark, ih, unmarked]
      · simp [hhas, hmark, ih, unmarked, frees_freeList_addToChunk]
    · simp [hhas, ih, unmarked]

theorem left_sweepObjects (objs out : List Obj) :
    (objs.foldl (heap.sweepObject swapBitmaps space) (state, out)).2 =
      out ++ objs.filter (!heap.hasAddress space ·) := by
  induction objs generalizing state out with
  | nil => exact (append_nil _).symm
  | cons obj objs ih =>
    rw [foldl_cons, sweepObject]
    split <;> simp [*]

/-- An object that an earlier space has taken off the stack is in no later one. -/
theorem unmarked_filter {other : Space} (objs : List Obj) (hne : space ≠ other) :
    heap.unmarked swapBitmaps (objs.filter (!heap.hasAddress space ·)) other =
      heap.unmarked swapBitmaps objs other := by
  rw [unmarked, filter_filter]
  apply filter_congr
  intro obj _
  cases hhas : heap.hasAddress other obj
  · rfl
  · cases hspace : heap.hasAddress space obj
    · simp
    · exact absurd (heap.disjoint hspace hhas) hne

/-- All passes: each space frees its unmarked objects, and what is in no space is left. -/
theorem sweepSpaces_spec (heap : Heap Space Obj) (state : State Space Obj) (spaces : List Space)
    (hnodup : spaces.Nodup) (objs : List Obj)
    (h : heap.Counted state) (hchunk : state.chunk.objects = []) :
    let swept := spaces.foldl (heap.sweepSpace swapBitmaps) (state, objs)
    heap.Counted swept.1 ∧ swept.1.frees = state.frees ++
        spaces.flatMap (fun space => (heap.unmarked swapBitmaps objs space).map (space, ·)) ∧
      swept.2 = objs.filter fun obj => spaces.all (!heap.hasAddress · obj) := by
  induction spaces generalizing state objs with
  | nil => simp [h]
  | cons space spaces ih =>
    obtain ⟨hnotMem, hnodup⟩ := nodup_cons.mp hnodup
    obtain ⟨hcounted, hfrees, hleft⟩ := ih _ hnodup _
      (h.sweepObjects swapBitmaps objs []).freeList rfl
    refine ⟨hcounted, hfrees.trans ?_, hleft.trans ?_⟩
    · have hlater : ∀ other ∈ spaces,
          (heap.unmarked swapBitmaps (objs.filter (!heap.hasAddress space ·)) other).map
              (other, ·) =
            (heap.unmarked swapBitmaps objs other).map (other, ·) := fun other hmem =>
        congrArg _ (unmarked_filter swapBitmaps objs fun heq => hnotMem (heq ▸ hmem))
      rw [frees_sweepObjects, left_sweepObjects, nil_append, flatMap_cons, flatMap_congr hlater,
        append_assoc]
      simp [freeList, hchunk]
    · rw [left_sweepObjects, nil_append, filter_filter]
      simp [Bool.and_comm]

/-- The loop over the large objects returns exactly if it frees no other object. -/
theorem sweepLarge_spec (heap : Heap Space Obj) (large : LargeObjectSpace Obj) (objs : List Obj)
    (swept : ObjectBytePair × List Obj) :
    objs.foldlM (heap.sweepLargeObject swapBitmaps large) swept =
      if ∀ obj ∈ objs, isLargeMarked swapBitmaps large obj = false → large.contains obj = true then
        let freed := objs.filter (!isLargeMarked swapBitmaps large ·)
        some (⟨swept.1.objects + freed.length,
          swept.1.bytes + (freed.map heap.allocationSize).sum⟩, swept.2 ++ freed)
      else none := by
  induction objs generalizing swept with
  | nil => simp
  | cons obj objs ih =>
    rw [foldlM_cons, sweepLargeObject]
    by_cases hmark : isLargeMarked swapBitmaps large obj
    · simp [hmark, ih]
    · by_cases hcontains : large.contains obj
      · simp [hmark, hcontains, free, ih, add_assoc, add_comm 1]
      · simp [hmark, hcontains, free]

theorem nodup_unmarked {spaces : List Space} (hspaces : spaces.Nodup)
    (hobjs : objs.Nodup) : (spaces.flatMap (heap.unmarked swapBitmaps objs)).Nodup := by
  apply nodup_flatMap.mpr
  constructor
  · intro space _
    exact hobjs.filter _
  · apply hspaces.imp
    intro space other hne obj hleft hright
    exact hne (heap.disjoint ((mem_unmarked _).mp hleft).2.1 ((mem_unmarked _).mp hright).2.1)

section

variable [DecidableEq Space] (heap) (allocations : List (Option Obj))

/-- The unmarked objects are freed in the spaces they are in, each of them once, and the totals
are those of the freed objects. -/
structure Exact (result : Result Space Obj) : Prop where
  frees : ∀ space obj, (space, obj) ∈ result.frees ↔ space ∈ heap.sweepSpaces ∧
    some obj ∈ allocations ∧ heap.hasAddress space obj = true ∧
      heap.isMarked swapBitmaps space obj = false
  freesLos : ∀ obj, obj ∈ result.freesLos ↔ some obj ∈ allocations ∧
    ∃ large ∈ heap.largeObjectsSpace, large.contains obj = true ∧
      isLargeMarked swapBitmaps large obj = false
  once : (result.frees.map Prod.snd ++ result.freesLos).Nodup
  freed : result.freed =
    ⟨result.frees.length, (result.frees.map (heap.allocationSize ·.2)).sum⟩
  freedLos : result.freedLos =
    ⟨result.freesLos.length, (result.freesLos.map heap.allocationSize).sum⟩

theorem nodup_sweepSpaces : heap.sweepSpaces.Nodup := by
  have hnodup := heap.nodup.filter fun space =>
    heap.isAllocSpace space && !heap.isImmune space && heap.hasLiveBitmap space
  apply (hnodup.filter _).append (hnodup.filter _)
  intro space hleft hright
  exact absurd (of_mem_filter hright) (by simpa using of_mem_filter hleft)

variable {heap allocations}

variable (heap allocations) in
/-- An unmarked object of the stack that is in no space is not taken for a large one. -/
def NoStray : Prop :=
  ∀ obj, some obj ∈ allocations → (∀ space ∈ heap.sweepSpaces, heap.hasAddress space obj = false) →
    ∀ large ∈ heap.largeObjectsSpace, isLargeMarked swapBitmaps large obj = false →
      large.contains obj = true

/-- The result, if there is one: what no pass takes off the stack is freed as a large object. -/
theorem sweepArray_spec (heap : Heap Space Obj) (allocations : List (Option Obj)) :
    ((∃ result, heap.sweepArray swapBitmaps allocations = some result) ↔
      heap.NoStray swapBitmaps allocations) ∧
    ∀ result, heap.sweepArray swapBitmaps allocations = some result →
      heap.Counted ⟨⟨[], Nat.zero_le _⟩, result.freed, result.frees⟩ ∧
      result.frees = heap.sweepSpaces.flatMap (fun space =>
        (heap.unmarked swapBitmaps allocations.reduceOption space).map (space, ·)) ∧
      result.freedLos =
        ⟨result.freesLos.length, (result.freesLos.map heap.allocationSize).sum⟩ ∧
      result.freesLos = allocations.reduceOption.filter fun obj =>
        heap.sweepSpaces.all (!heap.hasAddress · obj) &&
          heap.largeObjectsSpace.any (!isLargeMarked swapBitmaps · obj) := by
  obtain ⟨hcounted, hfrees, hleft⟩ := sweepSpaces_spec swapBitmaps heap start _
    heap.nodup_sweepSpaces allocations.reduceOption rfl rfl
  unfold sweepArray NoStray
  cases hlarge : heap.largeObjectsSpace with
  | none =>
    refine ⟨iff_of_true ⟨_, rfl⟩ (by simp), ?_⟩
    rintro result ⟨⟩
    exact ⟨hcounted, hfrees, rfl, by simp⟩
  | some large =>
    simp only [hleft, sweepLarge_spec, Option.map_if, filter_filter]
    refine ⟨?_, ?_⟩
    · simp [reduceOption_mem_iff, imp.swap]
    · intro result hresult
      split at hresult
      · cases hresult
        refine ⟨hcounted, hfrees, by simp, ?_⟩
        simp [Bool.and_comm]
      · cases hresult

/-- Sweeping returns exactly if no unmarked object outside of all spaces is taken for a large one,
and then it is exact. -/
theorem sweepArray_exact (heap : Heap Space Obj) (allocations : List (Option Obj))
    (hnodup : allocations.reduceOption.Nodup) :
    ((∃ result, heap.sweepArray swapBitmaps allocations = some result) ↔
      heap.NoStray swapBitmaps allocations) ∧
    ∀ result, heap.sweepArray swapBitmaps allocations = some result →
      heap.Exact swapBitmaps allocations result := by
  obtain ⟨hreturns, hspec⟩ := sweepArray_spec swapBitmaps heap allocations
  refine ⟨hreturns, fun result hresult => ?_⟩
  have hstray := hreturns.mp ⟨result, hresult⟩
  obtain ⟨hcounted, hfrees, hfreedLos, hfreesLos⟩ := hspec result hresult
  have hmemLos : ∀ obj, obj ∈ result.freesLos ↔ some obj ∈ allocations ∧
      (∀ space ∈ heap.sweepSpaces, heap.hasAddress space obj = false) ∧
        ∃ large ∈ heap.largeObjectsSpace, isLargeMarked swapBitmaps large obj = false := by
    intro obj
    rw [hfreesLos]
    cases heap.largeObjectsSpace <;> simp [reduceOption_mem_iff]
  constructor
  case frees =>
    intro space obj
    rw [hfrees]
    simp [mem_unmarked, reduceOption_mem_iff]
  case freesLos =>
    intro obj
    rw [hmemLos]
    constructor
    · rintro ⟨hmem, hnone, large, hlarge, hmark⟩
      exact ⟨hmem, large, hlarge, hstray obj hmem hnone large hlarge hmark, hmark⟩
    · rintro ⟨hmem, large, hlarge, hcontains, hmark⟩
      exact ⟨hmem, fun space _ => heap.large_disjoint large hlarge obj hcontains space, large,
        hlarge, hmark⟩
  case once =>
    apply Nodup.append
    · rw [hfrees]
      simpa [map_flatMap, Function.comp_def] using
        nodup_unmarked swapBitmaps heap.nodup_sweepSpaces hnodup
    · rw [hfreesLos]
      exact hnodup.filter _
    · intro obj hfreed hlarge
      have hnone := ((hmemLos obj).mp hlarge).2.1
      rw [hfrees] at hfreed
      obtain ⟨space, hspace, hmem⟩ : ∃ space ∈ heap.sweepSpaces,
          obj ∈ heap.unmarked swapBitmaps allocations.reduceOption space := by
        simpa using hfreed
      exact Bool.noConfusion (((mem_unmarked _).mp hmem).2.1.symm.trans (hnone space hspace))
  case freed => exact hcounted
  case freedLos => exact hfreedLos

end

/-- One continuous space with objects 0 and 1, of which 1 is marked, and the large object 2. -/
def small : Heap Unit (Fin 4) where
  continuousSpaces := [()]
  isAllocSpace _ := true
  isImmune _ := false
  hasLiveBitmap _ := true
  nonMovingSpace := none
  hasAddress _ obj := obj < 2
  liveBitmap _ _ := true
  markBitmap _ obj := obj = 1
  largeObjectsSpace := some ⟨(· = 2), fun _ => true, fun _ => false⟩
  allocationSize _ := 8
  nodup := nodup_singleton _
  disjoint _ _ := rfl
  large_disjoint := by
    rintro _ ⟨⟩ obj hlarge _
    rw [of_decide_eq_true hlarge]
    rfl

theorem sweepArray_exact_small :
    ∃ result, small.sweepArray false [some 0, none, some 1, some 2] = some result ∧
      small.Exact false [some 0, none, some 1, some 2] result := by
  obtain ⟨hreturns, hexact⟩ :=
    sweepArray_exact false small [some 0, none, some 1, some 2] (by decide)
  have hplaced : ∀ obj, some obj ∈ [some 0, none, some 1, some (2 : Fin 4)] →
      (∀ space ∈ small.sweepSpaces, small.hasAddress space obj = false) → obj = 2 := by
    decide
  obtain ⟨result, hresult⟩ := hreturns.mpr (by
    rintro obj hmem hnone _ ⟨⟩ _
    exact decide_eq_true (hplaced obj hmem hnone))
  exact ⟨result, hresult, hexact result hresult⟩

/-- An object that is in no space is passed to the large object space, which does not have it. -/
theorem small_stray : (∀ space, small.hasAddress space 3 = false) ∧
    (∀ large ∈ small.largeObjectsSpace, large.contains 3 = false) ∧
      small.sweepArray false [some 3] = none := by
  refine ⟨fun _ => rfl, ?_, rfl⟩
  rintro _ ⟨⟩
  rfl

end Heap

end NougatArt.SweepArray
