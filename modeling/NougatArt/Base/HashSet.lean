import NougatArt.Core.LinearProbing

/-!
# The hash set of `runtime/base/hash_set.h`

Empty buckets are `none`. The load factors are the rationals 2/5 and 7/10. A probe that has passed
all buckets goes on forever, and so does the function that makes it: it has no result.
-/

namespace NougatArt

open Function

structure HashSet (α : Type*) where
  numElements : ℕ := 0
  numBuckets : ℕ := 0
  elementsUntilExpand : ℕ := 0
  data : ℕ → Option α := fun _ => none

namespace HashSet

variable {α κ : Type*} (hashfn : α → ℕ)

def kMinBuckets : ℕ := 1000

def indexForHash (numBuckets hash : ℕ) : ℕ := if numBuckets = 0 then 0 else hash % numBuckets

def nextIndex (numBuckets index : ℕ) : ℕ := if numBuckets ≤ index + 1 then 0 else index + 1

/-- The loops of `FindIndex` and `FirstAvailableSlot`, which differ in where they stop. -/
def probe (numBuckets : ℕ) (data : ℕ → Option α) (stops : Option α → Bool) : ℕ → ℕ → Option ℕ
  | 0, _ => none
  | fuel + 1, index =>
    if stops (data index) then some index
    else probe numBuckets data stops fuel (nextIndex numBuckets index)

def firstAvailableSlot (numBuckets : ℕ) (data : ℕ → Option α) (index : ℕ) : Option ℕ :=
  probe numBuckets data Option.isNone numBuckets index

/-- `data_[FirstAvailableSlot(IndexForHash(hashfn_(element)))] = element` -/
def store (numBuckets : ℕ) (data : ℕ → Option α) (element : α) : Option (ℕ → Option α) :=
  (firstAvailableSlot numBuckets data (indexForHash numBuckets (hashfn element))).map fun index =>
    update data index (some element)

def storeSlot (numBuckets : ℕ) (data : ℕ → Option α) : Option α → Option (ℕ → Option α)
  | none => some data
  | some element => store hashfn numBuckets data element

def resize (set : HashSet α) (newSize : ℕ) : Option (HashSet α) :=
  let numBuckets := if newSize < kMinBuckets then kMinBuckets else newSize
  ((List.range set.numBuckets).foldlM
    (fun data index => storeSlot hashfn numBuckets data (set.data index)) fun _ => none).map
      fun data => { set with
        numBuckets := numBuckets
        elementsUntilExpand := numBuckets * 7 / 10
        data := data }

def expand (set : HashSet α) : Option (HashSet α) := set.resize hashfn (set.numElements * 5 / 2)

def shrinkToMaximumLoad (set : HashSet α) : Option (HashSet α) :=
  set.resize hashfn (set.numElements * 10 / 7)

/-- The loop of `Reserve`, which adds buckets until the elements fit. -/
def roundUp (numElements numBuckets : ℕ) : ℕ :=
  if numBuckets * 7 / 10 ≤ numElements + 1 then roundUp numElements (numBuckets + 1)
  else numBuckets
termination_by 2 * numElements + 10 - numBuckets

def reserve (set : HashSet α) (numElements : ℕ) : Option (HashSet α) :=
  let numBuckets := roundUp numElements (numElements * 10 / 7)
  if set.numBuckets < numBuckets then set.resize hashfn numBuckets else some set

def expandIfFull (set : HashSet α) : Option (HashSet α) :=
  if set.elementsUntilExpand ≤ set.numElements then set.expand hashfn else some set

def insert (set : HashSet α) (element : α) : Option (HashSet α) := do
  let set ← set.expandIfFull hashfn
  let data ← store hashfn set.numBuckets set.data element
  some { set with numElements := set.numElements + 1, data := data }

/-- `FindIndex`, with the number of buckets for an element that is not found. -/
def find (hashKey : κ → ℕ) (pred : α → κ → Bool) (set : HashSet α) (key : κ) : Option ℕ :=
  if set.numBuckets = 0 then some 0
  else
    (probe set.numBuckets set.data (·.all (pred · key)) set.numBuckets
      (indexForHash set.numBuckets (hashKey key))).map fun index =>
        if (set.data index).isNone then set.numBuckets else index

/-- The least index from `index` on that is not free, or the number of buckets. -/
def nextNonEmptySlot (set : HashSet α) (index : ℕ) : ℕ :=
  ((List.range' (index + 1) (set.numBuckets - (index + 1))).find? fun next =>
    (set.data next).isSome).getD set.numBuckets

def begin (set : HashSet α) : ℕ :=
  if set.numBuckets ≠ 0 ∧ set.data 0 = none then set.nextNonEmptySlot 0 else 0

/-- The test of `Erase` whether an element of the given ideal index may fill the empty index. -/
def fillsGap (numBuckets emptyIndex nextIndex nextIdealIndex : ℕ) : Bool :=
  let unwrappedNextIndex := if nextIndex < emptyIndex then nextIndex + numBuckets else nextIndex
  let unwrappedNextIdealIndex :=
    if nextIdealIndex < emptyIndex then nextIdealIndex + numBuckets else nextIdealIndex
  unwrappedNextIdealIndex ≤ emptyIndex || unwrappedNextIndex < unwrappedNextIdealIndex

/-- The loop of `Erase`: the data afterwards and whether the slot was filled. -/
def closeGap (numBuckets : ℕ) : ℕ → (ℕ → Option α) → ℕ → ℕ → Bool → Option ((ℕ → Option α) × Bool)
  | 0, _, _, _, _ => none
  | fuel + 1, data, emptyIndex, index, filled =>
    let next := nextIndex numBuckets index
    match data next with
    | none => some (update data emptyIndex none, filled)
    | some element =>
      if fillsGap numBuckets emptyIndex next (indexForHash numBuckets (hashfn element)) then
        closeGap numBuckets fuel (update data emptyIndex (some element)) next next true
      else closeGap numBuckets fuel data emptyIndex next filled

/-- The set without the element at an index, and the iterator that `Erase` returns. -/
def erase (set : HashSet α) (index : ℕ) : Option (HashSet α × ℕ) :=
  (closeGap hashfn set.numBuckets set.numBuckets set.data index index false).map fun result =>
    let set := { set with numElements := set.numElements - 1, data := result.1 }
    (set, if result.2 then index else set.nextNonEmptySlot index)

/-- A loop over the set that erases the elements that `erases` chooses, given the elements visited
before. The result has all elements that were visited. -/
def traverse (erases : List α → α → Bool) : ℕ → HashSet α → ℕ → List α → Option (HashSet α × List α)
  | 0, _, _, _ => none
  | fuel + 1, set, index, visited =>
    if index = set.numBuckets then some (set, visited)
    else
      match set.data index with
      | none => none
      | some element =>
        if erases visited element then
          (set.erase hashfn index).bind fun result =>
            traverse erases fuel result.1 result.2 (element :: visited)
        else traverse erases fuel set (set.nextNonEmptySlot index) (element :: visited)

end HashSet

end NougatArt
