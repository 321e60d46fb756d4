import Mathlib

/-!
# The Dex register location catalog

The entries of the catalog take one byte or five, so that an entry is found by skipping the
ones before it. The loops that do so count with 16 bits towards a wider bound.
-/

namespace NougatArt.LocationCatalog

open List

/-- The kinds of an entry, in the order of their encodings. -/
inductive Kind
  | inStack | inRegister | inRegisterHigh | inFpuRegister | inFpuRegisterHigh | constant
  | inStackLargeOffset | constantLargeValue

def isShortLocationKind : Kind → Bool
  | .inStackLargeOffset | .constantLargeValue => false
  | _ => true

/-- The kind is in the low three bits. -/
def extractKindFromShortLocation (location : BitVec 8) : Kind :=
  match (location &&& 7).toNat with
  | 0 => .inStack
  | 1 => .inRegister
  | 2 => .inRegisterHigh
  | 3 => .inFpuRegister
  | 4 => .inFpuRegisterHigh
  | 5 => .constant
  | 6 => .inStackLargeOffset
  | _ => .constantLargeValue

def singleShortEntrySize : ℕ := 1

def singleLargeEntrySize : ℕ := 5

def entrySize (firstByte : BitVec 8) : ℕ :=
  if isShortLocationKind (extractKindFromShortLocation firstByte) then singleShortEntrySize
  else singleLargeEntrySize

theorem entrySize_pos (firstByte : BitVec 8) : 0 < entrySize firstByte := by
  rw [entrySize]
  split <;> decide

/-- The loop of both functions. A read outside of the region fails a check, and there is no
result. -/
def skipEntries (region : List (BitVec 8)) (bound : ℕ) (i : BitVec 16) (offset : ℕ) : Option ℕ :=
  if i.toNat < bound then
    match h : region[offset]? with
    | none => none
    | some firstByte =>
      have := (List.getElem?_eq_some_iff.mp h).1
      have := entrySize_pos firstByte
      skipEntries region bound (i + 1) (offset + entrySize firstByte)
  else some offset
termination_by region.length - offset

def kFixedSize : ℕ := 0

def findLocationOffset (region : List (BitVec 8)) (locationCatalogEntryIndex : ℕ) : Option ℕ :=
  skipEntries region locationCatalogEntryIndex 0 kFixedSize

def computeDexRegisterLocationCatalogSize (region : List (BitVec 8))
    (origin numberOfDexLocations : ℕ) : Option ℕ :=
  (skipEntries region numberOfDexLocations 0 (origin + kFixedSize)).map (· - origin)

structure Entry where
  firstByte : BitVec 8
  value : List (BitVec 8)
  fits : 1 + value.length = entrySize firstByte

def catalogBytes (entries : List Entry) : List (BitVec 8) :=
  entries.flatMap fun entry => entry.firstByte :: entry.value

def catalogSize (entries : List Entry) :
    ℕ := (entries.map fun entry => entrySize entry.firstByte).sum

theorem skipEntries_step {region : List (BitVec 8)} {bound offset : ℕ} {i : BitVec 16}
    {firstByte : BitVec 8} (hread : region[offset]? = some firstByte) (hi : i.toNat < bound) :
    skipEntries region bound i offset =
      skipEntries region bound (i + 1) (offset + entrySize firstByte) := by
  rw [skipEntries, if_pos hi]
  split
  · simp_all
  · simp_all

/-- With few enough entries the loop stops behind the last one. -/
theorem skipEntries_catalogBytes (entries : List Entry) :
    ∀ (before after : List (BitVec 8)) (i : BitVec 16), i.toNat + entries.length < 2 ^ 16 →
      skipEntries (before ++ catalogBytes entries ++ after) (i.toNat + entries.length) i
        before.length = some (before.length + catalogSize entries) := by
  induction entries with
  | nil =>
    intro before after i _
    rw [length_nil, Nat.add_zero, skipEntries, if_neg (Nat.lt_irrefl _)]
    rfl
  | cons entry entries ih =>
    intro before after i hbound
    rw [length_cons] at hbound ⊢
    have hnext : (i + 1).toNat = i.toNat + 1 :=
      BitVec.toNat_add_of_lt (show i.toNat + 1 < 2 ^ 16 by omega)
    have hregion : before ++ catalogBytes (entry :: entries) ++ after =
        before ++ entry.firstByte :: entry.value ++ catalogBytes entries ++ after := by
      simp [catalogBytes]
    have hlength : (before ++ entry.firstByte :: entry.value).length =
        before.length + entrySize entry.firstByte := by
      rw [length_append, length_cons, ← entry.fits, Nat.add_comm 1]
    have hrest := ih (before ++ entry.firstByte :: entry.value) after (i + 1) (by omega)
    rw [hlength, hnext, Nat.add_assoc, Nat.add_comm 1] at hrest
    have hfirst : (before ++ catalogBytes (entry :: entries) ++ after)[before.length]? =
        some entry.firstByte := by
      simp [catalogBytes]
    rw [skipEntries_step hfirst (by omega), hregion, hrest, catalogSize, catalogSize, map_cons,
      sum_cons, Nat.add_assoc]

/-- The counter never reaches a bound of more than 16 bits. -/
theorem skipEntries_eq_none (region : List (BitVec 8)) {bound : ℕ} (hbound : 2 ^ 16 ≤ bound)
    (i : BitVec 16) (offset : ℕ) : skipEntries region bound i offset = none := by
  fun_induction skipEntries region bound i offset with
  | case1 => rfl
  | case2 i offset _ firstByte _ _ _ ih => exact ih
  | case3 i offset hnot => exact absurd (i.isLt.trans_le hbound) hnot

/-- Up to 65535 entries the results are the sizes of the entries before the index and of all
entries; beyond, neither function returns. -/
theorem catalog_offsets (entries : List Entry) :
    (∀ index < entries.length, findLocationOffset (catalogBytes entries) index =
      if index < 2 ^ 16 then some (catalogSize (entries.take index)) else none) ∧
    ∀ before after : List (BitVec 8), computeDexRegisterLocationCatalogSize
      (before ++ catalogBytes entries ++ after) before.length entries.length =
        if entries.length < 2 ^ 16 then some (catalogSize entries) else none := by
  constructor
  · intro index hindex
    rw [findLocationOffset]
    split
    next hshort =>
      have hlength : (entries.take index).length = index := length_take_of_le hindex.le
      have hskip := skipEntries_catalogBytes (entries.take index) []
        (catalogBytes (entries.drop index)) 0 (by simpa [hlength] using hshort)
      rw [nil_append, catalogBytes, catalogBytes, ← flatMap_append, take_append_drop, hlength]
        at hskip
      simpa [kFixedSize, catalogBytes] using hskip
    next hlong => exact skipEntries_eq_none _ (not_lt.mp hlong) _ _
  · intro before after
    rw [computeDexRegisterLocationCatalogSize]
    split
    next hshort =>
      have hskip := skipEntries_catalogBytes entries before after 0 (by simpa using hshort)
      rw [show BitVec.toNat 0 = 0 from rfl, Nat.zero_add] at hskip
      rw [kFixedSize, Nat.add_zero, hskip, Option.map_some, Nat.add_sub_cancel_left]
    next hlong => rw [skipEntries_eq_none _ (not_lt.mp hlong), Option.map_none]

/-- Neither function returns for 65537 entries of one byte. -/
theorem catalog_offsets_overflow : ∃ entries : List Entry, entries.length = 2 ^ 16 + 1 ∧
    findLocationOffset (catalogBytes entries) (2 ^ 16) = none ∧
    computeDexRegisterLocationCatalogSize (catalogBytes entries) 0 entries.length = none := by
  refine ⟨replicate (2 ^ 16 + 1) ⟨0, [], rfl⟩, length_replicate, ?_, ?_⟩
  · exact skipEntries_eq_none _ (Nat.le_refl _) _ _
  · rw [computeDexRegisterLocationCatalogSize, length_replicate,
      skipEntries_eq_none _ (Nat.le_succ _), Option.map_none]

end NougatArt.LocationCatalog
