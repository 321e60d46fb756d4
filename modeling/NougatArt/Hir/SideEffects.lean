import NougatArt.Hir.Types

/-!
# Side effects of instructions

An instruction may change or depend on the fields of each type, on the array
elements of each type, and on garbage collection. Bits 0 to 8 stand for the
types of fields, 9 to 17 for those of array elements and 18 for collections.
-/

namespace NougatArt

open Finset

abbrev EffectBit := Fin 19

/-- `SideEffects`, with the bits for changes and those for dependencies apart. -/
structure SideEffects where
  changes : Finset EffectBit
  dependsOn : Finset EffectBit
  deriving DecidableEq

namespace SideEffects

def kCanTriggerGCBit : EffectBit := 18

def kAllWrites : Finset EffectBit := univ.erase kCanTriggerGCBit

def none : SideEffects := ⟨∅, ∅⟩

def all : SideEffects := ⟨univ, univ⟩

def canTriggerGC : SideEffects := ⟨{kCanTriggerGCBit}, ∅⟩

/-- The bit of a type among those for fields; `void` has none. -/
def typeFlag : PrimitiveType → Finset EffectBit
  | .not => {0}
  | .boolean => {1}
  | .byte => {2}
  | .char => {3}
  | .short => {4}
  | .int => {5}
  | .long => {6}
  | .float => {7}
  | .double => {8}
  | .void => ∅

/-- The HIR aliases `int` with `float` and `long` with `double`. -/
def typeFlagWithAlias : PrimitiveType → Finset EffectBit
  | .int | .float => typeFlag .int ∪ typeFlag .float
  | .long | .double => typeFlag .long ∪ typeFlag .double
  | type => typeFlag type

/-- `FieldWriteOfType` for a field that is not volatile. -/
def fieldWriteOfType (type : PrimitiveType) : SideEffects := ⟨typeFlagWithAlias type, ∅⟩

def union (effects other : SideEffects) : SideEffects :=
  ⟨effects.changes ∪ other.changes, effects.dependsOn ∪ other.dependsOn⟩

def doesAnyWrite (effects : SideEffects) : Bool :=
  decide (effects.changes ∩ kAllWrites).Nonempty

def doesAll (effects : SideEffects) : Bool :=
  decide (effects = all)

/-- Whether something is read that the other effects write. -/
def mayDependOn (effects other : SideEffects) : Bool :=
  decide (other.changes ∩ effects.dependsOn).Nonempty

variable {effects : SideEffects} {bit : EffectBit}

theorem notMem_changes_of_mayDependOn {other : SideEffects}
    (hindependent : effects.mayDependOn other = false) (hbit : bit ∈ effects.dependsOn) :
    bit ∉ other.changes := by
  intro hchange
  have hnonempty : (other.changes ∩ effects.dependsOn).Nonempty :=
    ⟨bit, mem_inter.mpr ⟨hchange, hbit⟩⟩
  rw [mayDependOn, decide_eq_false_iff_not] at hindependent
  exact hindependent hnonempty

theorem notMem_changes_of_doesAnyWrite
    (hwrite : effects.doesAnyWrite = false) (hbit : bit ∈ kAllWrites) : bit ∉ effects.changes := by
  intro hchange
  rw [doesAnyWrite, decide_eq_false_iff_not] at hwrite
  exact hwrite ⟨bit, mem_inter.mpr ⟨hchange, hbit⟩⟩

end SideEffects

end NougatArt
