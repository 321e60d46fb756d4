import Mathlib

/-!
# Finite index types

Blocks, instructions, moves and workers are numbered. These instances make the
decisions about lists of numbers, and the numerals of small examples, the same terms
everywhere.
-/

namespace NougatArt

instance lawfulBEqFin (count : ℕ) : LawfulBEq (Fin count) := inferInstance

instance neZeroThree : NeZero 3 := ⟨by decide⟩

instance neZeroFour : NeZero 4 := ⟨by decide⟩

instance neZeroSeven : NeZero 7 := ⟨by decide⟩

instance neZeroNine : NeZero 9 := ⟨by decide⟩

end NougatArt
