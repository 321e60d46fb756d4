import NougatArt.Core.Indices

/-!
# Locations of operands and the words they stand for

A location is a register, a pair of registers, a slot of the stack or a constant. The
memory of the machine is divided into words of 32 bits: a register pair and a double
stack slot are two words that are locations of their own, and a register is one or two
words, as its operands in a set of parallel moves are.
-/

namespace NougatArt.Moves

inductive Location
  | noLocation
  | constant (constant : ℕ)
  | stackSlot (index : ℤ)
  | doubleStackSlot (index : ℤ)
  | register (reg : ℕ)
  | fpuRegister (reg : ℕ)
  | registerPair (low high : ℕ)
  | fpuRegisterPair (low high : ℕ)
  deriving DecidableEq

namespace Location

def isConstant : Location → Bool
  | constant _ => true
  | _ => false

def isStackSlot : Location → Bool
  | stackSlot _ => true
  | _ => false

def isDoubleStackSlot : Location → Bool
  | doubleStackSlot _ => true
  | _ => false

def isPair : Location → Bool
  | registerPair _ _ | fpuRegisterPair _ _ => true
  | _ => false

def lowOf : Location → Location
  | registerPair low _ => register low
  | fpuRegisterPair low _ => fpuRegister low
  | doubleStackSlot index => stackSlot index
  | _ => noLocation

def highOf : Location → Location
  | registerPair _ high => register high
  | fpuRegisterPair _ high => fpuRegister high
  | doubleStackSlot index => stackSlot (index + 4)
  | _ => noLocation

def hasHalves (location : Location) : Bool := location.isPair || location.isDoubleStackSlot

def contains (location other : Location) : Bool :=
  location = other || (location.hasHalves && (location.lowOf = other || location.highOf = other))

def overlapsWith (location other : Location) : Bool :=
  location.contains other || other.contains location

theorem overlapsWith_comm (loc other : Location) :
    loc.overlapsWith other = other.overlapsWith loc :=
  Bool.or_comm _ _

@[simp]
theorem overlapsWith_self (loc : Location) : loc.overlapsWith loc := by
  simp [overlapsWith, contains]

theorem overlapsWith_iff {loc other : Location} : loc.overlapsWith other ↔ loc = other ∨
      (loc.hasHalves ∧ (loc.lowOf = other ∨ loc.highOf = other)) ∨
      other.hasHalves ∧ (other.lowOf = loc ∨ other.highOf = loc) := by
  simp only [overlapsWith, contains, Bool.or_eq_true, Bool.and_eq_true, decide_eq_true_eq]
  constructor
  · rintro ((heq | hhalf) | (heq | hhalf))
    · exact .inl heq
    · exact .inr (.inl hhalf)
    · exact .inl heq.symm
    · exact .inr (.inr hhalf)
  · rintro (heq | hhalf | hhalf)
    · exact .inl (.inl heq)
    · exact .inl (.inr hhalf)
    · exact .inr (.inr hhalf)

end Location

inductive Word
  | core (reg : ℕ) (high : Bool)
  | fpu (reg : ℕ) (high : Bool)
  | stack (index : ℤ)
  deriving DecidableEq

/-- The location without halves that a word is part of. -/
def Word.owner : Word → Location
  | core reg _ => .register reg
  | fpu reg _ => .fpuRegister reg
  | stack index => .stackSlot index

structure Widths where
  isWideCore : ℕ → Bool
  isWideFpu : ℕ → Bool

namespace Location

variable (widths : Widths)

def words : Location → List Word
  | noLocation | constant _ => []
  | stackSlot index => [.stack index]
  | doubleStackSlot index => [.stack index, .stack (index + 4)]
  | register reg =>
    if widths.isWideCore reg then [.core reg false, .core reg true] else [.core reg false]
  | fpuRegister reg =>
    if widths.isWideFpu reg then [.fpu reg false, .fpu reg true] else [.fpu reg false]
  | registerPair low high => [.core low false, .core high false]
  | fpuRegisterPair low high => [.fpu low false, .fpu high false]

/-- A location that can hold a value; the registers of a pair are different registers of one
word. -/
def WellFormed : Location → Prop
  | noLocation | constant _ => False
  | stackSlot _ | doubleStackSlot _ | register _ | fpuRegister _ => True
  | registerPair low high =>
    low ≠ high ∧ widths.isWideCore low = false ∧ widths.isWideCore high = false
  | fpuRegisterPair low high =>
    low ≠ high ∧ widths.isWideFpu low = false ∧ widths.isWideFpu high = false

variable {widths}

theorem length_words_le (loc : Location) : (loc.words widths).length ≤ 2 := by
  cases loc with
  | register reg | fpuRegister reg =>
    simp only [words]
    split <;> simp
  | _ => simp [words]

variable {loc : Location} {word : Word}

section

variable (hloc : loc.WellFormed widths)

include hloc

theorem WellFormed.isConstant : loc.isConstant = false := by
  cases loc <;> first | rfl | exact hloc.elim

theorem WellFormed.nodup : (loc.words widths).Nodup := by
  cases loc with
  | noLocation | constant constant | stackSlot i | doubleStackSlot i => simp [words]
  | register reg | fpuRegister reg =>
    simp only [words]
    split <;> simp
  | registerPair low high | fpuRegisterPair low high => simpa [words] using hloc.1

theorem WellFormed.words_ne_nil : loc.words widths ≠ [] := by
  cases loc with
  | noLocation | constant constant => exact hloc.elim
  | register reg | fpuRegister reg =>
    simp only [words]
    split <;> simp
  | _ => simp [words]

/-- The two words of a location with halves are its halves. -/
theorem WellFormed.words_halves (hhalves : loc.hasHalves) :
    loc.lowOf.WellFormed widths ∧ loc.highOf.WellFormed widths ∧
      ∃ low high, loc.words widths = [low, high] ∧ loc.lowOf.words widths = [low] ∧
        loc.highOf.words widths = [high] := by
  cases loc with
  | doubleStackSlot i =>
    exact ⟨trivial, trivial, .stack i, .stack (i + 4), rfl, rfl, rfl⟩
  | registerPair low high =>
    refine ⟨trivial, trivial, .core low false, .core high false, rfl, ?_, ?_⟩
    · simp [lowOf, words, hloc.2.1]
    · simp [highOf, words, hloc.2.2]
  | fpuRegisterPair low high =>
    refine ⟨trivial, trivial, .fpu low false, .fpu high false, rfl, ?_, ?_⟩
    · simp [lowOf, words, hloc.2.1]
    · simp [highOf, words, hloc.2.2]
  | _ => simp [hasHalves, isPair, isDoubleStackSlot] at hhalves

end

theorem hasHalves_lowOf (loc : Location) : loc.lowOf.hasHalves = false := by
  cases loc <;> rfl

theorem hasHalves_highOf (loc : Location) : loc.highOf.hasHalves = false := by
  cases loc <;> rfl

theorem owner_of_mem (hhalves : loc.hasHalves = false)
    (hword : word ∈ loc.words widths) : word.owner = loc := by
  cases loc with
  | noLocation | constant constant => cases hword
  | stackSlot i =>
    obtain rfl : word = .stack i := by simpa [words] using hword
    rfl
  | register reg | fpuRegister reg =>
    simp only [words] at hword
    split at hword
    · rcases List.mem_pair.mp hword with rfl | rfl <;> rfl
    · rw [List.mem_singleton.mp hword]
      rfl
  | doubleStackSlot i | registerPair low high | fpuRegisterPair low high => cases hhalves

theorem owner_of_mem_halves (hloc : loc.WellFormed widths)
    (hhalves : loc.hasHalves) (hword : word ∈ loc.words widths) :
    word.owner = loc.lowOf ∨ word.owner = loc.highOf := by
  obtain ⟨-, -, low, high, hwords, hlow, hhigh⟩ := hloc.words_halves hhalves
  rw [hwords] at hword
  rcases List.mem_pair.mp hword with rfl | rfl
  · exact .inl (owner_of_mem (hasHalves_lowOf loc) (hlow ▸ List.mem_singleton_self _))
  · exact .inr (owner_of_mem (hasHalves_highOf loc) (hhigh ▸ List.mem_singleton_self _))

end Location

/-- The locations with halves in a set of moves are apart from each other: the overlaps that
`OverlapsWith` does not see do not occur. -/
structure Layout where
  widths : Widths
  doubles : Location → Prop
  apart : ∀ location other, doubles location → doubles other → location ≠ other →
    List.Disjoint (location.words widths) (other.words widths)

namespace Layout

variable (layout : Layout)

structure Operand (location : Location) : Prop where
  wellFormed : location.WellFormed layout.widths
  double : location.hasHalves = true → layout.doubles location

variable {layout}

variable {loc : Location}

section

variable (hloc : layout.Operand loc)

include hloc

section

variable (hhalves : loc.hasHalves = true)

include hhalves

theorem Operand.lowOf : layout.Operand loc.lowOf :=
  ⟨(hloc.wellFormed.words_halves hhalves).1, fun hagain => by
    rw [Location.hasHalves_lowOf] at hagain
    cases hagain⟩

theorem Operand.highOf : layout.Operand loc.highOf :=
  ⟨(hloc.wellFormed.words_halves hhalves).2.1, fun hagain => by
    rw [Location.hasHalves_highOf] at hagain
    cases hagain⟩

/-- A word of a half is a word of the location. -/
theorem Operand.exists_mem_of_half {half : Location}
    (hhalf : loc.lowOf = half ∨ loc.highOf = half) :
    ∃ word, word ∈ loc.words layout.widths ∧ word ∈ half.words layout.widths := by
  obtain ⟨-, -, low, high, hwords, hlow, hhigh⟩ := hloc.wellFormed.words_halves hhalves
  rcases hhalf with rfl | rfl
  · exact ⟨low, by simp [hwords], by simp [hlow]⟩
  · exact ⟨high, by simp [hwords], by simp [hhigh]⟩

end

/-- Operands overlap when they share a word. -/
theorem overlapsWith_iff_share {other : Location}
    (hother : layout.Operand other) : loc.overlapsWith other ↔
      ∃ word, word ∈ loc.words layout.widths ∧ word ∈ other.words layout.widths := by
  rw [Location.overlapsWith_iff]
  constructor
  · rintro (rfl | ⟨hhalves, hhalf⟩ | ⟨hhalves, hhalf⟩)
    · obtain ⟨word, hword⟩ := List.exists_mem_of_ne_nil _ hloc.wellFormed.words_ne_nil
      exact ⟨word, hword, hword⟩
    · exact hloc.exists_mem_of_half hhalves hhalf
    · obtain ⟨word, hword, hword'⟩ := hother.exists_mem_of_half hhalves hhalf
      exact ⟨word, hword', hword⟩
  · rintro ⟨word, hword, hword'⟩
    cases hhalves : loc.hasHalves with
    | false =>
      have howner := Location.owner_of_mem hhalves hword
      cases hhalves' : other.hasHalves with
      | false => exact .inl (howner.symm.trans (Location.owner_of_mem hhalves' hword'))
      | true =>
        refine .inr (.inr ⟨rfl, ?_⟩)
        rw [← howner]
        exact (Location.owner_of_mem_halves hother.wellFormed hhalves' hword').imp Eq.symm Eq.symm
    | true =>
      cases hhalves' : other.hasHalves with
      | false =>
        refine .inr (.inl ⟨rfl, ?_⟩)
        rw [← Location.owner_of_mem hhalves' hword']
        exact (Location.owner_of_mem_halves hloc.wellFormed hhalves hword).imp Eq.symm Eq.symm
      | true =>
        by_contra hnot
        exact layout.apart loc other (hloc.double hhalves) (hother.double hhalves')
          (fun heq => hnot (.inl heq)) hword hword'

theorem Operand.ne_noLocation : loc ≠ .noLocation := by
  rintro rfl
  exact hloc.wellFormed

end

variable {other : Location}

/-- Constants and moves without source do not overlap with operands. -/
theorem overlapsWith_of_not_operand (hwords : loc = .noLocation ∨ loc.isConstant)
    (hother : layout.Operand other) : loc.overlapsWith other = false := by
  have hhalves : loc.hasHalves = false := by
    rcases hwords with rfl | hconst
    · rfl
    · cases loc <;> first | rfl | cases hconst
  have hne : ∀ operand, operand.WellFormed layout.widths → operand ≠ loc := by
    rintro operand hop rfl
    rcases hwords with rfl | hconst
    · exact hop
    · cases operand <;> first | exact hop | cases hconst
  rw [Bool.eq_false_iff]
  intro hover
  rcases Location.overlapsWith_iff.mp hover with rfl | ⟨hloc, -⟩ | ⟨hhalf, heq⟩
  · exact hne _ hother.wellFormed rfl
  · rw [hhalves] at hloc
    cases hloc
  · rcases heq with rfl | rfl
    · exact hne _ (hother.wellFormed.words_halves hhalf).1 rfl
    · exact hne _ (hother.wellFormed.words_halves hhalf).2.1 rfl

theorem disjoint_of_not_overlapsWith (hloc : layout.Operand loc)
    (hother : layout.Operand other) (hover : loc.overlapsWith other = false) :
    List.Disjoint (loc.words layout.widths) (other.words layout.widths) := by
  intro word hword hword'
  rw [Bool.eq_false_iff] at hover
  exact hover ((overlapsWith_iff_share hloc hother).mpr ⟨word, hword, hword'⟩)

end Layout

end NougatArt.Moves
