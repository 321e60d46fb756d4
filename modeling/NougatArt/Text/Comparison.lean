import NougatArt.Text.Utf16RoundTrip

/-!
# Comparing texts

Texts are ordered by their code units. The comparison of two encodings goes by characters,
and gets out of step where a surrogate pair meets a leading surrogate that stands alone.
-/

namespace NougatArt.Text

open List Std

section Comparison

/-- The end of the comparison of two encodings, at the first characters that differ. -/
def compareChars (c1 c2 : UInt32) : ℤ :=
  let leadingSurrogateDiff : UInt32 :=
    (getLeadingUtf16Char c1).toUInt32 - (getLeadingUtf16Char c2).toUInt32
  if leadingSurrogateDiff ≠ 0 then leadingSurrogateDiff.toInt32.toInt
  else (getTrailingUtf16Char c1).toNat - (getTrailingUtf16Char c2).toNat

def compareModifiedUtf8ToModifiedUtf8AsUtf16CodePointValues (utf8₁ utf8₂ : List Byte) : Option ℤ :=
  match utf8₁.head?, utf8₂.head? with
  | some first₁, some first₂ =>
    if first₁ = 0 then some (if first₂ = 0 then 0 else -1)
    else if first₂ = 0 then some 1
    else
      match h : getUtf16FromUtf8 utf8₁, getUtf16FromUtf8 utf8₂ with
      | some (c1, rest₁), some (c2, rest₂) =>
        have := length_lt_of_getUtf16FromUtf8 h
        if c1 = c2 then compareModifiedUtf8ToModifiedUtf8AsUtf16CodePointValues rest₁ rest₂
        else some (compareChars c1 c2)
      | _, _ => none
  | _, _ => none
termination_by utf8₁.length

def compareModifiedUtf8ToUtf16AsCodePointValues (utf8 : List Byte) : List CodeUnit → Option ℤ
  | [] => utf8.head?.map fun first => if first = 0 then 0 else 1
  | rhs :: utf16 =>
    match utf8.head? with
    | none => none
    | some first =>
      if first = 0 then some (-1)
      else
        match getUtf16FromUtf8 utf8 with
        | none => none
        | some (pair, rest) =>
          let lhs := getLeadingUtf16Char pair
          let lhs2 := getTrailingUtf16Char pair
          if lhs ≠ rhs then some (if rhs < lhs then 1 else -1)
          else if lhs2 ≠ 0 then
            match utf16 with
            | [] => some 1
            | rhs2 :: utf16 =>
              if lhs2 ≠ rhs2 then some (if rhs2 < lhs2 then 1 else -1)
              else compareModifiedUtf8ToUtf16AsCodePointValues rest utf16
          else compareModifiedUtf8ToUtf16AsCodePointValues rest utf16

end Comparison

section Order

theorem compare_cons (a b : CodeUnit) (as bs : List CodeUnit) :
    compare (a :: as) (b :: bs) = (compare a b).then (compare as bs) := List.compareLex_cons_cons

theorem compare_append_left (units as bs : List CodeUnit) :
    compare (units ++ as) (units ++ bs) = compare as bs := by
  induction units with
  | nil => rfl
  | cons unit units ih =>
    rw [cons_append, cons_append, compare_cons, ReflOrd.compare_self, ih]
    rfl

theorem compare_then_of_ne {a b : CodeUnit} (hne : a ≠ b) (order : Ordering) :
    (compare a b).then order = compare a b := by
  cases h : compare a b with
  | eq => exact absurd (LawfulEqOrd.eq_of_compare h) hne
  | _ => rfl

theorem compare_sub (a b : CodeUnit) : compare ((a.toNat : ℤ) - b.toNat) 0 = compare a b := by
  simp only [compare, compareOfLessAndEq, UInt16.lt_iff_toNat_lt, ← UInt16.toNat_inj]
  split_ifs <;> first | rfl | omega

theorem compare_of_lt {a b : CodeUnit} (hlt : a.toNat < b.toNat) : compare a b = .lt := by
  rw [← compare_sub]
  exact Int.compare_eq_lt.mpr (by omega)

theorem compare_sign {a b : CodeUnit} (hne : a ≠ b) :
    compare (if b < a then 1 else -1 : ℤ) 0 = compare a b := by
  rw [← compare_sub]
  rw [ne_eq, ← UInt16.toNat_inj] at hne
  simp only [compare, compareOfLessAndEq, UInt16.lt_iff_toNat_lt]
  split_ifs <;> first | rfl | omega

/-- The difference goes through an unsigned word. -/
theorem toInt_sub_toUInt32 (a b : CodeUnit) :
    (a.toUInt32 - b.toUInt32).toInt32.toInt = (a.toNat : ℤ) - b.toNat := by
  have ha := a.toNat_lt
  have hb := b.toNat_lt
  refine (BitVec.toInt_eq_toNat_bmod _).trans ?_
  rw [UInt32.toNat_toBitVec]
  change Int.bmod (a.toUInt32 - b.toUInt32).toNat _ = _
  rw [UInt32.toNat_sub, UInt16.toNat_toUInt32, UInt16.toNat_toUInt32, Int.bmod_def]
  omega

theorem compare_compareChars (c1 c2 : UInt32) : compare (compareChars c1 c2) 0 =
    (compare (getLeadingUtf16Char c1) (getLeadingUtf16Char c2)).then
      (compare (getTrailingUtf16Char c1) (getTrailingUtf16Char c2)) := by
  have hdiff := toInt_sub_toUInt32 (getLeadingUtf16Char c1) (getLeadingUtf16Char c2)
  rw [compareChars]
  by_cases heq : getLeadingUtf16Char c1 = getLeadingUtf16Char c2
  · rw [heq, UInt32.sub_self, if_neg (not_not.mpr rfl), compare_sub, ReflOrd.compare_self]
    rfl
  · rw [if_pos, hdiff, compare_sub, compare_then_of_ne heq]
    intro hzero
    rw [hzero] at hdiff
    refine heq (UInt16.toNat_inj.mp ?_)
    change (0 : ℤ) = _ at hdiff
    omega

/-- Behind a common leading surrogate one text goes on with a trailing surrogate and the other one
with a unit from 0xe000 on. -/
def OutOfStep (units utf16 : List CodeUnit) : Prop :=
  ∃ common lead next₁ next₂ rest₁ rest₂, units = common ++ lead :: next₁ :: rest₁ ∧
    utf16 = common ++ lead :: next₂ :: rest₂ ∧ isLeadingSurrogate lead ∧
    (isTrailingSurrogate next₁ ∧ 0xe000 ≤ next₂ ∨ 0xe000 ≤ next₁ ∧ isTrailingSurrogate next₂)

theorem OutOfStep.ne_nil {units utf16 : List CodeUnit} (h : OutOfStep units utf16) :
    units ≠ [] ∧ utf16 ≠ [] := by
  obtain ⟨common, lead, next₁, next₂, rest₁, rest₂, rfl, rfl, -⟩ := h
  simp

theorem outOfStep_cons {a b : CodeUnit} {as bs : List CodeUnit} :
    OutOfStep (a :: as) (b :: bs) ↔ a = b ∧ (OutOfStep as bs ∨ isLeadingSurrogate a ∧
      ∃ next₁ ∈ as.head?, ∃ next₂ ∈ bs.head?, isTrailingSurrogate next₁ ∧ 0xe000 ≤ next₂ ∨
        0xe000 ≤ next₁ ∧ isTrailingSurrogate next₂) := by
  constructor
  · rintro ⟨common, lead, next₁, next₂, rest₁, rest₂, h1, h2, hlead, hnext⟩
    cases common with
    | nil =>
      obtain ⟨rfl, rfl⟩ := cons.inj h1
      obtain ⟨rfl, rfl⟩ := cons.inj h2
      exact ⟨rfl, .inr ⟨hlead, next₁, rfl, next₂, rfl, hnext⟩⟩
    | cons c common =>
      obtain ⟨rfl, rfl⟩ := cons.inj h1
      obtain ⟨rfl, rfl⟩ := cons.inj h2
      exact ⟨rfl, .inl ⟨common, lead, next₁, next₂, rest₁, rest₂, rfl, rfl, hlead, hnext⟩⟩
  · rintro ⟨rfl, ⟨common, lead, next₁, next₂, rest₁, rest₂, rfl, rfl, h⟩ |
      ⟨hlead, next₁, h1, next₂, h2, hnext⟩⟩
    · exact ⟨a :: common, lead, next₁, next₂, rest₁, rest₂, rfl, rfl, h⟩
    · obtain ⟨rest₁, rfl⟩ := head?_eq_some_iff.mp h1
      obtain ⟨rest₂, rfl⟩ := head?_eq_some_iff.mp h2
      exact ⟨[], a, next₁, next₂, rest₁, rest₂, rfl, rfl, hlead, hnext⟩

theorem not_high_of_isTrailingSurrogate {ch : CodeUnit} (hch : isTrailingSurrogate ch) :
    ¬ 0xe000 ≤ ch := by
  have := (isTrailingSurrogate_iff ch).mp hch
  rw [UInt16.le_iff_toNat_le]
  exact fun h => absurd (h.trans this.2) (by decide)

theorem not_isLeadingSurrogate {ch : CodeUnit} (hch : isTrailingSurrogate ch) :
    ¬ isLeadingSurrogate ch := by
  rw [isTrailingSurrogate_iff] at hch
  rw [isLeadingSurrogate_iff]
  omega

theorem OutOfStep.symm {units utf16 : List CodeUnit} (h : OutOfStep units utf16) :
    OutOfStep utf16 units := by
  obtain ⟨common, lead, next₁, next₂, rest₁, rest₂, h1, h2, hlead, hnext⟩ := h
  exact ⟨common, lead, next₂, next₁, rest₂, rest₁, h2, h1, hlead, hnext.symm.imp And.symm And.symm⟩

section Chars

variable {c1 c2 : UInt32} {bytes₁ bytes₂ : List Byte}

theorem eq_of_chars (hlead : getLeadingUtf16Char c1 = getLeadingUtf16Char c2)
    (htrail : getTrailingUtf16Char c1 = getTrailingUtf16Char c2) : c1 = c2 := by
  rw [← UInt16.toNat_inj, getLeadingUtf16Char_toNat, getLeadingUtf16Char_toNat] at hlead
  rw [← UInt16.toNat_inj, getTrailingUtf16Char_toNat, getTrailingUtf16Char_toNat] at htrail
  rw [← UInt32.toNat_inj]
  omega

theorem compareUtf8_step (h1 : EncodesChar c1 bytes₁) (h2 : EncodesChar c2 bytes₂)
    (rest₁ rest₂ : List Byte) :
    compareModifiedUtf8ToModifiedUtf8AsUtf16CodePointValues (bytes₁ ++ rest₁) (bytes₂ ++ rest₂) =
      if c1 = c2 then compareModifiedUtf8ToModifiedUtf8AsUtf16CodePointValues rest₁ rest₂
      else some (compareChars c1 c2) := by
  have hread1 := h1.read rest₁
  have hread2 := h2.read rest₂
  obtain ⟨first₁, tail₁, rfl, hfirst1⟩ := h1.exists_cons
  obtain ⟨first₂, tail₂, rfl, hfirst2⟩ := h2.exists_cons
  rw [compareModifiedUtf8ToModifiedUtf8AsUtf16CodePointValues]
  simp only [cons_append, head?_cons, if_neg hfirst1, if_neg hfirst2]
  rw [cons_append] at hread1 hread2
  split
  next c c' rest rest' hread1' hread2' => simp_all
  next hnone => exact absurd hread2 (hnone _ _ _ _ hread1)

/-- A pair is above its leading surrogate alone, unless a unit from 0xe000 on is behind it. -/
theorem compare_alone_pair {units : List CodeUnit} {lead trail : CodeUnit} (rest : List CodeUnit)
    (halone : StandsAlone lead units) (hlead : isLeadingSurrogate lead)
    (htrail : isTrailingSurrogate trail) : compare units (trail :: rest) = .lt ↔
      ¬ OutOfStep (lead :: units) (lead :: trail :: rest) := by
  cases units with
  | nil =>
    refine iff_of_true rfl fun h => ?_
    obtain ⟨-, h | ⟨-, next, hnext, -⟩⟩ := outOfStep_cons.mp h
    · exact h.ne_nil.1 rfl
    · cases hnext
  | cons next units =>
    have hnot : ¬ isTrailingSurrogate next := fun hnext => halone next rfl ⟨hlead, hnext⟩
    rw [outOfStep_cons, outOfStep_cons, compare_cons]
    by_cases hhigh : 0xe000 ≤ next
    · have hlt : trail.toNat < next.toNat := by
        have hle : 0xe000 ≤ next.toNat := hhigh
        have := (isTrailingSurrogate_iff trail).mp htrail
        omega
      rw [OrientedOrd.eq_swap, compare_of_lt hlt]
      refine iff_of_false (fun h => by cases h) (not_not_intro ⟨rfl, .inr ⟨hlead, next, rfl,
        trail, rfl, .inr ⟨hhigh, htrail⟩⟩⟩)
    · have hlt : next.toNat < trail.toNat := by
        have hlow : ¬ 0xe000 ≤ next.toNat := hhigh
        rw [isTrailingSurrogate_iff] at hnot htrail
        omega
      rw [compare_of_lt hlt]
      refine iff_of_true rfl ?_
      rintro ⟨-, ⟨rfl, -⟩ | ⟨-, _, ⟨⟩, _, ⟨⟩, ⟨htrail, -⟩ | ⟨hhigh', -⟩⟩⟩
      · exact hnot htrail
      · exact hnot htrail
      · exact hhigh hhigh'

theorem storedUnits_append (ch : UInt32) (rest : List CodeUnit) : storedUnits ch ++ rest =
    getLeadingUtf16Char ch ::
      if getTrailingUtf16Char ch ≠ 0 then getTrailingUtf16Char ch :: rest else rest := by
  rw [storedUnits]
  split <;> rfl

theorem compare_zero_of_isTrailingSurrogate {ch : CodeUnit} (hch : isTrailingSurrogate ch) :
    compare 0 ch = .lt :=
  compare_of_lt (Nat.lt_of_lt_of_le (by decide) ((isTrailingSurrogate_iff ch).mp hch).1)

/-- The first characters that differ decide. -/
theorem compare_storedUnits {rest₁ rest₂ : List CodeUnit} (hfirst1 : IsFirstChar c1 rest₁)
    (hfirst2 : IsFirstChar c2 rest₂) (hne : c1 ≠ c2) :
    compare (compareChars c1 c2) 0 = compare (storedUnits c1 ++ rest₁) (storedUnits c2 ++ rest₂) ↔
      ¬ OutOfStep (storedUnits c1 ++ rest₁) (storedUnits c2 ++ rest₂) := by
  rw [storedUnits_append, storedUnits_append, compare_cons, compare_compareChars]
  by_cases hlead : getLeadingUtf16Char c1 = getLeadingUtf16Char c2
  · rw [hlead, ReflOrd.compare_self, Ordering.eq_then, Ordering.eq_then]
    rcases hfirst1 with ⟨hlead1, htrail1⟩ | ⟨htrail1, halone1⟩ <;>
      rcases hfirst2 with ⟨hlead2, htrail2⟩ | ⟨htrail2, halone2⟩
    · have hdiff := fun htrail => hne (eq_of_chars hlead htrail)
      rw [if_pos (ne_zero_of_isTrailingSurrogate htrail1),
        if_pos (ne_zero_of_isTrailingSurrogate htrail2), compare_cons, compare_then_of_ne hdiff]
      refine iff_of_true rfl ?_
      rw [outOfStep_cons, outOfStep_cons]
      rintro ⟨-, ⟨htrail, -⟩ | ⟨-, _, ⟨⟩, _, ⟨⟩, ⟨-, hhigh⟩ | ⟨hhigh, -⟩⟩⟩
      · exact hdiff htrail
      · exact not_high_of_isTrailingSurrogate htrail2 hhigh
      · exact not_high_of_isTrailingSurrogate htrail1 hhigh
    · rw [if_neg (not_not.mpr htrail2), if_pos (ne_zero_of_isTrailingSurrogate htrail1), htrail2,
        OrientedOrd.eq_swap, compare_zero_of_isTrailingSurrogate htrail1, OrientedOrd.eq_swap,
        Ordering.swap_inj, eq_comm, compare_alone_pair _ halone2 (hlead ▸ hlead1) htrail1]
      exact not_congr ⟨.symm, .symm⟩
    · rw [if_neg (not_not.mpr htrail1), if_pos (ne_zero_of_isTrailingSurrogate htrail2), htrail1,
        compare_zero_of_isTrailingSurrogate htrail2, eq_comm,
        compare_alone_pair _ (hlead ▸ halone1) hlead2 htrail2]
    · exact absurd (eq_of_chars hlead (htrail1.trans htrail2.symm)) hne
  · rw [compare_then_of_ne hlead, compare_then_of_ne hlead, outOfStep_cons]
    exact iff_of_true rfl fun h => hlead h.1

theorem outOfStep_storedUnits {rest₁ rest₂ : List CodeUnit} (hfirst1 : IsFirstChar c1 rest₁)
    (hfirst2 : IsFirstChar c1 rest₂) :
    OutOfStep (storedUnits c1 ++ rest₁) (storedUnits c1 ++ rest₂) ↔ OutOfStep rest₁ rest₂ := by
  rw [storedUnits_append, storedUnits_append, outOfStep_cons, eq_self_iff_true, true_and]
  by_cases htrail : getTrailingUtf16Char c1 = 0
  · have halone : ∀ {rest}, IsFirstChar c1 rest → StandsAlone (getLeadingUtf16Char c1) rest :=
      fun hfirst => (hfirst.resolve_left fun h =>
        ne_zero_of_isTrailingSurrogate h.2 htrail).2
    rw [if_neg (not_not.mpr htrail), if_neg (not_not.mpr htrail)]
    refine or_iff_left ?_
    rintro ⟨hlead, next₁, h1, next₂, h2, ⟨hnext, -⟩ | ⟨-, hnext⟩⟩
    · exact halone hfirst1 next₁ h1 ⟨hlead, hnext⟩
    · exact halone hfirst2 next₂ h2 ⟨hlead, hnext⟩
  · have htrailing := (hfirst1.resolve_right fun h => htrail h.1).2
    rw [if_pos htrail, if_pos htrail, or_iff_left, outOfStep_cons, eq_self_iff_true, true_and,
      or_iff_left fun h => not_isLeadingSurrogate htrailing h.1]
    rintro ⟨-, _, ⟨⟩, _, ⟨⟩, ⟨-, hhigh⟩ | ⟨hhigh, -⟩⟩ <;>
      exact not_high_of_isTrailingSurrogate htrailing hhigh

end Chars

variable (units utf16 : List CodeUnit)

theorem compareUtf8_convertNonAscii : (compareModifiedUtf8ToModifiedUtf8AsUtf16CodePointValues
    (convertNonAscii units ++ [0]) (convertNonAscii utf16 ++ [0])).map (compare · 0) =
      some (compare units utf16) ↔ ¬ OutOfStep units utf16 := by
  induction units using chars_induction generalizing utf16 with
  | nil =>
    refine iff_of_true ?_ fun h => h.ne_nil.1 rfl
    rw [compareModifiedUtf8ToModifiedUtf8AsUtf16CodePointValues]
    induction utf16 using chars_induction with
    | nil => rfl
    | char c bytes rest hchar _ hbytes _ =>
      obtain ⟨first, tail, rfl, hfirst⟩ := hchar.exists_cons
      rw [hbytes, storedUnits_append]
      simp [convertNonAscii, hfirst]
      rfl
  | char c1 bytes₁ rest₁ hchar1 hfirst1 hbytes1 ih =>
    induction utf16 using chars_induction with
    | nil =>
      refine iff_of_true ?_ fun h => h.ne_nil.2 rfl
      obtain ⟨first, tail, rfl, hfirst⟩ := hchar1.exists_cons
      rw [hbytes1, storedUnits_append, compareModifiedUtf8ToModifiedUtf8AsUtf16CodePointValues]
      simp [convertNonAscii, hfirst]
      rfl
    | char c2 bytes₂ rest₂ hchar2 hfirst2 hbytes2 _ =>
      rw [hbytes1, hbytes2, append_assoc, append_assoc, compareUtf8_step hchar1 hchar2]
      split
      next heq =>
        subst heq
        rw [compare_append_left, ih, outOfStep_storedUnits hfirst1 hfirst2]
      next hne => rw [Option.map_some, Option.some.injEq, compare_storedUnits hfirst1 hfirst2 hne]

theorem compareUtf16_convertNonAscii : (compareModifiedUtf8ToUtf16AsCodePointValues
    (convertNonAscii units ++ [0]) utf16).map (compare · 0) =
      some (compare units utf16) := by
  induction units using chars_induction generalizing utf16 with
  | nil =>
    cases utf16 with
    | nil => rfl
    | cons rhs utf16 =>
      rw [compareModifiedUtf8ToUtf16AsCodePointValues.eq_def]
      rfl
  | char ch bytes rest hchar _ hbytes ih =>
    have hread := hchar.read (convertNonAscii rest ++ [0])
    obtain ⟨first, tail, rfl, hfirst⟩ := hchar.exists_cons
    rw [hbytes, append_assoc, storedUnits_append]
    cases utf16 with
    | nil =>
      simp [compareModifiedUtf8ToUtf16AsCodePointValues, hfirst]
      rfl
    | cons rhs utf16 =>
      rw [compareModifiedUtf8ToUtf16AsCodePointValues.eq_def, hread, compare_cons]
      simp only [cons_append, head?_cons, if_neg hfirst]
      split
      next hne => rw [Option.map_some, compare_sign hne, compare_then_of_ne hne]
      next heq =>
        rw [not_not.mp heq, ReflOrd.compare_self, Ordering.eq_then]
        by_cases htrail : getTrailingUtf16Char ch ≠ 0
        · rw [if_pos htrail, if_pos htrail]
          cases utf16 with
          | nil => rfl
          | cons rhs2 utf16 =>
            rw [compare_cons]
            dsimp only
            split
            next hne => rw [Option.map_some, compare_sign hne, compare_then_of_ne hne]
            next heq =>
              rw [not_not.mp heq, ReflOrd.compare_self, Ordering.eq_then]
              exact ih utf16
        · rw [if_neg htrail, if_neg htrail]
          exact ih utf16

/-- The encoding of a text, with the zero byte that ends it. -/
def encoded (units : List CodeUnit) : List Byte :=
  convertUtf16ToModifiedUtf8 (countUtf8Bytes units) units ++ [0]

/-- Both comparisons follow the order of the code units; that of two encodings does so exactly
if the texts do not get out of step. -/
theorem comparisons_follow_units :
    (compareModifiedUtf8ToUtf16AsCodePointValues (encoded units) utf16).map (compare · 0) =
      some (compare units utf16) ∧
    ((compareModifiedUtf8ToModifiedUtf8AsUtf16CodePointValues (encoded units)
        (encoded utf16)).map (compare · 0) = some (compare units utf16) ↔
      ¬ OutOfStep units utf16) := by
  simp only [encoded, convertUtf16ToModifiedUtf8_eq]
  exact ⟨compareUtf16_convertNonAscii _ _, compareUtf8_convertNonAscii _ _⟩

/-- U+10000 is below U+D800 U+E000 by code units, but not in the comparison of the encodings. -/
theorem comparison_pair_alone :
    compare ([0xd800, 0xdc00] : List CodeUnit) [0xd800, 0xe000] = .lt ∧
      (compareModifiedUtf8ToModifiedUtf8AsUtf16CodePointValues (encoded [0xd800, 0xdc00])
        (encoded [0xd800, 0xe000])).map (compare · 0) = some .gt := by
  refine ⟨by decide, ?_⟩
  rw [compareModifiedUtf8ToModifiedUtf8AsUtf16CodePointValues]
  rfl

end Order

end NougatArt.Text
