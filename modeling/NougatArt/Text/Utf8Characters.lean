import NougatArt.Core.BitFields
import NougatArt.Text.ModifiedUtf8

/-!
# The characters of modified UTF-8

The bytes of one character and the code units that `GetUtf16FromUtf8` reads from them.
-/

namespace NougatArt.Text

open UInt32

open List Nat

variable {k : ℕ}

section Bytes

/-! Every byte is known by its value, so that the masks and shifts become arithmetic. -/

theorem continuationByte_toNat (bits : UInt32) :
    (continuationByte bits).toNat = bits.toNat % 64 + 128 := by
  change ((bits.toNat &&& 2 ^ 6 - 1) ||| 128) % 2 ^ 8 = _
  rw [Nat.and_two_pow_sub_one_eq_mod, Nat.or_comm,
    add_eq_or (k := 6) (mod_lt _ (by decide)) (by decide)]
  omega

theorem continuationBits_toNat (byte : Byte) :
    (continuationBits byte).toNat = byte.toNat % 2 ^ 6 := by
  exact and_two_pow_sub_one_eq_mod byte.toNat 6

/-- A leading byte is a tag with the top bits of the character below it. -/
theorem leadingByte_toNat {bits tag : UInt32} {n : ℕ} (hn : bits.toNat = n) (hbits : n < 2 ^ k)
    (htag : 2 ^ k ∣ tag.toNat) (hbyte : tag.toNat + 2 ^ k ≤ 2 ^ 8) :
    (bits ||| tag).toUInt8.toNat = tag.toNat + n := by
  rw [UInt32.toNat_toUInt8, UInt32.toNat_or, hn, Nat.or_comm, add_eq_or hbits htag,
    mod_eq_of_lt (by omega)]

theorem and_0x80_eq_zero (byte : Byte) : byte &&& 0x80 = 0 ↔ byte.toNat / 128 % 2 = 0 := by
  rw [← UInt8.toNat_inj, UInt8.toNat_and]
  exact and_two_pow_eq_zero byte.toNat 7

theorem and_0x20_eq_zero (byte : Byte) : byte &&& 0x20 = 0 ↔ byte.toNat / 32 % 2 = 0 := by
  rw [← UInt8.toNat_inj, UInt8.toNat_and]
  exact and_two_pow_eq_zero byte.toNat 5

theorem and_0x10_eq_zero (byte : Byte) : byte &&& 0x10 = 0 ↔ byte.toNat / 16 % 2 = 0 := by
  rw [← UInt8.toNat_inj, UInt8.toNat_and]
  exact and_two_pow_eq_zero byte.toNat 4

theorem shiftRight_toNat (bits : UInt32) (hk : k < 32) :
    (bits >>> UInt32.ofNat k).toNat = bits.toNat / 2 ^ k := by
  rw [UInt32.toNat_shiftRight, UInt32.toNat_ofNat', Nat.shiftRight_eq_div_pow,
    mod_eq_of_lt (show k < 2 ^ 32 by omega), mod_eq_of_lt hk]

theorem shiftLeft_toNat {bits : UInt32} (hk : k < 32) (hbits : bits.toNat * 2 ^ k < 2 ^ 32) :
    (bits <<< UInt32.ofNat k).toNat = bits.toNat * 2 ^ k := by
  rw [UInt32.toNat_shiftLeft, UInt32.toNat_ofNat', Nat.shiftLeft_eq,
    mod_eq_of_lt (show k < 2 ^ 32 by omega), mod_eq_of_lt hk, mod_eq_of_lt hbits]

theorem lowBits_toNat (bits : UInt32) (hk : k ≤ 32) :
    (bits &&& UInt32.ofNat (2 ^ k - 1)).toNat = bits.toNat % 2 ^ k := by
  have hmask : 2 ^ k - 1 < 2 ^ 32 := by
    have := Nat.pow_le_pow_right (n := 2) (by decide) hk
    have := Nat.two_pow_pos k
    omega
  rw [UInt32.toNat_and, UInt32.toNat_ofNat', Nat.mod_eq_of_lt hmask, and_two_pow_sub_one_eq_mod]

end Bytes

section Characters

/-! The four kinds of characters, told apart by the tag in the leading byte. -/

variable {one : Byte}

theorem getUtf16FromUtf8_oneByte (hone : one.toNat < 128) (rest : List Byte) :
    getUtf16FromUtf8 (one :: rest) = some (one.toUInt32, rest) := by
  have h80 := (and_0x80_eq_zero one).mpr (by omega)
  simp only [getUtf16FromUtf8, if_pos h80]

theorem getUtf16FromUtf8_twoBytes (hlow : 192 ≤ one.toNat) (hhigh : one.toNat < 224)
    (two : Byte) (rest : List Byte) : getUtf16FromUtf8 (one :: two :: rest) =
      some (((one.toUInt32 &&& 0x1f) <<< 6) ||| continuationBits two, rest) := by
  have h80 : ¬ one &&& 0x80 = 0 := mt (and_0x80_eq_zero one).mp (by omega)
  have h20 := (and_0x20_eq_zero one).mpr (by omega)
  simp only [getUtf16FromUtf8, if_neg h80, if_pos h20]

theorem getUtf16FromUtf8_threeBytes (hlow : 224 ≤ one.toNat) (hhigh : one.toNat < 240)
    (two three : Byte) (rest : List Byte) : getUtf16FromUtf8 (one :: two :: three :: rest) =
      some (((one.toUInt32 &&& 0x0f) <<< 12) ||| (continuationBits two <<< 6) |||
        continuationBits three, rest) := by
  have h80 : ¬ one &&& 0x80 = 0 := mt (and_0x80_eq_zero one).mp (by omega)
  have h20 : ¬ one &&& 0x20 = 0 := mt (and_0x20_eq_zero one).mp (by omega)
  have h10 := (and_0x10_eq_zero one).mpr (by omega)
  simp only [getUtf16FromUtf8, if_neg h80, if_neg h20, if_pos h10]

theorem getUtf16FromUtf8_fourBytes (hlow : 240 ≤ one.toNat) (two three four : Byte)
    (rest : List Byte) : getUtf16FromUtf8 (one :: two :: three :: four :: rest) =
      some (surrogatePair (((one.toUInt32 &&& 0x0f) <<< 18) ||| (continuationBits two <<< 12) |||
        (continuationBits three <<< 6) ||| continuationBits four), rest) := by
  have hbyte := one.toNat_lt
  have h80 : ¬ one &&& 0x80 = 0 := mt (and_0x80_eq_zero one).mp (by omega)
  have h20 : ¬ one &&& 0x20 = 0 := mt (and_0x20_eq_zero one).mp (by omega)
  have h10 : ¬ one &&& 0x10 = 0 := mt (and_0x10_eq_zero one).mp (by omega)
  simp only [getUtf16FromUtf8, if_neg h80, if_neg h20, if_neg h10]

theorem or_toNat (high low : UInt32) (hlow : low.toNat < 2 ^ k)
    (hhigh : 2 ^ k ∣ high.toNat) : (high ||| low).toNat = high.toNat + low.toNat := by
  rw [UInt32.toNat_or, add_eq_or hlow hhigh]

/-- The low `j` bits of a byte, moved to their place in a character. -/
theorem movedBits_toNat (byte : Byte) {j : ℕ} (hk : k < 32) (hfits : j + k ≤ 32) :
    ((byte.toUInt32 &&& ofNat (2 ^ j - 1)) <<< ofNat k).toNat = byte.toNat % 2 ^ j * 2 ^ k := by
  have hbits := lowBits_toNat byte.toUInt32 (k := j) (by omega)
  have hword : byte.toNat % 2 ^ j * 2 ^ k < 2 ^ 32 :=
    calc byte.toNat % 2 ^ j * 2 ^ k < 2 ^ j * 2 ^ k :=
          Nat.mul_lt_mul_of_pos_right (Nat.mod_lt _ (Nat.two_pow_pos j)) (Nat.two_pow_pos k)
      _ = 2 ^ (j + k) := (pow_add 2 j k).symm
      _ ≤ 2 ^ 32 := Nat.pow_le_pow_right (by decide) hfits
  rw [UInt8.toNat_toUInt32] at hbits
  rw [shiftLeft_toNat hk (by rw [hbits]; exact hword), hbits]

theorem movedContinuation_toNat (byte : Byte) (hk : k ≤ 26) :
    (continuationBits byte <<< ofNat k).toNat = byte.toNat % 2 ^ 6 * 2 ^ k :=
  movedBits_toNat byte (j := 6) (k := k) (by omega) (by omega)

theorem twoBytes_toNat (one two : Byte) :
    (((one.toUInt32 &&& 0x1f) <<< 6) ||| continuationBits two).toNat =
      one.toNat % 2 ^ 5 * 2 ^ 6 + two.toNat % 2 ^ 6 := by
  have hone : ((one.toUInt32 &&& 0x1f) <<< 6).toNat = one.toNat % 2 ^ 5 * 2 ^ 6 :=
    movedBits_toNat one (j := 5) (k := 6) (by decide) (by decide)
  have htwo := continuationBits_toNat two
  rw [or_toNat (k := 6) _ _ (by omega) (by omega), hone, htwo]

theorem threeBytes_toNat (one two three : Byte) :
    (((one.toUInt32 &&& 0x0f) <<< 12) ||| (continuationBits two <<< 6) |||
      continuationBits three).toNat =
        one.toNat % 2 ^ 4 * 2 ^ 12 + two.toNat % 2 ^ 6 * 2 ^ 6 + three.toNat % 2 ^ 6 := by
  have hone : ((one.toUInt32 &&& 0x0f) <<< 12).toNat = one.toNat % 2 ^ 4 * 2 ^ 12 :=
    movedBits_toNat one (j := 4) (k := 12) (by decide) (by decide)
  have htwo : (continuationBits two <<< 6).toNat = two.toNat % 2 ^ 6 * 2 ^ 6 :=
    movedContinuation_toNat two (k := 6) (by decide)
  have hthree := continuationBits_toNat three
  have hupper := or_toNat (k := 12) ((one.toUInt32 &&& 0x0f) <<< 12) (continuationBits two <<< 6)
    (by omega) (by omega)
  rw [or_toNat (k := 6) _ _ (by omega) (by omega), hupper, hone, htwo, hthree]

theorem fourBytes_toNat (one two three four : Byte) :
    (((one.toUInt32 &&& 0x0f) <<< 18) ||| (continuationBits two <<< 12) |||
      (continuationBits three <<< 6) ||| continuationBits four).toNat =
        one.toNat % 2 ^ 4 * 2 ^ 18 + two.toNat % 2 ^ 6 * 2 ^ 12 + three.toNat % 2 ^ 6 * 2 ^ 6 +
          four.toNat % 2 ^ 6 := by
  have hone : ((one.toUInt32 &&& 0x0f) <<< 18).toNat = one.toNat % 2 ^ 4 * 2 ^ 18 :=
    movedBits_toNat one (j := 4) (k := 18) (by decide) (by decide)
  have htwo : (continuationBits two <<< 12).toNat = two.toNat % 2 ^ 6 * 2 ^ 12 :=
    movedContinuation_toNat two (k := 12) (by decide)
  have hthree : (continuationBits three <<< 6).toNat = three.toNat % 2 ^ 6 * 2 ^ 6 :=
    movedContinuation_toNat _ (k := 6) (by decide)
  have hfour := continuationBits_toNat four
  have hupper := or_toNat (k := 18) ((one.toUInt32 &&& 0x0f) <<< 18) (continuationBits two <<< 12)
    (by omega) (by omega)
  have hmiddle := or_toNat (k := 12)
    (((one.toUInt32 &&& 0x0f) <<< 18) ||| (continuationBits two <<< 12))
    (continuationBits three <<< 6) (by omega) (by omega)
  rw [or_toNat (k := 6) _ _ (by omega) (by omega), hmiddle, hupper, hone, htwo, hthree, hfour]

variable {ch : UInt32}

theorem getUtf16FromUtf8_twoByteEncoding (hch : ch.toNat < 2 ^ 11)
    (rest : List Byte) : getUtf16FromUtf8 (twoByteEncoding ch ++ rest) = some (ch, rest) := by
  have hone : ((ch >>> 6) ||| 0xc0).toUInt8.toNat = 192 + ch.toNat / 2 ^ 6 :=
    leadingByte_toNat (k := 5) (shiftRight_toNat ch (by decide)) (by omega) (by decide) (by decide)
  rw [twoByteEncoding, cons_append, cons_append, nil_append,
    getUtf16FromUtf8_twoBytes (by omega) (by omega)]
  refine congrArg (fun word => some (word, rest)) (UInt32.toNat_inj.mp ?_)
  rw [twoBytes_toNat, hone, continuationByte_toNat]
  omega

theorem getUtf16FromUtf8_threeByteEncoding (hch : ch.toNat < 2 ^ 16)
    (rest : List Byte) : getUtf16FromUtf8 (threeByteEncoding ch ++ rest) = some (ch, rest) := by
  have hone : ((ch >>> 12) ||| 0xe0).toUInt8.toNat = 224 + ch.toNat / 2 ^ 12 :=
    leadingByte_toNat (k := 4) (shiftRight_toNat ch (by decide)) (by omega) (by decide) (by decide)
  have hshift : (ch >>> 6).toNat = ch.toNat / 2 ^ 6 := shiftRight_toNat ch (k := 6) (by decide)
  rw [threeByteEncoding, cons_append, cons_append, cons_append, nil_append,
    getUtf16FromUtf8_threeBytes (by omega) (by omega)]
  refine congrArg (fun word => some (word, rest)) (UInt32.toNat_inj.mp ?_)
  rw [threeBytes_toNat, hone, continuationByte_toNat, continuationByte_toNat, hshift]
  omega

theorem getUtf16FromUtf8_fourByteEncoding {cp : UInt32} (hcp : cp.toNat < 2 ^ 21)
    (rest : List Byte) :
    getUtf16FromUtf8 (fourByteEncoding cp ++ rest) = some (surrogatePair cp, rest) := by
  have hone : ((cp >>> 18) ||| 0xf0).toUInt8.toNat = 240 + cp.toNat / 2 ^ 18 :=
    leadingByte_toNat (k := 4) (shiftRight_toNat cp (by decide)) (by omega) (by decide) (by decide)
  have hshift12 : (cp >>> 12).toNat = cp.toNat / 2 ^ 12 := shiftRight_toNat cp (k := 12) (by decide)
  have hshift6 : (cp >>> 6).toNat = cp.toNat / 2 ^ 6 := shiftRight_toNat cp (k := 6) (by decide)
  rw [fourByteEncoding, cons_append, cons_append, cons_append, cons_append,
    nil_append, getUtf16FromUtf8_fourBytes (by omega)]
  refine congrArg (fun word => some (surrogatePair word, rest)) (UInt32.toNat_inj.mp ?_)
  rw [fourBytes_toNat, hone, continuationByte_toNat, continuationByte_toNat,
    continuationByte_toNat, hshift12, hshift6]
  omega

end Characters

section Surrogates

theorem isLeadingSurrogate_iff (ch : CodeUnit) :
    isLeadingSurrogate ch ↔ 0xd800 ≤ ch.toNat ∧ ch.toNat ≤ 0xdbff := by
  rfl

theorem isTrailingSurrogate_iff (ch : CodeUnit) :
    isTrailingSurrogate ch ↔ 0xdc00 ≤ ch.toNat ∧ ch.toNat ≤ 0xdfff := by
  rfl

variable {ch ch2 : CodeUnit} {word : UInt32}

theorem codePoint_toNat (hch : isLeadingSurrogate ch) (hch2 : isTrailingSurrogate ch2) :
    (codePoint ch ch2).toNat = 0x10000 + (ch.toNat - 0xd800) * 2 ^ 10 + (ch2.toNat - 0xdc00) := by
  rw [isLeadingSurrogate_iff] at hch
  rw [isTrailingSurrogate_iff] at hch2
  have hshift : (ch.toUInt32 <<< 10).toNat = ch.toNat * 2 ^ 10 :=
    shiftLeft_toNat (k := 10) (by decide) (by rw [UInt16.toNat_toUInt32]; omega)
  have hsum : (ch.toUInt32 <<< 10 + ch2.toUInt32).toNat = ch.toNat * 2 ^ 10 + ch2.toNat := by
    rw [UInt32.toNat_add, hshift, UInt16.toNat_toUInt32]
    omega
  have hle : (0x035fdc00 : UInt32) ≤ ch.toUInt32 <<< 10 + ch2.toUInt32 := by
    rw [le_iff_toNat_le, hsum]
    change 0x035fdc00 ≤ _
    omega
  rw [codePoint, UInt32.toNat_sub_of_le _ _ hle, hsum]
  change _ - 0x035fdc00 = _
  omega

theorem surrogatePair_toNat (cp : UInt32) : (surrogatePair cp).toNat =
    (cp.toNat % 2 ^ 10 + 0xdc00) * 2 ^ 16 + (cp.toNat / 2 ^ 10 + 0xd7c0) % 2 ^ 16 := by
  have hword := cp.toNat_lt
  have hshift : (cp >>> 10).toNat = cp.toNat / 2 ^ 10 := shiftRight_toNat cp (k := 10) (by decide)
  have hleading : (cp >>> 10 + 0xd7c0).toNat = cp.toNat / 2 ^ 10 + 0xd7c0 := by
    rw [UInt32.toNat_add, hshift]
    change (_ + 0xd7c0) % _ = _
    omega
  have hmasked : ((cp >>> 10 + 0xd7c0) &&& 0xffff).toNat =
      (cp.toNat / 2 ^ 10 + 0xd7c0) % 2 ^ 16 := by
    refine (lowBits_toNat _ (k := 16) (by decide)).trans ?_
    rw [hleading]
  have hbits : (cp &&& 0x03ff).toNat = cp.toNat % 2 ^ 10 := lowBits_toNat cp (k := 10) (by decide)
  have htrailing : ((cp &&& 0x03ff) + 0xdc00).toNat = cp.toNat % 2 ^ 10 + 0xdc00 := by
    rw [UInt32.toNat_add, hbits]
    change (_ + 0xdc00) % _ = _
    omega
  have hmoved : (((cp &&& 0x03ff) + 0xdc00) <<< (16 : UInt32)).toNat =
      (cp.toNat % 2 ^ 10 + 0xdc00) * 2 ^ 16 := by
    refine (shiftLeft_toNat (k := 16) (by decide) ?_).trans (by rw [htrailing])
    omega
  rw [surrogatePair, UInt32.or_comm, or_toNat (k := 16) _ _ (by omega) (by omega), hmoved, hmasked]

theorem getLeadingUtf16Char_toNat (pair : UInt32) :
    (getLeadingUtf16Char pair).toNat = pair.toNat % 2 ^ 16 := by
  have hbits : (pair &&& 0x0000FFFF).toNat = pair.toNat % 2 ^ 16 :=
    lowBits_toNat pair (k := 16) (by decide)
  rw [getLeadingUtf16Char, toNat_toUInt16, hbits]
  omega

theorem getTrailingUtf16Char_toNat (pair : UInt32) :
    (getTrailingUtf16Char pair).toNat = pair.toNat / 2 ^ 16 := by
  have hshift : (pair >>> 16).toNat = pair.toNat / 2 ^ 16 :=
    shiftRight_toNat _ (k := 16) (by decide)
  have hword := pair.toNat_lt
  rw [getTrailingUtf16Char, toNat_toUInt16, hshift]
  omega

theorem getTrailingUtf16Char_of_lt (hword : word.toNat < 2 ^ 16) :
    getTrailingUtf16Char word = 0 := by
  rw [← UInt16.toNat_inj, getTrailingUtf16Char_toNat]
  exact div_eq_of_lt hword

theorem length_storedUnits_of_lt (hword : word.toNat < 2 ^ 16) : (storedUnits word).length = 1 := by
  rw [storedUnits, if_neg (not_not.mpr (getTrailingUtf16Char_of_lt hword)), length_singleton]

theorem length_storedUnits_surrogatePair (cp : UInt32) :
    (storedUnits (surrogatePair cp)).length = 2 := by
  have htrailing : getTrailingUtf16Char (surrogatePair cp) ≠ 0 := by
    rw [ne_eq, ← UInt16.toNat_inj, getTrailingUtf16Char_toNat, surrogatePair_toNat]
    change ¬ _ = 0
    omega
  rw [storedUnits, if_pos htrailing, length_cons, length_singleton]

theorem ne_zero_of_isTrailingSurrogate (hch : isTrailingSurrogate ch) : ch ≠ 0 := by
  rintro rfl
  exact absurd hch.1 (by decide)

theorem getTrailingUtf16Char_unit (ch : CodeUnit) : getTrailingUtf16Char ch.toUInt32 = 0 :=
  getTrailingUtf16Char_of_lt (by rw [UInt16.toNat_toUInt32]; exact ch.toNat_lt)

theorem getLeadingUtf16Char_unit (ch : CodeUnit) : getLeadingUtf16Char ch.toUInt32 = ch := by
  rw [← UInt16.toNat_inj, getLeadingUtf16Char_toNat, UInt16.toNat_toUInt32]
  exact mod_eq_of_lt ch.toNat_lt

theorem storedUnits_unit (ch : CodeUnit) : storedUnits ch.toUInt32 = [ch] := by
  rw [storedUnits, if_neg (not_not.mpr (getTrailingUtf16Char_unit ch)), getLeadingUtf16Char_unit]

section

variable (hch : isLeadingSurrogate ch) (hch2 : isTrailingSurrogate ch2)

include hch hch2

theorem getLeadingUtf16Char_pair : getLeadingUtf16Char (surrogatePair (codePoint ch ch2)) = ch := by
  have hcp := codePoint_toNat hch hch2
  rw [isLeadingSurrogate_iff] at hch
  rw [isTrailingSurrogate_iff] at hch2
  have hquot : (codePoint ch ch2).toNat / 2 ^ 10 = 64 + (ch.toNat - 0xd800) := by omega
  rw [← UInt16.toNat_inj, getLeadingUtf16Char_toNat, surrogatePair_toNat, hquot]
  omega

theorem getTrailingUtf16Char_pair :
    getTrailingUtf16Char (surrogatePair (codePoint ch ch2)) = ch2 := by
  rw [← UInt16.toNat_inj, getTrailingUtf16Char_toNat, surrogatePair_toNat, codePoint_toNat hch hch2]
  rw [isTrailingSurrogate_iff] at hch2
  omega

theorem storedUnits_pair : storedUnits (surrogatePair (codePoint ch ch2)) = [ch, ch2] := by
  rw [storedUnits, getLeadingUtf16Char_pair hch hch2, getTrailingUtf16Char_pair hch hch2,
    if_pos (ne_zero_of_isTrailingSurrogate hch2)]

end

end Surrogates

end NougatArt.Text
