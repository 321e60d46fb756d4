import NougatArt.Text.Utf8Characters

/-!
# Round trips through modified UTF-8

A sequence of code units falls into single units and surrogate pairs. Encoding, counting, decoding
and hashing all follow that division, so each of them has one equation for a unit and one for a
pair, and the round trip is an induction over the division.
-/

namespace NougatArt.Text

open UInt16

open List Nat

variable {motive : List CodeUnit → Prop}

section Division

def StandsAlone (ch : CodeUnit) (rest : List CodeUnit) : Prop :=
  ∀ ch2 ∈ rest.head?, ¬ (isLeadingSurrogate ch ∧ isTrailingSurrogate ch2)

theorem units_induction (nil : motive [])
    (unit : ∀ ch rest, StandsAlone ch rest → motive rest → motive (ch :: rest))
    (pair : ∀ ch ch2 rest, isLeadingSurrogate ch → isTrailingSurrogate ch2 → motive rest →
      motive (ch :: ch2 :: rest)) : ∀ chars, motive chars
  | [] => nil
  | [ch] => unit ch [] (fun _ h => nomatch h) nil
  | ch :: ch2 :: rest => by
    by_cases h : isLeadingSurrogate ch ∧ isTrailingSurrogate ch2
    · exact pair ch ch2 rest h.1 h.2 (units_induction nil unit pair rest)
    · refine unit ch (ch2 :: rest) ?_ (units_induction nil unit pair (ch2 :: rest))
      rintro _ ⟨⟩
      exact h

def encodeUnit (ch : CodeUnit) : List Byte :=
  if 0 < ch ∧ ch ≤ 0x7f then [ch.toUInt8] else encodeNonAscii ch

variable {ch ch2 : CodeUnit} {rest : List CodeUnit}

theorem ascii_iff (ch : CodeUnit) : 0 < ch ∧ ch ≤ 0x7f ↔ 0 < ch.toNat ∧ ch.toNat < 128 := by
  exact and_congr_right' Nat.lt_succ_iff.symm

theorem not_ascii_of_isLeadingSurrogate (hch : isLeadingSurrogate ch) : ¬ (0 < ch ∧ ch ≤ 0x7f) := by
  rw [isLeadingSurrogate_iff] at hch
  rw [ascii_iff]
  omega

theorem convertNonAscii_unit (h : StandsAlone ch rest) :
    convertNonAscii (ch :: rest) = encodeUnit ch ++ convertNonAscii rest := by
  by_cases hascii : 0 < ch ∧ ch ≤ 0x7f
  · rw [convertNonAscii.eq_def, encodeUnit]
    simp only [if_pos hascii, singleton_append]
  cases rest with
  | nil => simp [convertNonAscii, encodeUnit, if_neg hascii]
  | cons ch2 rest =>
    rw [convertNonAscii.eq_def, encodeUnit]
    simp only [if_neg hascii, if_neg (h ch2 rfl)]

theorem convertNonAscii_pair (hch : isLeadingSurrogate ch) (hch2 : isTrailingSurrogate ch2) :
    convertNonAscii (ch :: ch2 :: rest) =
      fourByteEncoding (codePoint ch ch2) ++ convertNonAscii rest := by
  rw [convertNonAscii.eq_def]
  simp only [if_neg (not_ascii_of_isLeadingSurrogate hch), if_pos (And.intro hch hch2)]

theorem getUtf16FromUtf8_encodeUnit (ch : CodeUnit) (rest : List Byte) :
    getUtf16FromUtf8 (encodeUnit ch ++ rest) = some (ch.toUInt32, rest) := by
  have hvalue := toNat_toUInt32 ch
  have hword := ch.toNat_lt
  by_cases hascii : 0 < ch ∧ ch ≤ 0x7f
  · have hone : ch.toUInt8.toNat = ch.toNat := by
      have := (ascii_iff ch).mp hascii
      rw [toNat_toUInt8]
      omega
    rw [encodeUnit, if_pos hascii, singleton_append,
      getUtf16FromUtf8_oneByte (by rw [hone]; exact ((ascii_iff ch).mp hascii).2)]
    refine congrArg (fun word => some (word, rest)) (UInt32.toNat_inj.mp ?_)
    rw [UInt8.toNat_toUInt32, hone, hvalue]
  rw [encodeUnit, if_neg hascii, encodeNonAscii]
  by_cases hlong : 0x07ff < ch
  · rw [if_pos hlong, getUtf16FromUtf8_threeByteEncoding (by omega)]
  · rw [lt_iff_toNat_lt, not_lt] at hlong
    have : ch.toNat ≤ 0x7ff := hlong
    rw [if_neg (by rw [lt_iff_toNat_lt]; exact not_lt.mpr hlong),
      getUtf16FromUtf8_twoByteEncoding (by omega)]

theorem encodeUnit_ne_nil (ch : CodeUnit) : encodeUnit ch ≠ [] := by
  rw [encodeUnit, encodeNonAscii]
  split
  · exact cons_ne_nil _ _
  · split <;> exact cons_ne_nil _ _

end Division

section Counting

variable {ch ch2 : CodeUnit} {rest chars : List CodeUnit}

theorem count_ascii_iff (ch : CodeUnit) : ch ≠ 0 ∧ ch < 0x80 ↔ 0 < ch ∧ ch ≤ 0x7f := by
  rw [ascii_iff, UInt16.lt_iff_toNat_lt, ne_eq, ← UInt16.toNat_inj, Nat.pos_iff_ne_zero]
  rfl

theorem count_short_iff (ch : CodeUnit) : ch < 0x800 ↔ ¬ 0x07ff < ch := by
  rw [lt_iff_toNat_lt, lt_iff_toNat_lt, not_lt]
  exact Nat.lt_succ_iff

theorem count_pair_iff (ch ch2 : CodeUnit) :
    (0xd800 ≤ ch ∧ ch < 0xdc00 ∧ 0xdc00 ≤ ch2 ∧ ch2 < 0xe000) ↔
      isLeadingSurrogate ch ∧ isTrailingSurrogate ch2 := by
  have hleading : ch < 0xdc00 ↔ ch ≤ 0xdbff := by
    exact Nat.lt_succ_iff
  have htrailing : ch2 < 0xe000 ↔ ch2 ≤ 0xdfff := by
    rw [lt_iff_toNat_lt, le_iff_toNat_le]
    exact Nat.lt_succ_iff
  rw [isLeadingSurrogate, isTrailingSurrogate, hleading, htrailing, and_assoc]

theorem countUtf8Bytes_unit (h : StandsAlone ch rest) :
    countUtf8Bytes (ch :: rest) = (encodeUnit ch).length + countUtf8Bytes rest := by
  rw [countUtf8Bytes.eq_def, encodeUnit, encodeNonAscii]
  simp only [count_ascii_iff, count_short_iff, count_pair_iff]
  by_cases hascii : 0 < ch ∧ ch ≤ 0x7f
  · simp only [if_pos hascii, length_singleton]
  by_cases hlong : 0x07ff < ch
  · cases rest with
    | nil => simp [if_neg hascii, hlong, threeByteEncoding, countUtf8Bytes]
    | cons ch2 rest => simp [if_neg hascii, hlong, if_neg (h ch2 rfl), threeByteEncoding]
  · simp [if_neg hascii, hlong, twoByteEncoding]

theorem countUtf8Bytes_pair (hch : isLeadingSurrogate ch) (hch2 : isTrailingSurrogate ch2) :
    countUtf8Bytes (ch :: ch2 :: rest) = 4 + countUtf8Bytes rest := by
  have hlong : 0x07ff < ch := by
    exact lt_of_lt_of_le (by decide) ((isLeadingSurrogate_iff ch).mp hch).1
  rw [countUtf8Bytes.eq_def]
  simp only [count_ascii_iff, count_short_iff, count_pair_iff]
  simp only [if_neg (not_ascii_of_isLeadingSurrogate hch), hlong, not_true_eq_false, if_false,
    if_pos (And.intro hch hch2)]

theorem length_convertNonAscii (chars : List CodeUnit) :
    (convertNonAscii chars).length = countUtf8Bytes chars := by
  induction chars using units_induction with
  | nil => rfl
  | unit ch rest halone ih =>
    rw [convertNonAscii_unit halone, countUtf8Bytes_unit halone, length_append, ih]
  | pair ch ch2 rest hch hch2 ih =>
    rw [convertNonAscii_pair hch hch2, countUtf8Bytes_pair hch hch2, length_append, ih]
    rfl

theorem two_le_length_encodeUnit (h : ¬ (0 < ch ∧ ch ≤ 0x7f)) : 2 ≤ (encodeUnit ch).length := by
  rw [encodeUnit, if_neg h, encodeNonAscii]
  split <;> simp [threeByteEncoding, twoByteEncoding]

theorem length_le_countUtf8Bytes (chars : List CodeUnit) : chars.length ≤ countUtf8Bytes chars := by
  induction chars using units_induction with
  | nil => exact le_refl 0
  | unit ch rest halone ih =>
    have := length_pos_iff.mpr (encodeUnit_ne_nil ch)
    rw [countUtf8Bytes_unit halone, length_cons]
    omega
  | pair ch ch2 rest hch hch2 ih =>
    rw [countUtf8Bytes_pair hch hch2, length_cons, length_cons]
    omega

/-- Only ASCII texts have as many bytes as code units. -/
theorem ascii_of_countUtf8Bytes_eq
    (h : countUtf8Bytes chars = chars.length) : ∀ ch ∈ chars, 0 < ch ∧ ch ≤ 0x7f := by
  induction chars using units_induction with
  | nil => exact fun ch hch => nomatch hch
  | unit ch rest halone ih =>
    have hrest := length_le_countUtf8Bytes rest
    have hpos := length_pos_iff.mpr (encodeUnit_ne_nil ch)
    rw [countUtf8Bytes_unit halone, length_cons] at h
    have hascii : 0 < ch ∧ ch ≤ 0x7f := by
      by_contra hnot
      have := two_le_length_encodeUnit hnot
      omega
    exact forall_mem_cons.mpr ⟨hascii, ih (by omega)⟩
  | pair ch ch2 rest hch hch2 ih =>
    have hrest := length_le_countUtf8Bytes rest
    rw [countUtf8Bytes_pair hch hch2, length_cons, length_cons] at h
    omega

theorem convertNonAscii_of_ascii (h : ∀ ch ∈ chars, 0 < ch ∧ ch ≤ 0x7f) :
    convertNonAscii chars = chars.map fun ch => ch.toUInt8 := by
  induction chars with
  | nil => rfl
  | cons ch rest ih =>
    obtain ⟨hch, hrest⟩ := forall_mem_cons.mp h
    rw [convertNonAscii.eq_def, map_cons, ← ih hrest]
    simp only [if_pos hch]

/-- The path for ASCII texts writes what the general loop writes. -/
theorem convertUtf16ToModifiedUtf8_eq (chars : List CodeUnit) :
    convertUtf16ToModifiedUtf8 (countUtf8Bytes chars) chars = convertNonAscii chars := by
  rw [convertUtf16ToModifiedUtf8]
  split
  · rename_i h
    rw [convertNonAscii_of_ascii (ascii_of_countUtf8Bytes_eq h)]
  · rfl

end Counting

section Decoding

variable {utf8 rest : List Byte} {ch : UInt32}

section

variable (hread : getUtf16FromUtf8 utf8 = some (ch, rest))

include hread

theorem convertNonAsciiUtf8_step {after : ℕ} (hafter : after < utf8.length) :
    convertNonAsciiUtf8 after utf8 =
      (convertNonAsciiUtf8 after rest).map (storedUnits ch ++ ·) := by
  rw [convertNonAsciiUtf8, if_pos hafter]
  split
  · simp_all
  · simp_all

theorem hashModifiedUtf8_step (hash : UInt32) (utf16Length : ℕ) :
    hashModifiedUtf8 hash utf8 ((storedUnits ch).length + utf16Length) =
      hashModifiedUtf8 ((storedUnits ch).foldl hashUnit hash) rest utf16Length := by
  rw [hashModifiedUtf8, storedUnits]
  by_cases htrailing : getTrailingUtf16Char ch ≠ 0
  · rw [if_pos htrailing, if_pos (by simp)]
    split
    · simp_all
    · simp_all
  · rw [if_neg htrailing, if_pos (by simp)]
    split
    · simp_all
    · simp_all

/-- The counter skips as many bytes as are read for a character. -/
theorem countCharsBefore_step :
    countCharsBefore utf8 = (storedUnits ch).length + countCharsBefore rest := by
  unfold getUtf16FromUtf8 at hread
  split at hread
  · cases hread
  next one afterOne =>
  rw [countCharsBefore]
  split at hread
  next h80 =>
    cases hread
    rw [if_pos h80, length_storedUnits_of_lt (by
      rw [UInt8.toNat_toUInt32]
      have := one.toNat_lt
      omega)]
  next h80 =>
  rw [if_neg h80]
  split at hread
  · cases hread
  next two afterTwo =>
  split at hread
  next h20 =>
    cases hread
    rw [if_pos h20, length_storedUnits_of_lt (by rw [twoBytes_toNat]; omega)]
    rfl
  next h20 =>
  rw [if_neg h20]
  split at hread
  · cases hread
  next three afterThree =>
  split at hread
  next h10 =>
    cases hread
    rw [if_pos h10, length_storedUnits_of_lt (by rw [threeBytes_toNat]; omega)]
    rfl
  next h10 =>
  rw [if_neg h10]
  split at hread
  · cases hread
  next four afterFour =>
    cases hread
    rw [length_storedUnits_surrogatePair]
    rfl

end

end Decoding

section RoundTrip

variable {ch ch2 : CodeUnit} {bytes : List Byte}

theorem getUtf16FromUtf8_encodePair (hch : isLeadingSurrogate ch) (hch2 : isTrailingSurrogate ch2)
    (rest : List Byte) : getUtf16FromUtf8 (fourByteEncoding (codePoint ch ch2) ++ rest) =
      some (surrogatePair (codePoint ch ch2), rest) := by
  have hcp := codePoint_toNat hch hch2
  rw [isLeadingSurrogate_iff] at hch
  rw [isTrailingSurrogate_iff] at hch2
  exact getUtf16FromUtf8_fourByteEncoding (by omega) rest

theorem taggedByte_ne_zero (bits : UInt32) {tag : UInt32} (htag : tag.toNat.testBit 7) :
    0 ≠ (bits ||| tag).toUInt8 := by
  intro h
  have hbit : ((bits.toNat ||| tag.toNat) % 2 ^ 8).testBit 7 = true := by
    rw [testBit_mod_two_pow, testBit_or, htag, Bool.or_true]
    rfl
  rw [← UInt32.toNat_or, ← UInt32.toNat_toUInt8, ← h] at hbit
  exact absurd hbit (by decide)

theorem continuationByte_ne_zero (bits : UInt32) : 0 ≠ continuationByte bits :=
  taggedByte_ne_zero (bits &&& 0x3f) (by decide)

theorem zero_notMem_encodeUnit (ch : CodeUnit) : 0 ∉ encodeUnit ch := by
  by_cases hascii : 0 < ch ∧ ch ≤ 0x7f
  · have hvalue := (ascii_iff ch).mp hascii
    rw [encodeUnit, if_pos hascii, mem_singleton, ← UInt8.toNat_inj, toNat_toUInt8]
    change ¬ 0 = _
    omega
  rw [encodeUnit, if_neg hascii, encodeNonAscii]
  split
  · simp only [threeByteEncoding, mem_cons, not_mem_nil, or_false, not_or]
    exact ⟨taggedByte_ne_zero _ (by decide), continuationByte_ne_zero _, continuationByte_ne_zero _⟩
  · simp only [twoByteEncoding, mem_cons, not_mem_nil, or_false, not_or]
    exact ⟨taggedByte_ne_zero _ (by decide), continuationByte_ne_zero _⟩

theorem zero_notMem_fourByteEncoding (cp : UInt32) : 0 ∉ fourByteEncoding cp := by
  simp only [fourByteEncoding, mem_cons, not_mem_nil, or_false, not_or]
  exact ⟨taggedByte_ne_zero _ (by decide), continuationByte_ne_zero _, continuationByte_ne_zero _,
    continuationByte_ne_zero _⟩

/-- The bytes of one character, and how they are read. -/
structure EncodesChar (ch : UInt32) (bytes : List Byte) : Prop where
  ne_nil : bytes ≠ []
  zero_notMem : 0 ∉ bytes
  read : ∀ following, getUtf16FromUtf8 (bytes ++ following) = some (ch, following)

theorem encodesChar_unit (ch : CodeUnit) : EncodesChar ch.toUInt32 (encodeUnit ch) :=
  ⟨encodeUnit_ne_nil ch, zero_notMem_encodeUnit ch, getUtf16FromUtf8_encodeUnit ch⟩

theorem encodesChar_pair (hch : isLeadingSurrogate ch) (hch2 : isTrailingSurrogate ch2) :
    EncodesChar (surrogatePair (codePoint ch ch2)) (fourByteEncoding (codePoint ch ch2)) :=
  ⟨cons_ne_nil _ _, zero_notMem_fourByteEncoding _, getUtf16FromUtf8_encodePair hch hch2⟩

def IsFirstChar (ch : UInt32) (rest : List CodeUnit) : Prop :=
  isLeadingSurrogate (getLeadingUtf16Char ch) ∧ isTrailingSurrogate (getTrailingUtf16Char ch) ∨
    getTrailingUtf16Char ch = 0 ∧ StandsAlone (getLeadingUtf16Char ch) rest

/-- Units and pairs are both the units stored for a character. -/
theorem chars_induction (nil : motive [])
    (char : ∀ ch bytes rest, EncodesChar ch bytes → IsFirstChar ch rest →
      convertNonAscii (storedUnits ch ++ rest) = bytes ++ convertNonAscii rest → motive rest →
      motive (storedUnits ch ++ rest)) (chars : List CodeUnit) : motive chars := by
  induction chars using units_induction with
  | nil => exact nil
  | unit ch rest halone ih =>
    have hstored := storedUnits_unit ch
    have hmotive := char _ _ rest (encodesChar_unit ch)
    rw [IsFirstChar, getLeadingUtf16Char_unit, getTrailingUtf16Char_unit, hstored] at hmotive
    exact hmotive (.inr ⟨rfl, halone⟩) (convertNonAscii_unit halone) ih
  | pair ch ch2 rest hch hch2 ih =>
    have hstored := storedUnits_pair hch hch2
    have hmotive := char _ _ rest (encodesChar_pair hch hch2)
    rw [IsFirstChar, getLeadingUtf16Char_pair hch hch2, getTrailingUtf16Char_pair hch hch2,
      hstored] at hmotive
    exact hmotive (.inl ⟨hch, hch2⟩) (convertNonAscii_pair hch hch2) ih

theorem zero_notMem_convertNonAscii (chars : List CodeUnit) : 0 ∉ convertNonAscii chars := by
  induction chars using chars_induction with
  | nil => exact not_mem_nil
  | char ch bytes rest hchar _ hbytes ih =>
    rw [hbytes, mem_append, not_or]
    exact ⟨hchar.zero_notMem, ih⟩

theorem EncodesChar.exists_cons {ch : UInt32} {bytes : List Byte} (hchar : EncodesChar ch bytes) :
    ∃ first tail, bytes = first :: tail ∧ first ≠ 0 := by
  obtain ⟨first, tail, rfl⟩ := exists_cons_of_ne_nil hchar.ne_nil
  exact ⟨first, tail, rfl, fun h => hchar.zero_notMem (h ▸ mem_cons_self)⟩

theorem countCharsBefore_convertNonAscii (chars : List CodeUnit) :
    countCharsBefore (convertNonAscii chars) = chars.length := by
  induction chars using chars_induction with
  | nil => rw [convertNonAscii, countCharsBefore, length_nil]
  | char ch bytes rest hchar _ hbytes ih =>
    rw [hbytes, countCharsBefore_step (hchar.read _), ih, length_append]

theorem convertNonAsciiUtf8_convertNonAscii (chars : List CodeUnit) (following : List Byte) :
    convertNonAsciiUtf8 following.length (convertNonAscii chars ++ following) = some chars := by
  induction chars using chars_induction with
  | nil => rw [convertNonAscii, nil_append, convertNonAsciiUtf8, if_neg (lt_irrefl _)]
  | char ch bytes rest hchar _ hbytes ih =>
    have hpos := length_pos_iff.mpr hchar.ne_nil
    rw [hbytes, append_assoc, convertNonAsciiUtf8_step (hchar.read _)
      (by rw [length_append, length_append]; omega), ih]
    rfl

theorem EncodesChar.convertTerminated {ch : UInt32} {bytes : List Byte}
    (hchar : EncodesChar ch bytes) (rest : List Byte) :
    convertModifiedUtf8ToUtf16Terminated (bytes ++ rest) =
      (convertModifiedUtf8ToUtf16Terminated rest).map (storedUnits ch ++ ·) := by
  have hread := hchar.read rest
  obtain ⟨first, tail, rfl, hfirst⟩ := hchar.exists_cons
  rw [cons_append] at hread ⊢
  rw [convertModifiedUtf8ToUtf16Terminated]
  simp only [head?_cons, if_pos hfirst]
  split <;> simp_all

theorem convertTerminated_convertNonAscii (chars : List CodeUnit) (following : List Byte) :
    convertModifiedUtf8ToUtf16Terminated (convertNonAscii chars ++ 0 :: following) =
      some chars := by
  induction chars using chars_induction with
  | nil =>
    rw [convertNonAscii, nil_append, convertModifiedUtf8ToUtf16Terminated]
    simp only [head?_cons, ne_eq, not_true_eq_false, if_false]
  | char ch bytes rest hchar _ hbytes ih =>
    rw [hbytes, append_assoc, hchar.convertTerminated, ih]
    rfl

theorem promoteChar_of_ascii (h : 0 < ch ∧ ch ≤ 0x7f) : promoteChar ch.toUInt8 = ch := by
  have hvalue := (ascii_iff ch).mp h
  have hbyte : ch.toUInt8.toBitVec.toNat = ch.toNat := by
    rw [UInt8.toNat_toBitVec, toNat_toUInt8]
    omega
  have hsign : ch.toUInt8.toBitVec.msb = false := by
    rw [BitVec.msb_eq_false_iff_two_mul_lt, hbyte]
    omega
  rw [← UInt16.toNat_inj, promoteChar, UInt16.toNat_ofBitVec,
    BitVec.signExtend_eq_setWidth_of_msb_false hsign, BitVec.toNat_setWidth, hbyte]
  omega

/-- The path for ASCII texts reads what the general loop reads. -/
theorem convertModifiedUtf8ToUtf16_convertNonAscii (chars : List CodeUnit) (following : List Byte) :
    convertModifiedUtf8ToUtf16 chars.length (convertNonAscii chars ++ following)
      (countUtf8Bytes chars) = some chars := by
  have hlen := length_convertNonAscii chars
  rw [convertModifiedUtf8ToUtf16]
  by_cases hascii : chars.length = countUtf8Bytes chars
  · have hunits := ascii_of_countUtf8Bytes_eq hascii.symm
    rw [if_pos hascii, if_pos (by rw [length_append]; omega), ← hlen, take_left,
      convertNonAscii_of_ascii hunits, map_map]
    refine congrArg some ((map_congr_left fun ch hch => ?_).trans (map_id chars))
    exact promoteChar_of_ascii (hunits ch hch)
  · rw [if_neg hascii, List.length_append, hlen, Nat.add_sub_cancel_left]
    exact convertNonAsciiUtf8_convertNonAscii chars following

theorem hashModifiedUtf8_convertNonAscii (chars : List CodeUnit) (following : List Byte) :
    ∀ hash, hashModifiedUtf8 hash (convertNonAscii chars ++ following) chars.length =
      some (chars.foldl hashUnit hash) := by
  induction chars using chars_induction with
  | nil =>
    intro hash
    rw [length_nil, hashModifiedUtf8, if_neg (not_not.mpr rfl), foldl_nil]
  | char ch bytes rest hchar _ hbytes ih =>
    intro hash
    rw [hbytes, append_assoc, length_append, hashModifiedUtf8_step (hchar.read _), ih, foldl_append]

theorem strlen_append (hzero : 0 ∉ bytes) (following : List Byte) :
    strlen (bytes ++ 0 :: following) = bytes.length := by
  have hall : ∀ byte ∈ bytes, decide (byte ≠ 0) = true := fun byte hbyte =>
    decide_eq_true fun h => hzero (h ▸ hbyte)
  rw [strlen, takeWhile_append_of_pos hall, takeWhile_cons_of_neg (by decide), append_nil]

/-- Whatever the code units are, `ConvertUtf16ToModifiedUtf8` writes `CountUtf8Bytes` bytes without
a zero among them, from which the number of the units, the units and their hash are recovered. The
bytes `following` stand in memory behind the text. -/
theorem modifiedUtf8_roundTrip (chars : List CodeUnit) (following : List Byte) :
    let utf8 := convertUtf16ToModifiedUtf8 (countUtf8Bytes chars) chars
    utf8.length = countUtf8Bytes chars ∧ 0 ∉ utf8 ∧
      countModifiedUtf8Chars (utf8 ++ following) utf8.length = chars.length ∧
      countModifiedUtf8CharsTerminated (utf8 ++ 0 :: following) = chars.length ∧
      convertModifiedUtf8ToUtf16 chars.length (utf8 ++ following) utf8.length = some chars ∧
      convertModifiedUtf8ToUtf16Terminated (utf8 ++ 0 :: following) = some chars ∧
      computeUtf16HashFromModifiedUtf8 (utf8 ++ following) chars.length =
        some (computeUtf16Hash chars) := by
  intro utf8
  have hutf8 : utf8 = convertNonAscii chars := convertUtf16ToModifiedUtf8_eq _
  have hlength : utf8.length = countUtf8Bytes chars := by rw [hutf8, length_convertNonAscii]
  have hzero : 0 ∉ utf8 := hutf8 ▸ zero_notMem_convertNonAscii _
  have hcount : countCharsBefore utf8 = chars.length :=
    hutf8 ▸ countCharsBefore_convertNonAscii chars
  refine ⟨hlength, hzero, ?_, ?_, ?_, ?_, ?_⟩
  · rw [countModifiedUtf8Chars, take_left, hcount]
  · rw [countModifiedUtf8CharsTerminated, strlen_append hzero, countModifiedUtf8Chars,
      take_left, hcount]
  · rw [hlength, hutf8]
    exact convertModifiedUtf8ToUtf16_convertNonAscii chars following
  · rw [hutf8]
    exact convertTerminated_convertNonAscii chars following
  · rw [computeUtf16HashFromModifiedUtf8, hutf8, hashModifiedUtf8_convertNonAscii]
    rfl

theorem exists_getUtf16FromUtf8 (one two three four : Byte) (rest : List Byte) : ∃ ch skipped,
    getUtf16FromUtf8 (one :: two :: three :: four :: rest) =
      some (ch, (two :: three :: four :: rest).drop skipped) ∧
    ∀ before, countCharsBefore (one :: before) =
      (storedUnits ch).length + countCharsBefore (before.drop skipped) := by
  simp only [getUtf16FromUtf8, countCharsBefore]
  by_cases h80 : one &&& 0x80 = 0
  · refine ⟨one.toUInt32, 0, if_pos h80, fun before => ?_⟩
    have hone := one.toNat_lt
    rw [if_pos h80, length_storedUnits_of_lt (by rw [UInt8.toNat_toUInt32]; omega), drop_zero]
  simp only [if_neg h80]
  by_cases h20 : one &&& 0x20 = 0
  · refine ⟨_, 1, if_pos h20, fun before => ?_⟩
    rw [if_pos h20, length_storedUnits_of_lt (by rw [twoBytes_toNat]; omega)]
  simp only [if_neg h20]
  by_cases h10 : one &&& 0x10 = 0
  · refine ⟨_, 2, if_pos h10, fun before => ?_⟩
    rw [if_pos h10, length_storedUnits_of_lt (by rw [threeBytes_toNat]; omega)]
  · refine ⟨_, 3, if_neg h10, fun before => ?_⟩
    rw [if_neg h10, length_storedUnits_surrogatePair]

theorem exists_convertNonAsciiUtf8 (two three four : Byte) (rest utf8 : List Byte) : ∃ units,
    convertNonAsciiUtf8 (rest.length + 3) (utf8 ++ two :: three :: four :: rest) = some units ∧
      units.length = countCharsBefore utf8 := by
  match utf8 with
  | [] => exact ⟨[], by rw [convertNonAsciiUtf8, if_neg (by simp)], by rw [countCharsBefore]; rfl⟩
  | one :: before =>
    obtain ⟨second, third, fourth, after, hbytes⟩ : ∃ second third fourth after,
        before ++ two :: three :: four :: rest = second :: third :: fourth :: after := by
      rcases before with _ | ⟨_, _ | ⟨_, _ | ⟨_, _⟩⟩⟩ <;> exact ⟨_, _, _, _, rfl⟩
    obtain ⟨ch, skipped, hread, hcount⟩ := exists_getUtf16FromUtf8 one second third fourth after
    rw [← hbytes] at hread
    obtain ⟨units, hunits, hlength⟩ : ∃ units, convertNonAsciiUtf8 (rest.length + 3)
        ((before ++ two :: three :: four :: rest).drop skipped) = some units ∧
          units.length = countCharsBefore (before.drop skipped) := by
      by_cases hskipped : skipped ≤ before.length
      · rw [drop_append_of_le_length hskipped]
        exact exists_convertNonAsciiUtf8 two three four rest (before.drop skipped)
      · refine ⟨[], by rw [convertNonAsciiUtf8, if_neg (by simp; omega)], ?_⟩
        rw [drop_eq_nil_of_le (by omega), countCharsBefore]
        rfl
    refine ⟨storedUnits ch ++ units, ?_, by rw [length_append, hlength, hcount]⟩
    rw [cons_append, convertNonAsciiUtf8_step hread (by simp), hunits]
    rfl
termination_by utf8.length

/-- Whatever the bytes of a text are, `ConvertModifiedUtf8ToUtf16` stores as many code units as
`CountModifiedUtf8Chars` has counted, and reads at most three bytes behind the text. -/
theorem conversion_fits (utf8 rest : List Byte) (two three four : Byte) : ∃ units,
    convertModifiedUtf8ToUtf16 (countModifiedUtf8Chars utf8 utf8.length)
        (utf8 ++ two :: three :: four :: rest) utf8.length = some units ∧
      units.length = countModifiedUtf8Chars utf8 utf8.length := by
  rw [countModifiedUtf8Chars, take_length, convertModifiedUtf8ToUtf16]
  split
  next heq => exact ⟨_, if_pos (by simp), by simp [heq]⟩
  next =>
    have hafter :
        (utf8 ++ two :: three :: four :: rest).length - utf8.length = rest.length + 3 := by
      simp
    rw [hafter]
    exact exists_convertNonAsciiUtf8 two three four rest utf8

end RoundTrip

end NougatArt.Text
