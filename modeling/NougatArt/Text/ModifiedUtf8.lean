import Mathlib

/-!
# Modified UTF-8

The conversions of `runtime/utf.cc` and `runtime/utf-inl.h` between UTF-16 code units and modified
UTF-8. A pointer into a text is the list of the bytes from it on, up to the end of what may be read;
a function that reads past the end of that list has no result. The encoders return the bytes they
write.
-/

namespace NougatArt.Text

abbrev Byte := UInt8

abbrev CodeUnit := UInt16

section Encoding

def isLeadingSurrogate (ch : CodeUnit) : Prop := 0xd800 ≤ ch ∧ ch ≤ 0xdbff

def isTrailingSurrogate (ch : CodeUnit) : Prop := 0xdc00 ≤ ch ∧ ch ≤ 0xdfff

instance (ch : CodeUnit) : Decidable (isLeadingSurrogate ch) := inferInstanceAs (Decidable (_ ∧ _))

instance (ch : CodeUnit) : Decidable (isTrailingSurrogate ch) := inferInstanceAs (Decidable (_ ∧ _))

/-- `(bits & 0x3f) | 0x80`, stored in a `char`. -/
def continuationByte (bits : UInt32) : Byte := ((bits &&& 0x3f) ||| 0x80).toUInt8

/-- The arithmetic is that of the promoted operands. -/
def codePoint (ch ch2 : CodeUnit) : UInt32 := (ch.toUInt32 <<< 10) + ch2.toUInt32 - 0x035fdc00

def twoByteEncoding (ch : UInt32) : List Byte :=
  [((ch >>> 6) ||| 0xc0).toUInt8, continuationByte ch]

def threeByteEncoding (ch : UInt32) : List Byte :=
  [((ch >>> 12) ||| 0xe0).toUInt8, continuationByte (ch >>> 6), continuationByte ch]

def fourByteEncoding (codePoint : UInt32) : List Byte :=
  [((codePoint >>> 18) ||| 0xf0).toUInt8, continuationByte (codePoint >>> 12),
    continuationByte (codePoint >>> 6), continuationByte codePoint]

/-- What is written for a code unit outside ASCII that is not the first of a pair. -/
def encodeNonAscii (ch : CodeUnit) : List Byte :=
  if 0x07ff < ch then threeByteEncoding ch.toUInt32 else twoByteEncoding ch.toUInt32

/-- The loop of `ConvertUtf16ToModifiedUtf8` for strings with non-ASCII characters. -/
def convertNonAscii : List CodeUnit → List Byte
  | [] => []
  | ch :: rest =>
    if 0 < ch ∧ ch ≤ 0x7f then ch.toUInt8 :: convertNonAscii rest
    else
      match rest with
      | [] => encodeNonAscii ch
      | ch2 :: rest' =>
        if isLeadingSurrogate ch ∧ isTrailingSurrogate ch2 then
          fourByteEncoding (codePoint ch ch2) ++ convertNonAscii rest'
        else encodeNonAscii ch ++ convertNonAscii (ch2 :: rest')

def convertUtf16ToModifiedUtf8 (byteCount : ℕ) (utf16 : List CodeUnit) : List Byte :=
  if byteCount = utf16.length then utf16.map fun ch => ch.toUInt8
  else convertNonAscii utf16

def countUtf8Bytes : List CodeUnit → ℕ
  | [] => 0
  | ch :: rest =>
    if ch ≠ 0 ∧ ch < 0x80 then 1 + countUtf8Bytes rest
    else if ch < 0x800 then 2 + countUtf8Bytes rest
    else
      match rest with
      | [] => 3
      | ch2 :: rest' =>
        if 0xd800 ≤ ch ∧ ch < 0xdc00 ∧ 0xdc00 ≤ ch2 ∧ ch2 < 0xe000 then 4 + countUtf8Bytes rest'
        else 3 + countUtf8Bytes (ch2 :: rest')

end Encoding

section Decoding

def getTrailingUtf16Char (maybePair : UInt32) : CodeUnit := (maybePair >>> 16).toUInt16

def getLeadingUtf16Char (maybePair : UInt32) : CodeUnit := (maybePair &&& 0x0000FFFF).toUInt16

def continuationBits (byte : Byte) : UInt32 := byte.toUInt32 &&& 0x3f

def surrogatePair (codePoint : UInt32) : UInt32 :=
  let leading : UInt32 := (codePoint >>> 10) + 0xd7c0
  let trailing : UInt32 := (codePoint &&& 0x03ff) + 0xdc00
  (leading &&& (0xffff : UInt32)) ||| (trailing <<< (16 : UInt32))

/-- The next character and the pointer behind it. -/
def getUtf16FromUtf8 : List Byte → Option (UInt32 × List Byte)
  | [] => none
  | one :: afterOne =>
    if one &&& 0x80 = 0 then some (one.toUInt32, afterOne)
    else
      match afterOne with
      | [] => none
      | two :: afterTwo =>
        if one &&& 0x20 = 0 then
          some (((one.toUInt32 &&& 0x1f) <<< 6) ||| continuationBits two, afterTwo)
        else
          match afterTwo with
          | [] => none
          | three :: afterThree =>
            if one &&& 0x10 = 0 then
              some (((one.toUInt32 &&& 0x0f) <<< 12) ||| (continuationBits two <<< 6) |||
                continuationBits three, afterThree)
            else
              match afterThree with
              | [] => none
              | four :: afterFour => some (surrogatePair (((one.toUInt32 &&& 0x0f) <<< 18) |||
                  (continuationBits two <<< 12) ||| (continuationBits three <<< 6) |||
                  continuationBits four), afterFour)

theorem length_lt_of_getUtf16FromUtf8 {utf8 rest : List Byte} {ch : UInt32}
    (h : getUtf16FromUtf8 utf8 = some (ch, rest)) : rest.length < utf8.length := by
  unfold getUtf16FromUtf8 at h
  repeat' split at h
  all_goals cases h
  all_goals simp only [List.length_cons]
  all_goals omega

/-- The code units that a conversion stores for one result of `GetUtf16FromUtf8`. -/
def storedUnits (ch : UInt32) : List CodeUnit :=
  if getTrailingUtf16Char ch ≠ 0 then [getLeadingUtf16Char ch, getTrailingUtf16Char ch]
  else [getLeadingUtf16Char ch]

/-- The loop of `ConvertModifiedUtf8ToUtf16` for strings with non-ASCII characters, with `after` the
number of readable bytes from `in_end` on. -/
def convertNonAsciiUtf8 (after : ℕ) (p : List Byte) : Option (List CodeUnit) :=
  if after < p.length then
    match h : getUtf16FromUtf8 p with
    | none => none
    | some (ch, rest) =>
      have : rest.length < p.length := length_lt_of_getUtf16FromUtf8 h
      (convertNonAsciiUtf8 after rest).map (storedUnits ch ++ ·)
  else some []
termination_by p.length

/-- `char` is a signed type on x86. -/
def promoteChar (byte : Byte) : CodeUnit := UInt16.ofBitVec (byte.toBitVec.signExtend 16)

def convertModifiedUtf8ToUtf16 (outChars : ℕ) (utf8 : List Byte) (inBytes : ℕ) :
    Option (List CodeUnit) :=
  if outChars = inBytes then
    if inBytes ≤ utf8.length then some ((utf8.take inBytes).map promoteChar) else none
  else convertNonAsciiUtf8 (utf8.length - inBytes) utf8

/-- The overload of `ConvertModifiedUtf8ToUtf16` for texts that end with a zero byte. -/
def convertModifiedUtf8ToUtf16Terminated (utf8 : List Byte) : Option (List CodeUnit) :=
  match utf8.head? with
  | none => none
  | some first =>
    if first ≠ 0 then
      match h : getUtf16FromUtf8 utf8 with
      | none => none
      | some (ch, rest) =>
        have : rest.length < utf8.length := length_lt_of_getUtf16FromUtf8 h
        (convertModifiedUtf8ToUtf16Terminated rest).map (storedUnits ch ++ ·)
    else some []
termination_by utf8.length

/-- The loop of `CountModifiedUtf8Chars` over the bytes before `end`. -/
def countCharsBefore : List Byte → ℕ
  | [] => 0
  | ic :: rest =>
    if ic &&& 0x80 = 0 then 1 + countCharsBefore rest
    else if ic &&& 0x20 = 0 then 1 + countCharsBefore (rest.drop 1)
    else if ic &&& 0x10 = 0 then 1 + countCharsBefore (rest.drop 2)
    else 2 + countCharsBefore (rest.drop 3)
termination_by bytes => bytes.length

def countModifiedUtf8Chars (utf8 : List Byte) (byteCount : ℕ) : ℕ :=
  countCharsBefore (utf8.take byteCount)

def strlen (utf8 : List Byte) : ℕ := (utf8.takeWhile (· ≠ 0)).length

def countModifiedUtf8CharsTerminated (utf8 : List Byte) : ℕ :=
  countModifiedUtf8Chars utf8 (strlen utf8)

end Decoding

section Hashing

def hashUnit (hash : UInt32) (ch : CodeUnit) : UInt32 := hash * 31 + ch.toUInt32

def computeUtf16Hash (chars : List CodeUnit) : Int32 := (chars.foldl hashUnit 0).toInt32

/-- A pair that would take `utf16_length` below zero fails the check of the source. -/
def hashModifiedUtf8 (hash : UInt32) (utf8 : List Byte) (utf16Length : ℕ) : Option UInt32 :=
  if utf16Length ≠ 0 then
    match h : getUtf16FromUtf8 utf8 with
    | none => none
    | some (pair, rest) =>
      have : rest.length < utf8.length := length_lt_of_getUtf16FromUtf8 h
      let first := getLeadingUtf16Char pair
      let second := getTrailingUtf16Char pair
      if second ≠ 0 then
        if utf16Length - 1 = 0 then none
        else hashModifiedUtf8 (hashUnit (hashUnit hash first) second) rest (utf16Length - 2)
      else hashModifiedUtf8 (hashUnit hash first) rest (utf16Length - 1)
  else some hash
termination_by utf8.length

def computeUtf16HashFromModifiedUtf8 (utf8 : List Byte) (utf16Length : ℕ) : Option Int32 :=
  (hashModifiedUtf8 0 utf8 utf16Length).map fun hash => hash.toInt32

end Hashing

end NougatArt.Text
