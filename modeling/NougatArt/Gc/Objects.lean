import Mathlib

/-!
# Objects as bytes

An object is a block of bytes: the reference to its class, the lock word, its
fields. References take four bytes at offsets that the class of the object
knows. The forwarding address of a moved object is kept in its lock word.
-/

namespace NougatArt.Gc

open List

instance neZeroByte : NeZero 256 := ⟨by decide⟩

abbrev Byte := Fin 256

def readWord (bytes : List Byte) (offset : ℕ) : ℕ :=
  (bytes.getD offset 0).val + 256 * (bytes.getD (offset + 1) 0).val +
    65536 * (bytes.getD (offset + 2) 0).val + 16777216 * (bytes.getD (offset + 3) 0).val

theorem readWord_lt (bytes : List Byte) (off : ℕ) : readWord bytes off < 2 ^ 32 := by
  have h0 := (bytes.getD off 0).isLt
  have h1 := (bytes.getD (off + 1) 0).isLt
  have h2 := (bytes.getD (off + 2) 0).isLt
  have h3 := (bytes.getD (off + 3) 0).isLt
  simp only [readWord]
  omega

def writeWord (bytes : List Byte) (offset value : ℕ) : List Byte :=
  (((bytes.set offset (Fin.ofNat 256 value)).set (offset + 1) (Fin.ofNat 256 (value / 256))).set
    (offset + 2) (Fin.ofNat 256 (value / 65536))).set (offset + 3)
      (Fin.ofNat 256 (value / 16777216))

section

variable (bytes : List Byte)

include bytes

@[simp]
theorem length_writeWord (off v : ℕ) : (writeWord bytes off v).length = bytes.length := by
  simp only [writeWord, length_set]

theorem getD_writeWord_of_outside {off i : ℕ} (v : ℕ) (hout : i < off ∨ off + 4 ≤ i) :
    (writeWord bytes off v).getD i 0 = bytes.getD i 0 := by
  simp only [writeWord, getD_eq_getElem?_getD]
  rw [getElem?_set_ne (by omega), getElem?_set_ne (by omega),
    getElem?_set_ne (by omega), getElem?_set_ne (by omega)]

theorem readWord_writeWord_of_disjoint {off other : ℕ} (v : ℕ)
    (hdisj : other + 4 ≤ off ∨ off + 4 ≤ other) :
    readWord (writeWord bytes off v) other = readWord bytes other := by
  simp only [readWord]
  rw [getD_writeWord_of_outside _ _ (by omega), getD_writeWord_of_outside _ _ (by omega),
    getD_writeWord_of_outside _ _ (by omega), getD_writeWord_of_outside _ _ (by omega)]

theorem readWord_writeWord {off v : ℕ} (hinside : off + 4 ≤ bytes.length) (hvalue : v < 2 ^ 32) :
    readWord (writeWord bytes off v) off = v := by
  have h0 : (writeWord bytes off v).getD off 0 = Fin.ofNat 256 v := by
    simp only [writeWord, getD_eq_getElem?_getD]
    rw [getElem?_set_ne (by omega), getElem?_set_ne (by omega),
      getElem?_set_ne (by omega), getElem?_set_self (by omega)]
    rfl
  have h1 : (writeWord bytes off v).getD (off + 1) 0 = Fin.ofNat 256 (v / 256) := by
    simp only [writeWord, getD_eq_getElem?_getD]
    rw [getElem?_set_ne (by omega), getElem?_set_ne (by omega),
      getElem?_set_self (by rw [length_set]; omega)]
    rfl
  have h2 : (writeWord bytes off v).getD (off + 2) 0 = Fin.ofNat 256 (v / 65536) := by
    simp only [writeWord, getD_eq_getElem?_getD]
    rw [getElem?_set_ne (by omega), getElem?_set_self (by rw [length_set, length_set]; omega)]
    rfl
  have h3 : (writeWord bytes off v).getD (off + 3) 0 = Fin.ofNat 256 (v / 16777216) := by
    simp only [writeWord, getD_eq_getElem?_getD]
    rw [getElem?_set_self (by rw [length_set, length_set, length_set]; omega)]
    rfl
  simp only [readWord, h0, h1, h2, h3, Fin.val_ofNat]
  omega

end

def fromForwardingAddress (target : ℕ) : ℕ := target / 4 + 3 * 2 ^ 30

/-- `GetForwardingAddressInFromSpace` on the value of a lock word. -/
def forwardingAddress (lockWord : ℕ) : Option ℕ :=
  if lockWord / 2 ^ 30 % 4 = 3 then some (lockWord * 4 % 2 ^ 32) else none

structure IsObjectAddress (address : ℕ) : Prop where
  aligned : address % 8 = 0
  lt : address < 2 ^ 32

theorem fromForwardingAddress_lt {t : ℕ} (htarget : IsObjectAddress t) :
    fromForwardingAddress t < 2 ^ 32 := by
  have := htarget.lt
  simp only [fromForwardingAddress]
  omega

theorem forwardingAddress_fromForwardingAddress {t : ℕ} (htarget : IsObjectAddress t) :
    forwardingAddress (fromForwardingAddress t) = some t := by
  have haligned := htarget.aligned
  have hlt := htarget.lt
  have hstate : fromForwardingAddress t / 2 ^ 30 % 4 = 3 := by
    simp only [fromForwardingAddress]
    omega
  rw [forwardingAddress, if_pos hstate, Option.some.injEq, fromForwardingAddress]
  omega

/-- `OFFSET_OF_OBJECT_MEMBER(Object, monitor_)`. -/
def kMonitorOffset : ℕ := 4

/-- The part of the layout of an object that the collector reads: where its
references are, and where the referent of a `java.lang.ref.Reference` is. The
native roots are not in the object: a class, for one, only points to its fields
and methods, each of which refers to its declaring class. -/
structure Object where
  bytes : List Byte
  /-- The fields that `VisitReferences` visits, the class first. -/
  refOffsets : List ℕ
  /-- The referent, which `VisitReferences` passes to the reference visitor. -/
  referentOffset : Option ℕ
  /-- The cells that `VisitNativeRoots` visits. -/
  nativeRoots : List ℕ
  header_le : 8 ≤ bytes.length
  field_spec : ∀ offset ∈ refOffsets ++ referentOffset.toList,
    offset % 4 = 0 ∧ offset + 4 ≤ bytes.length ∧ offset ≠ kMonitorOffset
  fields_nodup : (refOffsets ++ referentOffset.toList).Nodup
  deriving DecidableEq

namespace Object

def fields (object : Object) : List ℕ := object.refOffsets ++ object.referentOffset.toList

def sizeOf (object : Object) : ℕ := object.bytes.length

def refAt (object : Object) (offset : ℕ) : ℕ := readWord object.bytes offset

def lockWord (object : Object) : ℕ := readWord object.bytes kMonitorOffset

def withWord (object : Object) (offset value : ℕ) : Object := { object with
    bytes := writeWord object.bytes offset value
    header_le := by rw [length_writeWord]; exact object.header_le
    field_spec := by rw [length_writeWord]; exact object.field_spec }

def setRef (object : Object) (offset value : ℕ) : Object := object.withWord offset value

def setLockWord (object : Object) (value : ℕ) : Object := object.withWord kMonitorOffset value

def blank (object : Object) : Object where
  bytes := replicate object.bytes.length 0
  refOffsets := []
  referentOffset := none
  nativeRoots := []
  header_le := by rw [length_replicate]; exact object.header_le
  field_spec := by simp
  fields_nodup := nodup_nil

section Words

variable (object : Object) {off other v : ℕ}

theorem mem_fields_of_ref (h : off ∈ object.refOffsets) : off ∈ object.fields := mem_append_left _ h

theorem refAt_setRef (hfield : off ∈ object.fields) (hvalue : v < 2 ^ 32) :
    (object.setRef off v).refAt off = v :=
  readWord_writeWord _ (object.field_spec off hfield).2.1 hvalue

/-- Two words at different aligned offsets do not overlap. -/
theorem disjoint_of_ne (hoff : off % 4 = 0) (hother : other % 4 = 0) (hne : other ≠ off) :
    other + 4 ≤ off ∨ off + 4 ≤ other := by omega

theorem refAt_setRef_of_ne (hfield : off ∈ object.fields) (hother : other ∈ object.fields)
    (hne : other ≠ off) : (object.setRef off v).refAt other = object.refAt other :=
  readWord_writeWord_of_disjoint _ _
    (disjoint_of_ne (object.field_spec off hfield).1 (object.field_spec _ hother).1 hne)

theorem lockWord_setLockWord (hvalue : v < 2 ^ 32) : (object.setLockWord v).lockWord = v :=
  readWord_writeWord _ (by have := object.header_le; simp only [kMonitorOffset]; omega) hvalue

end Words

end Object

def kPageSize : ℕ := 4096

inductive WordSize
  | bits32
  | bits64
  deriving DecidableEq, Repr

def WordSize.bytes : WordSize → ℕ
  | .bits32 => 4
  | .bits64 => 8

/-- The inner loop of the copy: words that are zero are not written. -/
def copyWords (wordSize : WordSize) : ℕ → List Byte → List Byte → List Byte
  | 0, dest, _ => dest
  | count + 1, dest, src =>
    (if src.take wordSize.bytes = replicate wordSize.bytes 0 then dest.take wordSize.bytes
      else src.take wordSize.bytes) ++
      copyWords wordSize count (dest.drop wordSize.bytes) (src.drop wordSize.bytes)

/-- The pages of the copy, up to the part of a page at its end. -/
def copyPages (wordSize : WordSize) (dest src : List Byte) : List Byte :=
  if _h : kPageSize < src.length then
    copyWords wordSize (kPageSize / wordSize.bytes) (dest.take kPageSize) (src.take kPageSize) ++
      copyPages wordSize (dest.drop kPageSize) (src.drop kPageSize)
  else src
  termination_by src.length
  decreasing_by rw [length_drop]; simp only [kPageSize] at *; omega

def alignUp (address size : ℕ) : ℕ := (address + size - 1) / size * size

/-- `CopyAvoidingDirtyingPages`, the bytes at the address `address` being `dest`. -/
def copyAvoidingDirtyingPages (wordSize : WordSize) (address : ℕ) (dest src : List Byte) :
    List Byte :=
  if src.length ≤ kPageSize then src
  else
    let pageRemain := alignUp address kPageSize - address
    src.take pageRemain ++ copyPages wordSize (dest.drop pageRemain) (src.drop pageRemain)

/-- Skipping the zero words copies all words when the destination is zeroed. -/
theorem copyWords_of_zeroed (wordSize : WordSize) (count : ℕ) (src : List Byte)
    (hlen : src.length = count * wordSize.bytes) :
    copyWords wordSize count (replicate (count * wordSize.bytes) 0) src = src := by
  induction count generalizing src with
  | zero =>
    rw [Nat.zero_mul] at hlen
    rw [length_eq_zero_iff.mp hlen, Nat.zero_mul]
    rfl
  | succ count ih =>
    have hsplit : (count + 1) * wordSize.bytes = wordSize.bytes + count * wordSize.bytes := by
      rw [Nat.add_mul, Nat.one_mul, Nat.add_comm]
    have hword : (if src.take wordSize.bytes = replicate wordSize.bytes 0 then
        (replicate ((count + 1) * wordSize.bytes) (0 : Byte)).take wordSize.bytes
        else src.take wordSize.bytes) = src.take wordSize.bytes := by
      split
      case isTrue hzero =>
        rw [hzero, take_replicate, hsplit, Nat.min_eq_left (Nat.le_add_right _ _)]
      case isFalse => rfl
    rw [copyWords, hword, drop_replicate, hsplit, Nat.add_sub_cancel_left,
      ih _ (by rw [length_drop]; omega), take_append_drop]

theorem copyPages_of_zeroed (wordSize : WordSize) (length : ℕ) (src : List Byte)
    (hlen : src.length = length) : copyPages wordSize (replicate length 0) src = src := by
  induction length using Nat.strongRecOn generalizing src with
  | ind length ih =>
    rw [copyPages]
    split
    case isTrue hmore =>
      have hcount : kPageSize / wordSize.bytes * wordSize.bytes = kPageSize := by
        cases wordSize <;> rfl
      have hpage : copyWords wordSize (kPageSize / wordSize.bytes)
          ((replicate length 0).take kPageSize) (src.take kPageSize) =
          src.take kPageSize := by
        have hreplicate : (replicate length (0 : Byte)).take kPageSize =
            replicate (kPageSize / wordSize.bytes * wordSize.bytes) 0 := by
          rw [take_replicate, hcount, Nat.min_eq_left (by omega)]
        rw [hreplicate]
        exact copyWords_of_zeroed _ _ _ (by rw [length_take, hcount]; omega)
      have hrest : copyPages wordSize ((replicate length 0).drop kPageSize)
          (src.drop kPageSize) = src.drop kPageSize := by
        rw [drop_replicate]
        refine ih (length - kPageSize) ?_ _ (by rw [length_drop, hlen])
        simp only [kPageSize] at hmore ⊢
        omega
      rw [hpage, hrest, take_append_drop]
    case isFalse => rfl

/-- A copy into zeroed memory has all bytes of the object, whatever its size and
wherever it is placed. -/
theorem copyAvoidingDirtyingPages_of_zeroed (wordSize : WordSize) (addr : ℕ) (src : List Byte) :
    copyAvoidingDirtyingPages wordSize addr (replicate src.length 0) src = src := by
  rw [copyAvoidingDirtyingPages]
  split
  case isTrue => rfl
  case isFalse =>
    simp only
    rw [drop_replicate, copyPages_of_zeroed wordSize _ _ (length_drop ..), take_append_drop]

def Object.copied (wordSize : WordSize) (address : ℕ) (object : Object) : Object := { object with
    bytes := copyAvoidingDirtyingPages wordSize address object.blank.bytes object.bytes
    header_le := by
      rw [show object.blank.bytes = replicate object.bytes.length 0 from rfl,
        copyAvoidingDirtyingPages_of_zeroed]
      exact object.header_le
    field_spec := by
      rw [show object.blank.bytes = replicate object.bytes.length 0 from rfl,
        copyAvoidingDirtyingPages_of_zeroed]
      exact object.field_spec }

@[simp]
theorem Object.copied_eq (wordSize : WordSize) (addr : ℕ) (object : Object) :
    object.copied wordSize addr = object := by
  have hbytes := copyAvoidingDirtyingPages_of_zeroed wordSize addr object.bytes
  cases object
  simp only [Object.copied, Object.mk.injEq, and_self, and_true]
  exact hbytes

end NougatArt.Gc
