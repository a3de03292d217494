/-
Integers as bytes, most significant byte first. Every number in a header
and every fixed-width payload is written this way.

The general form works on natural numbers: `digits` writes the low
base-256 digits of a number and `value` reads a byte string back. The
words of the format are thin wrappers around them, except that an
unsigned word is read by shifting each byte into an accumulator
(`readUInt32`).
-/
import Tlv.Bytes

namespace Tlv.BigEndian

-- ==================================================== natural numbers

/-- The `width` low base-256 digits of `n`. -/
def digits : Nat → Nat → Bytes
  | 0, _ => []
  | width + 1, n => digits width (n / 256) ++ [UInt8.ofNat n]

/-- The number whose base-256 digits are `bytes`. -/
def value (bytes : Bytes) : Nat :=
  bytes.foldl (fun n b => 256 * n + b.toNat) 0

/-- There are as many digits as were asked for, whatever the number. -/
@[simp]
theorem length_digits (width n : Nat) : (digits width n).length = width := by
  induction width generalizing n with
  | zero => rfl
  | succ width ih => simp [digits, ih]

@[simp]
theorem value_nil : value [] = 0 := rfl

/-- A further byte moves those in front up by one place. -/
@[simp]
theorem value_append_singleton (bytes : Bytes) (b : UInt8) :
    value (bytes ++ [b]) = 256 * value bytes + b.toNat := by
  simp [value]

-- ===================================================== unsigned words

/-- The `width` low bytes of a word. -/
def ofUInt32 (width : Nat) (v : UInt32) : Bytes :=
  digits width v.toNat

/-- The word stored in the first four bytes, or in all of them if there
are fewer. No byte at all reads as zero. -/
def readUInt32 (bytes : Bytes) : UInt32 :=
  (bytes.take 4).foldl (fun acc b => (acc <<< 8) ||| b.toUInt32) 0

-- ======================================================= signed words

/-- The two bytes of a 16-bit integer in two's complement. -/
def ofInt16 (v : Int16) : Bytes :=
  digits 2 v.toUInt16.toNat

/-- The 16-bit integer whose two's-complement digits are `bytes`. -/
def readInt16 (bytes : Bytes) : Int16 :=
  (UInt16.ofNat (value bytes)).toInt16

/-- The four bytes of a 32-bit integer in two's complement. -/
def ofInt32 (v : Int32) : Bytes :=
  digits 4 v.toUInt32.toNat

/-- The 32-bit integer whose two's-complement digits are `bytes`. -/
def readInt32 (bytes : Bytes) : Int32 :=
  (UInt32.ofNat (value bytes)).toInt32

end Tlv.BigEndian
