/-
Digits and values are inverse to each other, as far as the width goes:
`value_digits` reads a written number back, and `digits_value` writes a
read byte string back, so a byte string of a given size has one value
and a value below `256 ^ width` has one byte string.

The reader of unsigned words does not compute `value` but shifts each
byte into a 32-bit accumulator. Over four bytes at most the two agree
(`toNat_readUInt32`): one shift is multiplication by 256 modulo `2^32`
(`toNat_shift`), and four digits stay below that.
-/
import Mathlib.Algebra.Group.Nat.Defs
import Mathlib.Data.List.Induction
import Tlv.BigEndian

namespace Tlv.BigEndian

-- ==================================================== natural numbers

/-- Reading digits back gives the number, up to those that there was no
room for. -/
theorem value_digits (width n : Nat) :
    value (digits width n) = n % 256 ^ width := by
  induction width generalizing n with
  | zero => simp [digits, Nat.mod_one]
  | succ width ih =>
      rw [digits, value_append_singleton, ih, Nat.pow_succ,
        Nat.mul_comm (256 ^ width), Nat.mod_mul, UInt8.toNat_ofNat']
      omega

/-- A value has as many digits as there are bytes. -/
theorem value_lt (bytes : Bytes) : value bytes < 256 ^ bytes.length := by
  induction bytes using List.reverseRecOn with
  | nil => simp
  | append_singleton bytes b ih =>
      have hb : b.toNat < 256 := b.toNat_lt
      rw [value_append_singleton, List.length_append, List.length_singleton,
        Nat.pow_succ]
      omega

/-- The digits of a value are the bytes it was read from. -/
theorem digits_value (bytes : Bytes) :
    digits bytes.length (value bytes) = bytes := by
  induction bytes using List.reverseRecOn with
  | nil => rfl
  | append_singleton bytes b ih =>
      have hb : b.toNat < 256 := b.toNat_lt
      have hdiv : (256 * value bytes + b.toNat) / 256 = value bytes := by omega
      have hlow : UInt8.ofNat (256 * value bytes + b.toNat) = b := by
        apply UInt8.toNat_inj.1
        rw [UInt8.toNat_ofNat']
        omega
      rw [value_append_singleton, List.length_append, List.length_singleton,
        digits, hdiv, hlow, ih]

/-- The low digits stand last. -/
theorem drop_digits (skip width n : Nat) :
    (digits (skip + width) n).drop skip = digits width n := by
  induction width generalizing n with
  | zero =>
      refine List.drop_of_length_le ?_
      rw [length_digits]
      exact Nat.le_refl _
  | succ width ih =>
      have hskip : skip ≤ (digits (skip + width) (n / 256)).length := by
        rw [length_digits]
        exact Nat.le_add_right ..
      rw [← Nat.add_assoc, digits, digits, List.drop_append_of_le_length hskip,
        ih]

/-- Where there is room for all digits the number is read back. -/
theorem value_digits_of_lt {width n : Nat} (h : n < 256 ^ width) :
    value (digits width n) = n := by
  rw [value_digits, Nat.mod_eq_of_lt h]

-- ===================================================== unsigned words

/-- Shifting a byte in multiplies by 256 and adds it, modulo the word. -/
theorem toNat_shift (acc : UInt32) (b : UInt8) :
    ((acc <<< 8) ||| b.toUInt32).toNat
      = (256 * acc.toNat + b.toNat) % 2 ^ 32 := by
  have hb : b.toNat < 2 ^ 8 := b.toNat_lt
  have hshift : (acc.toNat <<< 8) % 2 ^ 32 = 2 ^ 8 * (acc.toNat % 2 ^ 24) := by
    rw [Nat.shiftLeft_eq]
    omega
  rw [UInt32.toNat_or, UInt32.toNat_shiftLeft, UInt8.toNat_toUInt32]
  show acc.toNat <<< 8 % 2 ^ 32 ||| b.toNat = _
  rw [hshift, ← Nat.two_pow_add_eq_or_of_lt hb]
  omega

/-- Shifting bytes in one by one computes their value, modulo the
word. -/
theorem toNat_foldl_shift (bytes : Bytes) :
    (bytes.foldl
        (fun (acc : UInt32) (b : UInt8) => (acc <<< 8) ||| b.toUInt32) 0).toNat
      = value bytes % 2 ^ 32 := by
  induction bytes using List.reverseRecOn with
  | nil => rfl
  | append_singleton bytes b ih =>
      rw [List.foldl_append, List.foldl_cons, List.foldl_nil, toNat_shift, ih,
        value_append_singleton]
      omega

/-- The accumulator holds the value of the first four bytes, since four
shifts are within its width. -/
theorem toNat_readUInt32 (bytes : Bytes) :
    (readUInt32 bytes).toNat = value (bytes.take 4) := by
  have hlen : (bytes.take 4).length ≤ 4 := List.length_take_le 4 bytes
  have hlt : value (bytes.take 4) < 2 ^ 32 :=
    calc value (bytes.take 4)
        < 256 ^ (bytes.take 4).length := value_lt _
      _ ≤ 256 ^ 4 := Nat.pow_le_pow_right (by decide) hlen
      _ = 2 ^ 32 := by decide
  unfold readUInt32
  rw [toNat_foldl_shift]
  exact Nat.mod_eq_of_lt hlt

/-- Of four bytes at most, the word reader computes the value. -/
theorem toNat_readUInt32_of_le {bytes : Bytes} (h : bytes.length ≤ 4) :
    (readUInt32 bytes).toNat = value bytes := by
  rw [toNat_readUInt32, List.take_of_length_le h]

/-- A word that fits its width is read back as it was written. -/
theorem readUInt32_ofUInt32 {width : Nat} {v : UInt32} (hwidth : width ≤ 4)
    (h : v.toNat < 256 ^ width) : readUInt32 (ofUInt32 width v) = v := by
  apply UInt32.toNat_inj.1
  rw [toNat_readUInt32_of_le (by simpa [ofUInt32] using hwidth), ofUInt32,
    value_digits_of_lt h]

-- ======================================================= signed words

/-- A 16-bit integer is read back from its two bytes. -/
theorem readInt16_ofInt16 (v : Int16) : readInt16 (ofInt16 v) = v := by
  have hlt : v.toUInt16.toNat < 256 ^ 2 := v.toUInt16.toNat_lt
  rw [readInt16, ofInt16, value_digits_of_lt hlt, UInt16.ofNat_toNat,
    Int16.toInt16_toUInt16]

/-- Any two bytes are those of the integer that they read as. -/
theorem ofInt16_readInt16 {bytes : Bytes} (h : bytes.length = 2) :
    ofInt16 (readInt16 bytes) = bytes := by
  have hlt : value bytes < UInt16.size :=
    calc value bytes
        < 256 ^ bytes.length := value_lt bytes
      _ = UInt16.size := by rw [h]; rfl
  have hbytes := digits_value bytes
  rw [h] at hbytes
  rw [ofInt16, readInt16, UInt16.toUInt16_toInt16,
    UInt16.toNat_ofNat_of_lt' hlt, hbytes]

theorem readInt32_ofInt32 (v : Int32) : readInt32 (ofInt32 v) = v := by
  have hlt : v.toUInt32.toNat < 256 ^ 4 := v.toUInt32.toNat_lt
  rw [readInt32, ofInt32, value_digits_of_lt hlt, UInt32.ofNat_toNat,
    Int32.toInt32_toUInt32]

theorem ofInt32_readInt32 {bytes : Bytes} (h : bytes.length = 4) :
    ofInt32 (readInt32 bytes) = bytes := by
  have hlt : value bytes < UInt32.size :=
    calc value bytes
        < 256 ^ bytes.length := value_lt bytes
      _ = UInt32.size := by rw [h]; rfl
  have hbytes := digits_value bytes
  rw [h] at hbytes
  rw [ofInt32, readInt32, UInt32.toUInt32_toInt32,
    UInt32.toNat_ofNat_of_lt' hlt, hbytes]

end Tlv.BigEndian
