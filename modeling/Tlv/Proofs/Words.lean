/-
Unsigned words in up to four bytes. A word is written over whatever a
piece of storage held, so what is read there afterwards is the word
without the digits that there was no room for, and bytes that have been
read as a word are written back as they were. Both follow from the laws
of digits and values, since a piece is written as digits
(`Checked.copyWord_eq_ok`) and read as a value (`toNat_readUInt32`).

Words compare as their bytes do from the left: a byte in front counts
more than all of those behind it together (`value_cons`, `value_lt`), so
the first byte that differs decides (`value_lt_value_iff`).

The reader looks at four bytes only. By then its accumulator holds three
of them at most, and a shift moves none of their bits out
(`toNat_accumulate_shift`).
-/
import Tlv.Proofs.Writes

namespace Tlv.BigEndian

-- =============================================================== order

/-- What stands in front counts as often as there are values of what
stands behind. -/
theorem value_append (front rest : Bytes) :
    value (front ++ rest) = 256 ^ rest.length * value front + value rest := by
  induction rest using List.reverseRecOn with
  | nil => simp
  | append_singleton rest b ih =>
      rw [← List.append_assoc, value_append_singleton, ih,
        value_append_singleton, List.length_append, List.length_singleton,
        Nat.pow_succ, Nat.mul_right_comm]
      omega

/-- The first byte counts as often as the others have values. -/
theorem value_cons (b : UInt8) (bytes : Bytes) :
    value (b :: bytes) = 256 ^ bytes.length * b.toNat + value bytes := by
  have hsingle : value [b] = b.toNat := by simp [value]
  rw [← List.singleton_append, value_append, hsingle]

/-- Among byte strings of one length the first byte that differs says
which value is smaller. -/
theorem value_lt_value_iff {bytes bytes' : Bytes}
    (h : bytes.length = bytes'.length) :
    value bytes < value bytes' ↔ List.Lex (· < ·) bytes bytes' := by
  induction bytes generalizing bytes' with
  | nil =>
      cases bytes' with
      | nil => simp
      | cons b' bytes' => cases h
  | cons b bytes ih =>
      cases bytes' with
      | nil => cases h
      | cons b' bytes' =>
          have hlength : bytes.length = bytes'.length := Nat.succ.inj h
          have hlt := value_lt bytes
          have hlt' := value_lt bytes'
          rw [value_cons, value_cons, List.cons_lex_cons_iff, ← ih hlength,
            UInt8.lt_iff_toNat_lt, ← UInt8.toNat_inj]
          rw [hlength] at hlt ⊢
          generalize 256 ^ bytes'.length = size at hlt hlt' ⊢
          -- a byte more in front outweighs all that stands behind
          rcases Nat.lt_trichotomy b.toNat b'.toNat with hb | hb | hb
          · have hstep : size * (b.toNat + 1) ≤ size * b'.toNat :=
              Nat.mul_le_mul_left size hb
            rw [Nat.mul_succ] at hstep
            omega
          · rw [hb]
            omega
          · have hstep : size * (b'.toNat + 1) ≤ size * b.toNat :=
              Nat.mul_le_mul_left size hb
            rw [Nat.mul_succ] at hstep
            omega

-- ======================================================== accumulators

/-- What the reader of words holds once it has read these bytes. -/
def accumulate (bytes : Bytes) : UInt32 :=
  bytes.foldl (fun acc b => (acc <<< 8) ||| b.toUInt32) 0

theorem readUInt32_eq_accumulate (bytes : Bytes) :
    readUInt32 bytes = accumulate (bytes.take 4) := rfl

/-- Behind three bytes at most there is room for another. -/
theorem toNat_accumulate_shift {bytes : Bytes} (h : bytes.length < 4) :
    (accumulate bytes <<< 8).toNat = 256 * (accumulate bytes).toNat := by
  have hlt : value bytes < 2 ^ 24 :=
    calc value bytes
        < 256 ^ bytes.length := value_lt bytes
      _ ≤ 256 ^ 3 := Nat.pow_le_pow_right (by decide) (Nat.le_of_lt_succ h)
      _ = 2 ^ 24 := by decide
  have hvalue : (accumulate bytes).toNat = value bytes := by
    rw [accumulate, toNat_foldl_shift]
    omega
  rw [UInt32.toNat_shiftLeft, hvalue]
  show value bytes <<< 8 % 2 ^ 32 = _
  rw [Nat.shiftLeft_eq]
  omega

-- =============================================================== words

/-- Bytes that have been read as a word are written back. -/
theorem ofUInt32_readUInt32 {bytes : Bytes} (h : bytes.length ≤ 4) :
    ofUInt32 bytes.length (readUInt32 bytes) = bytes := by
  rw [ofUInt32, toNat_readUInt32_of_le h, digits_value]

/-- Words compare as their bytes do from the left. -/
theorem readUInt32_lt_iff {bytes bytes' : Bytes} (h : bytes.length ≤ 4)
    (hlength : bytes.length = bytes'.length) :
    readUInt32 bytes < readUInt32 bytes' ↔ List.Lex (· < ·) bytes bytes' := by
  rw [UInt32.lt_iff_toNat_lt, toNat_readUInt32_of_le h,
    toNat_readUInt32_of_le (hlength ▸ h), value_lt_value_iff hlength]

/-- A word fills the whole of a piece, up to four bytes wide, whatever was
there, and is read back without the digits that the piece has no room
for; bytes that were read are written back. The reader looks at no fifth
byte and shifts no bit out of its accumulator, and words compare as their
bytes do. -/
theorem readUInt32_copyWord {width : Nat} (hwidth : width ≤ 4) :
    (∀ v : UInt32,
        (ofUInt32 width v).length = width
          ∧ (∀ held : Bytes, held.length = width →
            Checked.copyWord held v = .ok (ofUInt32 width v))
          ∧ (readUInt32 (ofUInt32 width v)).toNat = v.toNat % 256 ^ width
          ∧ (v.toNat < 256 ^ width → readUInt32 (ofUInt32 width v) = v))
      ∧ (∀ bytes held : Bytes, bytes.length = width → held.length = width →
          Checked.copyWord held (readUInt32 bytes) = .ok bytes)
      ∧ (∀ bytes more : Bytes, bytes.length = 4 →
          readUInt32 (bytes ++ more) = readUInt32 bytes)
      ∧ (∀ bytes : Bytes, readUInt32 bytes = accumulate (bytes.take 4)
          ∧ ∀ (front : Bytes) (b : UInt8) (behind : Bytes),
            bytes.take 4 = front ++ b :: behind →
              (accumulate front <<< 8).toNat
                = 256 * (accumulate front).toNat)
      ∧ ∀ bytes bytes' : Bytes, bytes.length = width →
          bytes'.length = width →
            (readUInt32 bytes < readUInt32 bytes'
              ↔ List.Lex (· < ·) bytes bytes') := by
  refine ⟨?_, ?_, ?_, ?_, ?_⟩
  · intro v
    have hlength : (ofUInt32 width v).length = width := length_digits ..
    refine ⟨hlength, ?_, ?_, readUInt32_ofUInt32 hwidth⟩
    · intro held hheld
      subst hheld
      exact Checked.copyWord_eq_ok hwidth v
    · rw [toNat_readUInt32_of_le (by rw [hlength]; exact hwidth), ofUInt32,
        value_digits]
  · intro bytes held hbytes hheld
    have hcopy := Checked.copyWord_eq_ok (by rw [hheld]; exact hwidth)
      (readUInt32 bytes)
    rw [hheld, ← hbytes, ofUInt32_readUInt32 (by rw [hbytes]; exact hwidth)]
      at hcopy
    exact hcopy
  · intro bytes more hbytes
    rw [readUInt32_eq_accumulate, readUInt32_eq_accumulate,
      List.take_left' hbytes, List.take_of_length_le (Nat.le_of_eq hbytes)]
  · intro bytes
    refine ⟨rfl, ?_⟩
    intro front b behind hsplit
    have hlength := congrArg List.length hsplit
    have hle : (bytes.take 4).length ≤ 4 := List.length_take_le 4 bytes
    rw [hlength, List.length_append, List.length_cons] at hle
    exact toNat_accumulate_shift (by omega)
  · intro bytes bytes' hbytes hbytes'
    exact readUInt32_lt_iff (by rw [hbytes]; exact hwidth)
      (hbytes.trans hbytes'.symm)

/-- Over two bytes a word loses its upper half; over four nothing is
lost, the last shift is of three full bytes, and no fifth byte counts. -/
theorem readUInt32_copyWord_half_and_full :
    Checked.copyWord [0xAA, 0xBB] 0x01020304 = .ok [3, 4]
      ∧ (readUInt32 (ofUInt32 2 0x01020304)).toNat = 0x0304
      ∧ Checked.copyWord [1, 2, 3, 4] (readUInt32 [0xFF, 0xFF, 0xFF, 0xFE])
        = .ok [0xFF, 0xFF, 0xFF, 0xFE]
      ∧ readUInt32 ([0xFF, 0xFF, 0xFF, 0xFE] ++ [7])
        = readUInt32 [0xFF, 0xFF, 0xFF, 0xFE]
      ∧ (accumulate [0xFF, 0xFF, 0xFF] <<< 8).toNat
        = 256 * (accumulate [0xFF, 0xFF, 0xFF]).toNat
      ∧ readUInt32 [0xFF, 0xFF, 0xFF, 0xFE]
        < readUInt32 [0xFF, 0xFF, 0xFF, 0xFF] := by
  obtain ⟨hwrite, -⟩ := @readUInt32_copyWord 2 (by decide)
  obtain ⟨-, hback, hmore, hshift, horder⟩ :=
    @readUInt32_copyWord 4 (by decide)
  obtain ⟨-, hcopy, hread, -⟩ := hwrite 0x01020304
  refine ⟨hcopy _ rfl, hread, hback _ _ rfl rfl, hmore _ _ rfl,
    (hshift [0xFF, 0xFF, 0xFF, 0xFE]).2 _ 0xFE [] rfl,
    (horder _ _ rfl rfl).2 ?_⟩
  exact .cons (.cons (.cons (.rel (by decide))))

end Tlv.BigEndian
