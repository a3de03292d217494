/-
Frames as sequences of digits. An entry is what a caller wants written,
and `Policy.encode` says which bytes stand for it: the tag and the
payload length in big-endian digits of their widths, then the payload.
`Policy.Fits` says which entries headers have room for.

Written frames are encodings (`frame_eq_encode`). To read is to look at
the front of some bytes: either they are torn, that is, too short for a
header and the payload declared in it, or they are the encoding of their
front and something behind it (`encode_front_append`). An encoding with
anything behind it is not torn and has its entry at the front
(`front_encode_append`). What the reader answers is a matter of sizes
alone (`readFrame_eq`).
-/
import Mathlib.Algebra.GroupWithZero.Nat
import Tlv.Frame
import Tlv.Proofs.Digits

namespace Tlv

-- ============================================================= entries

/-- A tag and a payload to be written. -/
structure Entry where
  tag : UInt32
  payload : Bytes
  deriving DecidableEq, Repr

/-- The entry that an element was written from. -/
def Element.entry (e : Element) : Entry :=
  { tag := e.tag, payload := e.payload }

namespace Policy

variable {p : Policy}

/-- Headers have room for the tag, if they carry one, and for the
payload length. -/
def Fits (p : Policy) (x : Entry) : Prop :=
  (p.typeWidth.bytes ≠ 0 → x.tag.toNat < 256 ^ p.typeWidth.bytes)
    ∧ x.payload.length < 256 ^ p.lengthWidth.bytes

instance (p : Policy) (x : Entry) : Decidable (p.Fits x) := by
  unfold Fits
  infer_instance

/-- The entry as it can be read back: a tag that headers do not carry
reads as zero. -/
def carried (p : Policy) (x : Entry) : Entry :=
  { x with tag := if p.typeWidth.bytes = 0 then 0 else x.tag }

/-- The bytes that stand for an entry. -/
def encode (p : Policy) (x : Entry) : Bytes :=
  BigEndian.digits p.typeWidth.bytes x.tag.toNat
    ++ BigEndian.digits p.lengthWidth.bytes x.payload.length
    ++ x.payload

/-- The bytes that stand for several entries, one behind the other. -/
def encodeAll (p : Policy) (xs : List Entry) : Bytes :=
  xs.flatMap p.encode

@[simp]
theorem length_encode (p : Policy) (x : Entry) :
    (p.encode x).length = p.headerLen + x.payload.length := by
  simp [encode, headerLen, Nat.add_assoc]

@[simp]
theorem encodeAll_nil (p : Policy) : p.encodeAll [] = [] := rfl

@[simp]
theorem encodeAll_cons (p : Policy) (x : Entry) (xs : List Entry) :
    p.encodeAll (x :: xs) = p.encode x ++ p.encodeAll xs := by
  simp [encodeAll]

/-- Rows of frames stand one behind the other. -/
@[simp]
theorem encodeAll_append (p : Policy) (xs ys : List Entry) :
    p.encodeAll (xs ++ ys) = p.encodeAll xs ++ p.encodeAll ys := by
  simp [encodeAll]

/-- A row of frames is as long as its frames together. -/
theorem length_encodeAll (p : Policy) (xs : List Entry) :
    (p.encodeAll xs).length
      = (xs.map fun x => p.headerLen + x.payload.length).sum := by
  simp [encodeAll, List.length_flatMap]

-- ============================================ the writer's own measures

theorem typeWidth_le (p : Policy) : p.typeWidth.bytes ≤ 4 := by
  cases p.typeWidth <;> decide

theorem lengthWidth_le (p : Policy) : p.lengthWidth.bytes ≤ 4 := by
  cases p.lengthWidth <;> decide

/-- The tag bound leaves exactly the tags that have digits enough. -/
theorem fitsTag_eq_true_iff {tag : UInt32} :
    p.fitsTag tag = true
      ↔ (p.typeWidth.bytes ≠ 0 → tag.toNat < 256 ^ p.typeWidth.bytes) := by
  have := tag.toNat_lt
  unfold fitsTag maxTag
  cases p.typeWidth <;>
    simp [TypeWidth.maxTag, TypeWidth.bytes] <;> omega

/-- The longest payload has the greatest length that the header has digits
for. -/
theorem maxPayloadLen_add_one (p : Policy) :
    p.maxPayloadLen + 1 = 256 ^ p.lengthWidth.bytes := by
  unfold maxPayloadLen
  cases p.lengthWidth <;> rfl

/-- An entry fits if the writer's two checks pass. -/
theorem fits_iff {x : Entry} :
    p.Fits x
      ↔ p.fitsTag x.tag = true ∧ x.payload.length ≤ p.maxPayloadLen := by
  have := maxPayloadLen_add_one p
  rw [Fits, fitsTag_eq_true_iff]
  constructor
  · rintro ⟨htag, hlen⟩
    exact ⟨htag, by omega⟩
  · rintro ⟨htag, hlen⟩
    exact ⟨htag, by omega⟩

theorem Fits.length_lt_word {x : Entry} (h : p.Fits x) :
    x.payload.length < 2 ^ 32 :=
  calc x.payload.length
      < 256 ^ p.lengthWidth.bytes := h.2
    _ ≤ 256 ^ 4 := Nat.pow_le_pow_right (by decide) (lengthWidth_le p)
    _ = 2 ^ 32 := by decide

/-- A written frame is the encoding of its entry. -/
theorem frame_eq_encode {x : Entry} (h : p.Fits x) :
    p.frame x.tag x.payload = p.encode x := by
  have hword : (UInt32.ofNat x.payload.length).toNat = x.payload.length :=
    UInt32.toNat_ofNat_of_lt' h.length_lt_word
  rw [frame, header, BigEndian.ofUInt32, BigEndian.ofUInt32, hword, encode]

-- ============================================ the front of some bytes

/-- The tag in the header at the front of some bytes. -/
def marked (p : Policy) (bytes : Bytes) : UInt32 :=
  BigEndian.readUInt32 (bytes.take p.typeWidth.bytes)

/-- The payload length declared in the header at the front of some
bytes. -/
def declared (p : Policy) (bytes : Bytes) : Nat :=
  BigEndian.value ((bytes.drop p.typeWidth.bytes).take p.lengthWidth.bytes)

/-- The entry whose frame stands at the front of some bytes. -/
def front (p : Policy) (bytes : Bytes) : Entry :=
  { tag := p.marked bytes
    payload := (bytes.drop p.headerLen).take (p.declared bytes) }

/-- The element that an entry is read back as when its header begins at
`offset`. -/
def placed (p : Policy) (offset : Nat) (x : Entry) : Element :=
  { tag := (p.carried x).tag
    offset := offset + p.headerLen
    payload := x.payload }

/-- Bytes that end before the first frame in them does. No bytes at all
are torn too. -/
def Torn (p : Policy) (bytes : Bytes) : Prop :=
  bytes.length < p.headerLen + p.declared bytes

/-- A tag is read as the value of its digits, and as zero if it has
none. -/
theorem toNat_marked (p : Policy) (bytes : Bytes) :
    (p.marked bytes).toNat
      = BigEndian.value (bytes.take p.typeWidth.bytes) := by
  refine BigEndian.toNat_readUInt32_of_le ?_
  exact Nat.le_trans (List.length_take_le _ _) (typeWidth_le p)

theorem marked_lt (p : Policy) (bytes : Bytes) :
    (p.marked bytes).toNat < 256 ^ p.typeWidth.bytes := by
  rw [toNat_marked]
  refine Nat.lt_of_lt_of_le (BigEndian.value_lt _) ?_
  exact Nat.pow_le_pow_right (by decide) (List.length_take_le _ _)

/-- A length has no more digits than its width. -/
theorem declared_lt (p : Policy) (bytes : Bytes) :
    p.declared bytes < 256 ^ p.lengthWidth.bytes := by
  refine Nat.lt_of_lt_of_le (BigEndian.value_lt _) ?_
  exact Nat.pow_le_pow_right (by decide) (List.length_take_le _ _)

/-- Where headers carry no tag, the tag read from them is zero. -/
theorem carried_front (p : Policy) (bytes : Bytes) :
    p.carried (p.front bytes) = p.front bytes := by
  unfold carried
  by_cases hwidth : p.typeWidth.bytes = 0
  · have hzero : p.marked bytes = 0 := by
      rw [marked, hwidth]
      rfl
    rw [if_pos hwidth, front, hzero]
  · rw [if_neg hwidth]

theorem placed_carried (p : Policy) (offset : Nat) (x : Entry) :
    p.placed offset (p.carried x) = p.placed offset x := by
  unfold placed carried
  by_cases hwidth : p.typeWidth.bytes = 0
  · simp [hwidth]
  · simp [hwidth]

/-- A frame declares the length of its payload, whatever follows. -/
theorem declared_encode_append {x : Entry} (h : p.Fits x) (rest : Bytes) :
    p.declared (p.encode x ++ rest) = x.payload.length := by
  have hsplit : p.encode x ++ rest
      = BigEndian.digits p.typeWidth.bytes x.tag.toNat
        ++ (BigEndian.digits p.lengthWidth.bytes x.payload.length
          ++ (x.payload ++ rest)) := by
    simp [encode]
  rw [declared, hsplit, List.drop_left' (BigEndian.length_digits ..),
    List.take_left' (BigEndian.length_digits ..),
    BigEndian.value_digits_of_lt h.2]

/-- A frame is marked with its tag, if tags are carried. -/
theorem marked_encode_append {x : Entry} (h : p.Fits x) (rest : Bytes) :
    p.marked (p.encode x ++ rest) = (p.carried x).tag := by
  have hsplit : p.encode x ++ rest
      = BigEndian.ofUInt32 p.typeWidth.bytes x.tag
        ++ (BigEndian.digits p.lengthWidth.bytes x.payload.length
          ++ (x.payload ++ rest)) := by
    simp [encode, BigEndian.ofUInt32]
  have hlen : (BigEndian.ofUInt32 p.typeWidth.bytes x.tag).length
      = p.typeWidth.bytes := BigEndian.length_digits ..
  rw [marked, hsplit, List.take_left' hlen, carried]
  by_cases hwidth : p.typeWidth.bytes = 0
  · rw [hwidth]
    rfl
  · rw [if_neg hwidth]
    exact BigEndian.readUInt32_ofUInt32 (typeWidth_le p) (h.1 hwidth)

/-- What stands at the front of an encoding is its entry. -/
theorem front_encode_append {x : Entry} (h : p.Fits x) (rest : Bytes) :
    p.front (p.encode x ++ rest) = p.carried x := by
  have hpayload : (p.encode x ++ rest).drop p.headerLen
      = x.payload ++ rest := by
    rw [encode, List.append_assoc, List.drop_left']
    simp [headerLen]
  rw [front, marked_encode_append h, declared_encode_append h, hpayload,
    List.take_left' rfl]
  rfl

/-- A frame is whole, whatever follows. -/
theorem not_torn_encode_append {x : Entry} (h : p.Fits x) (rest : Bytes) :
    ¬ p.Torn (p.encode x ++ rest) := by
  have := length_encode p x
  rw [Torn, declared_encode_append h, List.length_append]
  omega

section Whole

variable {bytes : Bytes} (h : ¬ p.Torn bytes)
include h

/-- Bytes that are not torn reach to the end of their first frame. -/
theorem headerLen_le_of_not_torn :
    p.typeWidth.bytes + p.lengthWidth.bytes + p.declared bytes
      ≤ bytes.length := by
  unfold Torn headerLen at h
  omega

/-- The payload in front is as long as its header declares. -/
theorem length_payload_front :
    (p.front bytes).payload.length = p.declared bytes := by
  refine List.length_take_of_le ?_
  unfold Torn at h
  rw [List.length_drop]
  omega

/-- A tag that has been read is written back as the bytes it was read
from. -/
theorem digits_marked :
    BigEndian.digits p.typeWidth.bytes (p.marked bytes).toNat
      = bytes.take p.typeWidth.bytes := by
  have hwhole := headerLen_le_of_not_torn h
  have hlen : (bytes.take p.typeWidth.bytes).length = p.typeWidth.bytes :=
    List.length_take_of_le (by omega)
  have := BigEndian.digits_value (bytes.take p.typeWidth.bytes)
  rwa [hlen, ← toNat_marked] at this

/-- A length that has been read is written back as the bytes it was read
from. -/
theorem digits_declared :
    BigEndian.digits p.lengthWidth.bytes (p.declared bytes)
      = (bytes.drop p.typeWidth.bytes).take p.lengthWidth.bytes := by
  have hwhole := headerLen_le_of_not_torn h
  have hlen : ((bytes.drop p.typeWidth.bytes).take
      p.lengthWidth.bytes).length = p.lengthWidth.bytes :=
    List.length_take_of_le (by rw [List.length_drop]; omega)
  have := BigEndian.digits_value
    ((bytes.drop p.typeWidth.bytes).take p.lengthWidth.bytes)
  rwa [hlen] at this

/-- Bytes that are not torn begin with the encoding of what stands at
their front. -/
theorem encode_front_append :
    p.encode (p.front bytes) ++ bytes.drop (p.headerLen + p.declared bytes)
      = bytes := by
  have hpayload : (p.front bytes).payload
      ++ bytes.drop (p.headerLen + p.declared bytes)
      = (bytes.drop p.typeWidth.bytes).drop p.lengthWidth.bytes := by
    rw [List.drop_drop, ← headerLen, ← List.drop_drop]
    exact List.take_append_drop ..
  rw [encode, length_payload_front h, digits_declared h, List.append_assoc,
    hpayload, List.append_assoc, List.take_append_drop]
  show BigEndian.digits _ (p.marked bytes).toNat ++ _ = _
  rw [digits_marked h, List.take_append_drop]

/-- What stands at the front fits, since it was read from fields of
those widths. -/
theorem fits_front : p.Fits (p.front bytes) := by
  refine ⟨fun _ => marked_lt p bytes, ?_⟩
  rw [length_payload_front h]
  exact declared_lt p bytes

end Whole

-- =========================================================== the reader

/-- What the reader answers, by the size of what it is given. -/
theorem readFrame_eq (p : Policy) (offset : Nat) (bytes : Bytes) :
    p.readFrame offset bytes
      = if bytes.length < p.headerLen then
          .error (.truncatedHeader offset bytes.length p.headerLen)
        else if bytes.length < p.headerLen + p.declared bytes then
          .error (.truncatedPayload (offset + p.headerLen) (p.declared bytes)
            (bytes.length - p.headerLen))
        else
          .ok (p.placed offset (p.front bytes),
            bytes.drop (p.headerLen + p.declared bytes)) := by
  unfold readFrame
  rw [Bytes.split?_eq]
  by_cases hheader : bytes.length < p.headerLen
  · rw [if_neg (by omega), if_pos hheader]
  · -- the fields of the header are those of the whole bytes
    have htag : (bytes.take p.headerLen).take p.typeWidth.bytes
        = bytes.take p.typeWidth.bytes := by
      rw [List.take_take, headerLen, Nat.min_eq_left (by omega)]
    have hlength : (bytes.take p.headerLen).drop p.typeWidth.bytes
        = (bytes.drop p.typeWidth.bytes).take p.lengthWidth.bytes := by
      rw [List.drop_take, headerLen, Nat.add_sub_cancel_left]
    have hdeclared : (BigEndian.readUInt32
        ((bytes.drop p.typeWidth.bytes).take p.lengthWidth.bytes)).toNat
        = p.declared bytes := by
      refine BigEndian.toNat_readUInt32_of_le ?_
      exact Nat.le_trans (List.length_take_le _ _) (lengthWidth_le p)
    rw [if_pos (by omega), if_neg hheader]
    dsimp only
    rw [htag, hlength, hdeclared, Bytes.split?_eq, List.length_drop]
    by_cases hbody : bytes.length < p.headerLen + p.declared bytes
    · rw [if_neg (by omega), if_pos hbody]
    · rw [if_pos (by omega), if_neg hbody, List.drop_drop, placed,
        carried_front]
      rfl

/-- A payload begins where its header ends. -/
theorem offset_of_readFrame_eq_ok {offset : Nat} {bytes rest : Bytes}
    {e : Element} (h : p.readFrame offset bytes = .ok (e, rest)) :
    e.offset = offset + p.headerLen := by
  rw [readFrame_eq] at h
  split at h
  · cases h
  · split at h
    · cases h
    · cases h
      rfl

/-- From bytes that are not torn the reader takes the frame in front. -/
theorem readFrame_of_not_torn {bytes : Bytes} (h : ¬ p.Torn bytes)
    (offset : Nat) :
    p.readFrame offset bytes
      = .ok (p.placed offset (p.front bytes),
          bytes.drop (p.headerLen + p.declared bytes)) := by
  unfold Torn at h
  rw [readFrame_eq, if_neg (by omega), if_neg h]

/-- An encoding is read back, and nothing behind it is touched. -/
theorem readFrame_encode_append {x : Entry} (h : p.Fits x) (offset : Nat)
    (rest : Bytes) :
    p.readFrame offset (p.encode x ++ rest)
      = .ok (p.placed offset x, rest) := by
  rw [readFrame_of_not_torn (not_torn_encode_append h rest),
    declared_encode_append h, ← length_encode, List.drop_left,
    front_encode_append h, placed_carried]

end Policy

end Tlv
