/-
What becomes of an element that is to be written. It is judged by its
tag, its payload length and its size alone, in this order, against the
limits that the widths and the bytes left set (`Encoder.verdict`). A
refusal changes nothing, and an acceptance moves the position by exactly
the size of the element (`append_session`).

The verdict is that of the writer (`map_push`), and writing in place, cut
by cut and sum by sum, ends like the writer without a fault
(`Contents.put_contents`). What rules the faults out is that an element
is accepted only if its payload length is a word and its place lies
inside of the storage.
-/
import Tlv.Encoder.InPlace
import Tlv.Proofs.Session

namespace Tlv

namespace Checked

/-- A piece no wider than a word takes the low bytes of the word. -/
theorem copyWord_eq_ok {piece : Bytes} (h : piece.length ≤ 4)
    (v : UInt32) :
    copyWord piece v = .ok (BigEndian.ofUInt32 piece.length v) := by
  have hwide : (BigEndian.ofUInt32 4 v).length = 4 :=
    BigEndian.length_digits ..
  have hlow : (BigEndian.ofUInt32 4 v).drop (4 - piece.length)
      = BigEndian.ofUInt32 piece.length v := by
    have hdrop := BigEndian.drop_digits (4 - piece.length) piece.length
      v.toNat
    rwa [Nat.sub_add_cancel h] at hdrop
  have hsize : (BigEndian.ofUInt32 piece.length v).length = piece.length :=
    BigEndian.length_digits ..
  rw [copyWord, hwide, split_eq_ok (by rw [hwide]; exact Nat.sub_le ..),
    hlow]
  exact copy_eq_ok hsize

end Checked

namespace Encoder

variable {e : Encoder} {tag : UInt32} {payload : Bytes}

-- ========================================================= the verdict

/-- What becomes of an element with this tag and a payload of this
length. -/
def verdict (e : Encoder) (tag : UInt32) (length : Nat) :
    Except EncodeError Unit :=
  let tagWidth := e.policy.typeWidth.bytes
  let lengthWidth := e.policy.lengthWidth.bytes
  let size := e.policy.headerLen + length
  let left := e.capacity - e.actualLength
  if tagWidth ≠ 0 ∧ 256 ^ tagWidth ≤ tag.toNat then
    .error (.tagOutOfRange tag tagWidth)
  else if 256 ^ lengthWidth ≤ length then
    .error (.payloadTooLarge length lengthWidth)
  else if left < size then .error (.bufferOverflow size left)
  else .ok ()

/-- The writer refuses what the verdict says, for the same reason. -/
theorem map_push (e : Encoder) (tag : UInt32) (payload : Bytes) :
    (e.push tag payload).map (fun _ => ()) = e.verdict tag payload.length := by
  have htag : (!e.policy.fitsTag tag) = true
      ↔ e.policy.typeWidth.bytes ≠ 0
        ∧ 256 ^ e.policy.typeWidth.bytes ≤ tag.toNat := by
    rw [Bool.not_eq_true', ← Bool.not_eq_true, Policy.fitsTag_eq_true_iff]
    simp only [Classical.not_imp, Nat.not_lt]
  have hlength : e.policy.maxPayloadLen < payload.length
      ↔ 256 ^ e.policy.lengthWidth.bytes ≤ payload.length := by
    rw [← Policy.maxPayloadLen_add_one]
    exact Nat.lt_iff_add_one_le
  have hleft : e.capacity - e.actualLength = e.remaining := rfl
  unfold push verdict
  dsimp only
  rw [hleft]
  simp only [htag, hlength]
  split
  · rfl
  · split
    · rfl
    · split <;> rfl

-- ===================================================== writing in place

namespace Contents

variable {m : Contents}

/-- A place of the size of an element takes its frame. -/
theorem fill_eq_ok {place : Bytes}
    (h : place.length = m.policy.headerLen + payload.length)
    (tag : UInt32) :
    m.fill place tag (UInt32.ofNat payload.length) payload
      = .ok (m.policy.frame tag payload) := by
  -- the place falls into a piece for the tag, one for the length and one
  -- for the payload, and each is copied over by something of its own size
  have hsize : place.length
      = m.policy.typeWidth.bytes + m.policy.lengthWidth.bytes
        + payload.length := h
  have htag : (place.take m.policy.typeWidth.bytes).length
      = m.policy.typeWidth.bytes :=
    List.length_take_of_le (by omega)
  have hrest : (place.drop m.policy.typeWidth.bytes).length
      = m.policy.lengthWidth.bytes + payload.length := by
    rw [List.length_drop]
    omega
  have hlength : ((place.drop m.policy.typeWidth.bytes).take
      m.policy.lengthWidth.bytes).length = m.policy.lengthWidth.bytes :=
    List.length_take_of_le (by omega)
  have hbody : payload.length = ((place.drop m.policy.typeWidth.bytes).drop
      m.policy.lengthWidth.bytes).length := by
    rw [List.length_drop, hrest, Nat.add_sub_cancel_left]
  have htagWord := Checked.copyWord_eq_ok
    (Nat.le_trans (Nat.le_of_eq htag) (Policy.typeWidth_le m.policy)) tag
  have hlengthWord := Checked.copyWord_eq_ok
    (Nat.le_trans (Nat.le_of_eq hlength) (Policy.lengthWidth_le m.policy))
    (UInt32.ofNat payload.length)
  rw [htag] at htagWord
  rw [hlength] at hlengthWord
  rw [fill, Checked.split_eq_ok (by omega)]
  dsimp only [bind, Except.bind]
  rw [Checked.split_eq_ok (by omega)]
  dsimp only
  rw [htagWord, hlengthWord, Checked.copy_eq_ok hbody]
  rfl

/-- An element that has room is written over what was in its place. -/
theorem append_eq_ok
    (hroom : m.position + (m.policy.headerLen + payload.length)
      ≤ m.storage.length)
    (hlimit : m.storage.length < Checked.sizeLimit) (tag : UInt32) :
    m.append (m.policy.headerLen + payload.length) tag
        (UInt32.ofNat payload.length) payload
      = .ok { m with
        storage := m.storage.overwrite m.position
          (m.policy.frame tag payload)
        position := m.position
          + (m.policy.headerLen + payload.length) } := by
  have hrest : (m.storage.drop m.position).length
      = m.storage.length - m.position := List.length_drop
  have hplace : ((m.storage.drop m.position).take
      (m.policy.headerLen + payload.length)).length
      = m.policy.headerLen + payload.length :=
    List.length_take_of_le (by omega)
  -- every sum and every cut is within the storage
  rw [append, Checked.add_eq_ok (by omega)]
  dsimp only [bind, Except.bind]
  rw [Checked.split_eq_ok (by omega)]
  dsimp only
  rw [Checked.sub_eq_ok (by omega), Nat.add_sub_cancel_left]
  dsimp only
  rw [Checked.split_eq_ok (by omega)]
  dsimp only
  rw [fill_eq_ok hplace, Bytes.overwrite, Policy.length_frame,
    List.drop_drop]
  rfl

end Contents

/-- Writing in place ends like the writer, without a fault. -/
theorem put_contents (h : e.capacity < Checked.sizeLimit) (tag : UInt32)
    (payload : Bytes) :
    e.contents.put tag payload
      = .ok (match e.push tag payload with
        | .ok e' => (e'.contents, .ok ())
        | .error cause => (e.contents, .error cause)) := by
  have hleft : e.storage.length - e.position = e.remaining := rfl
  have hposition := e.position_le
  unfold Contents.put push
  dsimp only
  rw [policy_contents, storage_contents, position_contents]
  by_cases htag : (!e.policy.fitsTag tag) = true
  case pos =>
    rw [if_pos htag, if_pos htag]
    rfl
  rw [if_neg htag, if_neg htag]
  by_cases hlength : e.policy.maxPayloadLen < payload.length
  case pos =>
    rw [if_pos hlength, if_pos hlength]
    rfl
  rw [if_neg hlength, if_neg hlength]
  -- what passes both limits has a length that is a word
  have hfits : e.policy.Fits { tag, payload } :=
    Policy.fits_iff.2 ⟨by simpa using htag, Nat.le_of_not_lt hlength⟩
  have hword := hfits.length_lt_word
  have hheader : e.policy.headerLen ≤ 8 :=
    Nat.add_le_add (Policy.typeWidth_le _) (Policy.lengthWidth_le _)
  have hsum : e.policy.headerLen + payload.length < Checked.sizeLimit := by
    unfold Checked.sizeLimit UInt64.size
    dsimp only at hword
    omega
  rw [Checked.word_eq_ok hword, Checked.sub_eq_ok hposition,
    Checked.addCapped_eq hsum, hleft]
  dsimp only [bind, Except.bind]
  by_cases hroom : e.remaining < e.policy.headerLen + payload.length
  case pos =>
    rw [if_pos hroom, dif_pos hroom]
    rfl
  rw [if_neg hroom, dif_neg hroom]
  -- and what has room besides ends inside of the storage
  have hend : e.contents.position
      + (e.contents.policy.headerLen + payload.length)
        ≤ e.contents.storage.length := by
    rw [policy_contents, storage_contents, position_contents]
    omega
  have hwritten := Contents.append_eq_ok hend h tag
  rw [policy_contents] at hwritten
  rw [hwritten]
  rfl

-- ============================================================ one write

/-- A call that writes does what the writer does, and leaves the encoder
as it was if that is refused. -/
theorem answer_perform_push (e : Encoder) (tag : UInt32) (value : Value) :
    (e.perform (.push tag value)).answer
      = match e.push tag value.payload with
        | .ok e' => (e', .ok ())
        | .error cause => (e, .error (.encode cause)) := by
  rw [perform]
  cases e.push tag value.payload <;> rfl

/-- A session ends with the storage it began with, as far as its size
goes. -/
theorem capacity_session (policy : Policy) (start : Start)
    (calls : List Call) :
    (session policy start calls).answer.1.capacity
      = start.storage.length := by
  rw [answer_session, capacity_run]
  rfl

/-- In every state that a session reaches, an element of any kind is
judged by its tag, then by the length of its payload, then by the bytes
left. If it is accepted the position moves by its size; if it is refused
nothing changes, neither in front of the position nor behind it. In place
this is done without a fault: no sum is beyond the largest size, every
cut falls inside of what is cut, every copy is between pieces of one
size, and the payload length is a word. -/
theorem append_session (policy : Policy) (start : Start)
    (calls : List Call) (tag : UInt32) (value : Value) :
    let e := (session policy start calls).answer.1
    let payload := value.payload
    let r := (e.perform (.push tag value)).answer
    let outcome := e.verdict tag payload.length
    r.2 = outcome.mapError .encode
      ∧ (outcome = .ok () →
          r.1.actualLength
              = e.actualLength + (e.policy.headerLen + payload.length)
            ∧ r.1.policy = e.policy ∧ r.1.capacity = e.capacity)
      ∧ (∀ cause, outcome = .error cause → r.1 = e)
      ∧ (start.storage.length < Checked.sizeLimit →
          e.contents.put tag payload = .ok (r.1.contents, outcome)) := by
  intro e payload r outcome
  have houtcome : (e.push tag payload).map (fun _ => ()) = outcome :=
    map_push e tag payload
  have hr : r = match e.push tag payload with
      | .ok e' => (e', .ok ())
      | .error cause => (e, .error (.encode cause)) :=
    answer_perform_push e tag value
  have hput (hlimit : start.storage.length < Checked.sizeLimit) :
      e.contents.put tag payload
        = .ok (match e.push tag payload with
          | .ok e' => (e'.contents, .ok ())
          | .error cause => (e.contents, .error cause)) := by
    rw [← capacity_session policy start calls] at hlimit
    exact put_contents hlimit tag payload
  -- the verdict, the answer and the checked computation all follow the push
  cases hpush : e.push tag payload with
  | ok e' =>
      rw [hpush] at houtcome hr hput
      have hok : outcome = .ok () := houtcome.symm
      obtain ⟨-, -, hpolicy, hposition, -⟩ :=
        of_push_eq_ok (x := { tag, payload }) hpush
      rw [Policy.length_encode] at hposition
      rw [hr, hok]
      refine ⟨rfl, fun _ => ⟨hposition, hpolicy, ?_⟩, ?_, hput⟩
      · exact capacity_of_push_eq_ok (x := { tag, payload }) hpush
      · intro cause hcause
        cases hcause
  | error cause =>
      rw [hpush] at houtcome hr hput
      have herror : outcome = .error cause := houtcome.symm
      rw [hr, herror]
      refine ⟨rfl, ?_, fun _ _ => rfl, hput⟩
      intro hok
      cases hok

/-- Six bytes that held others, of which an element and a refused tag
have left three: one byte too many for the next element, and then the
last that fits. -/
theorem append_session_up_to_last_byte :
    let start : Start := .wrap [9, 9, 9, 9, 9, 9]
    let calls : List Call := [.push 1 (.byte 170), .push 256 .empty]
    let e := (session default start calls).answer.1
    let full : Contents :=
      { policy := default, storage := [1, 1, 170, 3, 1, 187], position := 6 }
    start.storage.length < Checked.sizeLimit
      ∧ e.verdict 2 2 = .error (.bufferOverflow 4 3)
      ∧ (e.perform (.push 2 (.bytes [1, 2]))).answer.1 = e
      ∧ e.contents.put 2 [1, 2]
        = .ok (e.contents, .error (.bufferOverflow 4 3))
      ∧ e.verdict 3 1 = .ok ()
      ∧ (e.perform (.push 3 (.byte 187))).answer.1.actualLength = 6
      ∧ e.contents.put 3 [187] = .ok (full, .ok ()) := by
  intro start calls e full
  have hlimit : start.storage.length < Checked.sizeLimit := by decide
  have hlong : e.verdict 2 2 = .error (.bufferOverflow 4 3) := by
    decide +kernel
  have hfits : e.verdict 3 1 = .ok () := by decide +kernel
  have hposition : e.actualLength = 3 := by decide +kernel
  have hfull : (e.perform (.push 3 (.byte 187))).answer.1.contents
      = full := by decide +kernel
  obtain ⟨-, -, hrefused, hput⟩ :=
    append_session default start calls 2 (.bytes [1, 2])
  obtain ⟨-, haccepted, -, hput'⟩ :=
    append_session default start calls 3 (.byte 187)
  have hsame := hrefused _ hlong
  have hput := hput hlimit
  have hput' := hput' hlimit
  refine ⟨hlimit, hlong, hsame, ?_, hfits, ?_, ?_⟩
  · rw [hsame] at hput
    exact hput.trans (by rw [← hlong]; rfl)
  · rw [(haccepted hfits).1]
    show e.actualLength + 3 = 6
    rw [hposition]
  · rw [← hfull, ← hfits]
    exact hput'

end Encoder

end Tlv
