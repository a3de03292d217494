/-
Writing in place. The storage is cut where the element goes, its place
is cut into the three fields of a frame, and each field is copied over,
with every size and every piece checked. Nothing promises here that the
position lies inside of the storage or that a number fits its field: if
one did not, there would be a fault. Refused elements leave behind what
was there before them, since no byte is touched until nothing can be
refused any more.
-/
import Tlv.Checked
import Tlv.Encoder

namespace Tlv.Encoder

/-- What an encoder holds, without the promise that comes with it. -/
structure Contents where
  policy : Policy
  storage : Bytes
  position : Nat
  deriving DecidableEq, Repr

/-- An encoder without the proof that its position is within the
storage. -/
def contents (e : Encoder) : Contents :=
  { policy := e.policy, storage := e.storage, position := e.position }

@[simp]
theorem policy_contents (e : Encoder) : e.contents.policy = e.policy := rfl

@[simp]
theorem storage_contents (e : Encoder) : e.contents.storage = e.storage := rfl

@[simp]
theorem position_contents (e : Encoder) :
    e.contents.position = e.position := rfl

namespace Contents

/-- What is in the place of an element once it has been written there. -/
def fill (m : Contents) (place : Bytes) (tag declared : UInt32)
    (payload : Bytes) : Checked Bytes := do
  let (tagField, rest) ← Checked.split place m.policy.typeWidth.bytes
  let (lengthField, body) ← Checked.split rest m.policy.lengthWidth.bytes
  let tagField ← Checked.copyWord tagField tag
  let lengthField ← Checked.copyWord lengthField declared
  let body ← Checked.copy body payload
  return tagField ++ lengthField ++ body

/-- Writes an element of this size where the others end. -/
def append (m : Contents) (size : Nat) (tag declared : UInt32)
    (payload : Bytes) : Checked Contents := do
  let finish ← Checked.add m.position size
  let (front, rest) ← Checked.split m.storage m.position
  let length ← Checked.sub finish m.position
  let (place, behind) ← Checked.split rest length
  let frame ← m.fill place tag declared payload
  return { m with
    storage := front ++ frame ++ behind
    position := finish }

/-- Judges an element and writes it if it is not refused: what is held
then, and what became of it. -/
def put (m : Contents) (tag : UInt32) (payload : Bytes) :
    Checked (Contents × Except EncodeError Unit) :=
  if !m.policy.fitsTag tag then
    return (m, .error (.tagOutOfRange tag m.policy.typeWidth.bytes))
  else if m.policy.maxPayloadLen < payload.length then
    return (m, .error
      (.payloadTooLarge payload.length m.policy.lengthWidth.bytes))
  else do
    let declared ← Checked.word payload.length
    let remaining ← Checked.sub m.storage.length m.position
    let needed := Checked.addCapped m.policy.headerLen payload.length
    if remaining < needed then
      return (m, .error (.bufferOverflow needed remaining))
    else do
      let m' ← m.append needed tag declared payload
      return (m', .ok ())

end Contents

end Tlv.Encoder
