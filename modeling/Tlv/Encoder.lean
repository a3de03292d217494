/-
Encoders: elements written one behind the other into storage of a fixed
size. An element is written whole or not at all. The storage may come
from the caller and hold anything; its bytes from the position on are
left as they were.

A refused element is judged by its tag first, then by its payload
length, then by the room that is left.
-/
import Tlv.Buffer
import Tlv.Value

namespace Tlv

/-- Storage being filled. -/
structure Encoder where
  policy : Policy
  storage : Bytes
  /-- Where the next element goes. -/
  position : Nat
  position_le : position ≤ storage.length

namespace Encoder

-- ============================================================ the state

/-- The size of the storage. -/
def capacity (e : Encoder) : Nat :=
  e.storage.length

/-- How much has been written. -/
def actualLength (e : Encoder) : Nat :=
  e.position

/-- How much room is left. -/
def remaining (e : Encoder) : Nat :=
  e.capacity - e.position

/-- What has been written. -/
def bytes (e : Encoder) : Bytes :=
  e.storage.take e.position

-- ======================================================= beginning, end

/-- An encoder at the start of this storage. -/
def ofStorage (policy : Policy) (storage : Bytes) : Encoder :=
  { policy, storage, position := 0, position_le := Nat.zero_le _ }

/-- An encoder over fresh storage, all zero. Storage of any size can be
had here. That no more than `2 ^ 63 - 1` bytes can be had in fact, and that
the program breaks off where more are asked for, before it looks at any
element, is left out. -/
def allocate (policy : Policy) (capacity : Nat) : Logged Encoder := do
  Logged.note (.allocating capacity policy)
  return ofStorage policy (List.replicate capacity 0)

/-- An encoder over storage of the caller's. -/
def wrap (policy : Policy) (storage : Bytes) : Logged Encoder := do
  Logged.note (.wrapping storage.length policy)
  return ofStorage policy storage

/-- The storage as it is, with what has been written in front. -/
def freeze (e : Encoder) : Logged Buffer := do
  Logged.note (.freezing e.actualLength e.capacity)
  return {
    policy := e.policy
    storage := e.storage
    actualLength := e.position
    actualLength_le := e.position_le }

-- ============================================================== writing

/-- Writes one element behind the others. -/
def push (e : Encoder) (tag : UInt32) (payload : Bytes) : Except EncodeError Encoder :=
  let needed := e.policy.headerLen + payload.length
  if !e.policy.fitsTag tag then
    .error (.tagOutOfRange tag e.policy.typeWidth.bytes)
  else if e.policy.maxPayloadLen < payload.length then
    .error (.payloadTooLarge payload.length e.policy.lengthWidth.bytes)
  else if h : e.remaining < needed then
    .error (.bufferOverflow needed e.remaining)
  else
    .ok {
      policy := e.policy
      storage := e.storage.overwrite e.position (e.policy.frame tag payload)
      position := e.position + needed
      position_le := by
        have := e.position_le
        have hroom : e.position + needed ≤ e.storage.length := by
          simp only [remaining, capacity] at h
          omega
        rw [Bytes.length_overwrite (by simpa [needed] using hroom)]
        exact hroom }

end Encoder

end Tlv
