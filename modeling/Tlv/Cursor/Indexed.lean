/-
Cursors as places in a buffer that is kept whole. The bytes left are cut
out of the buffer anew with every step, and every place is computed with
checked sums, so that a place beyond the end or beyond the largest size
would be a fault.
-/
import Tlv.Checked
import Tlv.Cursor

namespace Tlv

/-- A buffer and a place in it. -/
structure IndexedCursor where
  policy : Policy
  bytes : Bytes
  /-- Where the next header begins. -/
  offset : Nat
  /-- Whether an error has been yielded. -/
  failed : Bool
  deriving DecidableEq, Repr

namespace IndexedCursor

/-- The next item and the cursor behind it. -/
def step (c : IndexedCursor) : Checked (Option (Item × IndexedCursor)) :=
  if c.failed || c.offset == c.bytes.length then return none
  else do
    let (_, rest) ← Checked.split c.bytes c.offset
    match rest.split? c.policy.headerLen with
    | none =>
      return some
        (.error (.truncatedHeader c.offset rest.length c.policy.headerLen),
          { c with failed := true })
    | some (header, body) => do
      let (tagField, lengthField) ←
        Checked.split header c.policy.typeWidth.bytes
      let tag := BigEndian.readUInt32 tagField
      let declared := (BigEndian.readUInt32 lengthField).toNat
      let start ← Checked.add c.offset c.policy.headerLen
      match body.split? declared with
      | none =>
        return some (.error (.truncatedPayload start declared body.length),
          { c with failed := true })
      | some (payload, _) => do
        let finish ← Checked.add start declared
        return some (.ok { tag, offset := start, payload },
          { c with offset := finish })

/-- The most items that can still come. -/
def bound (c : IndexedCursor) : Checked Nat :=
  if c.failed then return 0
  else do
    let left ← Checked.sub c.bytes.length c.offset
    Checked.divUp left c.policy.headerLen

end IndexedCursor

/-- The cursor as a place in this buffer. -/
def Cursor.indexed (c : Cursor) (bytes : Bytes) : IndexedCursor :=
  { policy := c.policy, bytes, offset := c.offset, failed := c.failed }

end Tlv
