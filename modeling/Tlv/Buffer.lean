/-
Finished buffers: storage of which a first part has been filled with
elements. There is no way back to filling it. What lies behind that part
means nothing and is kept only because the storage is one piece.
-/
import Tlv.View

namespace Tlv

/-- Storage filled up to `actualLength`. -/
structure Buffer where
  policy : Policy
  storage : Bytes
  actualLength : Nat
  actualLength_le : actualLength ≤ storage.length
  deriving DecidableEq

namespace Buffer

/-- The size of the storage, written or not. -/
def capacity (b : Buffer) : Nat :=
  b.storage.length

/-- The filled part. -/
def bytes (b : Buffer) : Bytes :=
  b.storage.take b.actualLength

/-- The filled part, to be read under the policy it was written with. -/
def view (b : Buffer) : View :=
  { policy := b.policy, bytes := b.bytes }

end Buffer

end Tlv
