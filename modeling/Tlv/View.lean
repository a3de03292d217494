/-
Views: bytes to be read as elements under a policy. A view keeps no
place of its own, so that every traversal starts at its first byte. The
ways of going through a view differ in what they make of an error:
`items` yields it, `isValid` and `elements` stop at it, and `render`
shows it.
-/
import Tlv.Cursor

namespace Tlv

/-- Bytes to be read under a policy. -/
structure View where
  policy : Policy
  bytes : Bytes
  deriving DecidableEq, Repr

namespace View

/-- The first `length` bytes of a buffer. -/
def ofBuffer (policy : Policy) (buffer : Bytes) (length : Nat) :
    Except DecodeError View :=
  match buffer.split? length with
  | none => .error (.invalidLength length buffer.length)
  | some (bytes, _) => .ok { policy, bytes }

/-- The number of bytes to read. -/
def actualLength (v : View) : Nat :=
  v.bytes.length

/-- A cursor before the first header. -/
def start (v : View) : Cursor :=
  { policy := v.policy, offset := 0, rest := v.bytes, failed := false }

/-- Everything a traversal yields. -/
def items (v : View) : Logged (List Item) := do
  let (items, _) ← v.start.collect
  return items

/-- Whether the bytes are a sequence of elements. -/
def isValid (v : View) : Logged Bool :=
  v.start.allElements

/-- The elements, or the error that ends them. -/
def elements (v : View) : Logged (Except DecodeError (List Element)) :=
  v.start.elementsFrom []

/-- The items in brackets, with commas between them. -/
def render (v : View) : Logged String := do
  let text ← v.start.renderFrom "[" ""
  return text ++ "]"

end View

end Tlv
