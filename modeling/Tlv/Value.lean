/-
Values: what a caller may put into an element, and the payload each of
them becomes. A number takes exactly the bytes of its type, big-endian
and in two's complement; a text takes its UTF-8 bytes.
-/
import Tlv.BigEndian
import Tlv.Text.Utf8

namespace Tlv

/-- What an element is to carry. -/
inductive Value where
  | byte (value : UInt8)
  | short (value : Int16)
  | int (value : Int32)
  | bytes (value : Bytes)
  | text (value : String)
  /-- Nothing: the element is its header. -/
  | empty
  deriving DecidableEq, Repr

/-- The bytes that a value is written with. Numbers are big-endian and of
the size of their kind. -/
def Value.payload : Value → Bytes
  | byte value => [value]
  | short value => BigEndian.ofInt16 value
  | int value => BigEndian.ofInt32 value
  | bytes value => value
  | text value => Utf8.encode value
  | empty => []

end Tlv
