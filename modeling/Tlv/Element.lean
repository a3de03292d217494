/-
Elements: a tag and a payload, with the place where the payload was
found, and the typed readings of a payload.

A number is read only from a payload of exactly its size, so of `byte`,
`short` and `int` at most one succeeds. Text is read strictly or, with
replacements, always.
-/
import Tlv.BigEndian
import Tlv.Error
import Tlv.Log
import Tlv.Text.Hex

namespace Tlv

/-- One element read from a buffer. -/
structure Element where
  /-- The type tag; zero if headers carry none. -/
  tag : UInt32
  /-- Where the payload begins in the buffer. -/
  offset : Nat
  payload : Bytes
  deriving DecidableEq, Repr

namespace Element

/-- The size of the payload. -/
def length (e : Element) : Nat :=
  e.payload.length

/-- Where the payload ends in the buffer, and the next header begins. -/
def finish (e : Element) : Nat :=
  e.offset + e.length

-- ====================================================== typed readings

/-- The payload, if it is of exactly this size. -/
def fixed (width : Nat) (e : Element) :
    Except AccessError { payload : Bytes // payload.length = width } :=
  if h : e.payload.length = width then .ok ⟨e.payload, h⟩
  else .error (.payloadWidthMismatch width e.length)

/-- The payload as one byte. -/
def byte (e : Element) : Except AccessError UInt8 :=
  (e.fixed 1).map fun | ⟨[b], _⟩ => b

/-- The payload as a 16-bit integer. -/
def short (e : Element) : Except AccessError Int16 :=
  (e.fixed 2).map fun payload => BigEndian.readInt16 payload.val

/-- The payload as a 32-bit integer. -/
def int (e : Element) : Except AccessError Int32 :=
  (e.fixed 4).map fun payload => BigEndian.readInt32 payload.val

/-- The payload as text, if it is well-formed. -/
def text (e : Element) : Except AccessError String :=
  (Utf8.decode e.payload).mapError .invalidUtf8

/-- The payload as text, with U+FFFD where it is none. -/
def lossyText (e : Element) : String :=
  Utf8.lossy e.payload

-- ============================================================= showing

/-- Tag and length, then the payload in hexadecimal unless it is
empty. -/
def render (e : Element) : String :=
  let tag := e.tag.toNat
  let length := e.length
  let payload := if e.payload.isEmpty then "" else " 0x" ++ Hex.encode e.payload
  s!"(T={tag},L={length})" ++ payload

end Element

/-- What a traversal yields: an element or the error that ends it. -/
abbrev Item := Except DecodeError Element

namespace Item

/-- An error stands in angle brackets. -/
def render : Item → String
  | .ok e => e.render
  | .error error => "<" ++ error.message ++ ">"

/-- Warns of an error; says nothing about an element. -/
def warn : Item → Logged Unit
  | .ok _ => pure ()
  | .error error => Logged.note (.stopped error)

end Item

end Tlv
