/-
What can go wrong, by the stage at which it does: a policy is asked for
with a width that does not exist, an element does not fit where it is to
be written, bytes are not a sequence of elements, or a payload is not
what its reader takes it for. Each cause carries the numbers its message
needs, and no operation that fails leaves anything half done.
-/
import Tlv.Policy
import Tlv.Text.Utf8

namespace Tlv

def InvalidWidth.message (e : InvalidWidth) : String :=
  let field := e.field.render
  let width := e.width
  s!"invalid {field} field width: {width}"

/-- Why an element was not written. -/
inductive EncodeError where
  /-- Header and payload need more bytes than are left. -/
  | bufferOverflow (needed remaining : Nat)
  /-- The tag needs more bytes than headers give it. -/
  | tagOutOfRange (tag : UInt32) (width : Nat)
  /-- The payload length needs more bytes than headers give it. -/
  | payloadTooLarge (length width : Nat)
  deriving DecidableEq, Repr

def EncodeError.message : EncodeError → String
  | bufferOverflow needed remaining =>
    s!"buffer overflow: element needs {needed} bytes, {remaining} remaining"
  | tagOutOfRange tag width =>
    let number := tag.toNat
    s!"type tag {number} does not fit in {width} byte(s)"
  | payloadTooLarge length width =>
    s!"payload of {length} bytes does not fit a {width}-byte length field"

/-- Why bytes were not read as elements. -/
inductive DecodeError where
  /-- More bytes are to be read than the buffer holds. -/
  | invalidLength (length capacity : Nat)
  /-- Bytes are left at `offset`, but too few for a header. -/
  | truncatedHeader (offset available need : Nat)
  /-- The payload at `offset` is declared longer than what is left. -/
  | truncatedPayload (offset declared available : Nat)
  deriving DecidableEq, Repr

/-- What is said of bytes that are no elements, with the place where they
cease to be. -/
def DecodeError.message : DecodeError → String
  | invalidLength length capacity =>
    s!"actual length {length} exceeds buffer capacity {capacity}"
  | truncatedHeader offset available need =>
    s!"truncated header at offset {offset}: have {available}, need {need}"
  | truncatedPayload offset declared available =>
    s!"truncated payload at offset {offset}: declared {declared}, have {available}"

/-- Why a payload was not read as the value asked for. -/
inductive AccessError where
  /-- The value takes exactly `expected` bytes. -/
  | payloadWidthMismatch (expected actual : Nat)
  | invalidUtf8 (fault : Utf8.Malformed)
  deriving DecidableEq, Repr

def AccessError.message : AccessError → String
  | payloadWidthMismatch expected actual =>
    s!"payload width mismatch: expected {expected} bytes, element has {actual}"
  | invalidUtf8 fault => "payload is not valid UTF-8: " ++ fault.message

/-- Any error of the codec, by what was being done. -/
inductive Error where
  | policy (cause : InvalidWidth)
  | encode (cause : EncodeError)
  | decode (cause : DecodeError)
  | access (cause : AccessError)
  deriving DecidableEq, Repr

namespace Error

/-- What was being done. -/
def category : Error → String
  | policy _ => "policy"
  | encode _ => "encode"
  | decode _ => "decode"
  | access _ => "access"

/-- The text of the cause alone. -/
def causeMessage : Error → String
  | policy cause => cause.message
  | encode cause => cause.message
  | decode cause => cause.message
  | access cause => cause.message

/-- The full text, which names the stage except for a policy. -/
def message : Error → String
  | policy cause => cause.message
  | encode cause => "encode error: " ++ cause.message
  | decode cause => "decode error: " ++ cause.message
  | access cause => "access error: " ++ cause.message

/-- Whether the bytes are to blame, and not an argument of the caller. -/
def isMalformedInput : Error → Bool
  | decode (.truncatedHeader ..) => true
  | decode (.truncatedPayload ..) => true
  | access (.invalidUtf8 _) => true
  | _ => false

end Error

end Tlv
