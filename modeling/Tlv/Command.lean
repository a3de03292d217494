/-
The two commands. One writes fields into a buffer and shows its bytes in
hexadecimal; the other reads hexadecimal and shows one line for each
element. Either answers its whole output or the first thing that went
wrong, and the policy is judged before anything else.
-/
import Tlv.Encoder
import Tlv.Field
import Tlv.Text.Blank

namespace Tlv

/-- What to do. -/
inductive Command where
  /-- Write these fields into a buffer of this size. -/
  | encode (capacity : Nat) (fields : List Field)
  /-- Read the elements of this buffer. -/
  | decode (buffer : String)
  deriving DecidableEq, Repr

/-- A command and the widths to use. -/
structure Invocation where
  typeWidth : Int
  lengthWidth : Int
  command : Command
  deriving DecidableEq, Repr

/-- Why a command has no output. -/
inductive Failure where
  | codec (cause : Error)
  | hex (fault : Hex.Fault)
  /-- The value of this field is not a number of its kind. -/
  | value (field : Field) (fault : Decimal.Fault)
  deriving DecidableEq, Repr

/-- What is said of a failure. An error of the codec speaks for itself. -/
def Failure.message : Failure → String
  | codec cause => cause.message
  | hex fault => "invalid hex input: " ++ fault.message
  | value field fault => "invalid value for `" ++ field.render ++ "`: " ++ fault.message

-- ============================================================= writing

namespace Field

/-- The number that the value of a field denotes. The field is part of the
failure if it denotes none. -/
def number (f : Field) (range : Decimal.Range) : Except Failure Int :=
  (Decimal.read range f.value).mapError (.value f)

/-- What the element of a field is to carry. -/
def toValue (f : Field) : Except Failure Value :=
  match f.kind with
  | .byte => (f.number .uint8).map fun n => .byte (UInt8.ofNat n.toNat)
  | .short => (f.number .int16).map fun n => .short (Int16.ofInt n)
  | .int => (f.number .int32).map fun n => .int (Int32.ofInt n)
  | .bytes => ((Hex.decode f.value).mapError .hex).map .bytes
  | .string => .ok (.text f.value)
  | .empty => .ok .empty

end Field

namespace Command

/-- Writes one field behind the others. -/
def pushField (e : Encoder) (f : Field) : Except Failure Encoder := do
  let value ← f.toValue
  (e.push f.tag value.payload).mapError fun cause => .codec (.encode cause)

/-- Writes fields one behind the other, up to the first that fails. -/
def pushFields (e : Encoder) : List Field → Except Failure Encoder
  | [] => .ok e
  | f :: fields => do
    let e' ← pushField e f
    pushFields e' fields

/-- The bytes of these fields in hexadecimal. The records are those of the
codec alone: the command's own note of how many bytes it has written
(`encoded fields`, at the level of debugging) is left out. -/
def runEncode (policy : Policy) (capacity : Nat) (fields : List Field) :
    Logged (Except Failure String) := do
  let e ← Encoder.allocate policy capacity
  return (pushFields e fields).map fun e' => Hex.encode e'.bytes

-- ============================================================= reading

/-- The line that shows an element: tag, length and payload. -/
def line (e : Element) : String :=
  let tag := e.tag.toNat
  let length := e.length
  s!"type={tag} length={length} payload=" ++ Hex.encode e.payload

/-- The lines of the elements left, behind `lines`, newest first. Stops
at the error and answers it instead. -/
def linesFrom (lines : List String) (c : Cursor) :
    Logged (Except DecodeError (List String)) :=
  match h : c.step with
  | none => pure (.ok lines.reverse)
  | some (item, c') => do
    have := Cursor.bound_lt_of_step_eq_some h
    item.warn
    match item with
    | .ok e => linesFrom (line e :: lines) c'
    | .error error => return .error error
termination_by c.bound

/-- The elements of a buffer written in hexadecimal, a line each. Blanks
around the text do not matter. -/
def runDecode (policy : Policy) (buffer : String) : Logged (Except Failure String) :=
  match Hex.decode (Blank.trim buffer) with
  | .error fault => return .error (.hex fault)
  | .ok bytes =>
    match View.ofBuffer policy bytes bytes.length with
    | .error cause => return .error (.codec (.decode cause))
    | .ok v => do
      match ← linesFrom [] v.start with
      | .ok lines => return .ok ("\n".intercalate lines)
      | .error cause => return .error (.codec (.decode cause))

end Command

-- ============================================================= running

/-- The widths are judged before the command is looked at. -/
def Invocation.run (i : Invocation) : Logged (Except Failure String) :=
  match Policy.ofWidths i.typeWidth i.lengthWidth with
  | .error cause => return .error (.codec (.policy cause))
  | .ok policy =>
    match i.command with
    | .encode capacity fields => Command.runEncode policy capacity fields
    | .decode buffer => Command.runDecode policy buffer

end Tlv
