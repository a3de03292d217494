/-
Fields: elements as they are written on a command line, as a kind, a tag
and a value with colons between them. The value ends the text, so it may
hold colons of its own; an empty value may be left out together with its
colon, and is left out when a field is shown.

A text that is no field is judged by its kind, then by its tag, then by
its value.
-/
import Tlv.Text.Cut
import Tlv.Text.Decimal
import Tlv.Text.Hex
import Tlv.Value

namespace Tlv

-- ============================================================== kinds

/-- How the value of a field is to be read. -/
inductive FieldKind where
  | byte
  | short
  | int
  /-- Bytes in hexadecimal. -/
  | bytes
  | string
  | empty
  deriving DecidableEq, Repr

namespace FieldKind

/-- The kinds in the order in which they are looked up. -/
def all : List FieldKind :=
  [byte, short, int, bytes, string, empty]

/-- The one name of a kind, in small letters. -/
def name : FieldKind → String
  | byte => "byte"
  | short => "short"
  | int => "int"
  | bytes => "bytes"
  | string => "string"
  | empty => "empty"

/-- The kind with this name. The case of ASCII letters does not
matter. -/
def ofName? (name : List Char) : Option FieldKind :=
  all.find? fun kind => kind.name.toList = name.map Char.toLower

end FieldKind

-- ============================================================= fields

/-- An element to be written, with its value still as a text. -/
structure Field where
  kind : FieldKind
  tag : UInt32
  value : String
  deriving DecidableEq, Repr

/-- Why a text is no field. -/
inductive FieldError where
  | unknownKind (name : String)
  | missingTag (text : String)
  | invalidTag (text : String) (fault : Decimal.Fault)
  /-- A field of the empty kind has a value. -/
  | unexpectedValue (text : String)
  deriving DecidableEq, Repr

/-- What is said of a text that is no field. -/
def FieldError.message : FieldError → String
  | unknownKind name => "invalid variant: " ++ name
  | missingTag text => "missing tag in `" ++ text ++ "`"
  | invalidTag text fault => "invalid tag in `" ++ text ++ "`: " ++ fault.message
  | unexpectedValue text => "empty field `" ++ text ++ "` must not carry a value"

namespace Field

/-- The field that a text spells. The first two colons divide it, and
further ones belong to the value. -/
def parse (text : String) : Except FieldError Field :=
  let (kindText, behindKind) := cut ':' text.toList
  match FieldKind.ofName? kindText, behindKind with
  | none, _ => .error (.unknownKind (String.ofList kindText))
  | some _, none => .error (.missingTag text)
  | some kind, some rest =>
    let (tagText, behindTag) := cut ':' rest
    match Decimal.read .uint32 (String.ofList tagText) with
    | .error fault => .error (.invalidTag text fault)
    | .ok tag =>
      let value := String.ofList (behindTag.getD [])
      if kind = .empty ∧ value ≠ "" then .error (.unexpectedValue text)
      else .ok { kind, tag := UInt32.ofNat tag.toNat, value }

/-- The text of a field. An empty value is left out, and its colon with
it. -/
def render (f : Field) : String :=
  let kind := f.kind.name
  let tag := f.tag.toNat
  let value := if f.value.isEmpty then "" else ":" ++ f.value
  s!"{kind}:{tag}" ++ value

end Field

end Tlv
