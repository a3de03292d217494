/-
The field-width policy: how many bytes each element header spends on its
type tag and on its payload length. The policy is not stored with the
bytes, so writer and reader have to agree on it beforehand.

A header is the tag followed by the length, both big-endian. The tag may
be left out altogether; the length may not, since an element has to
declare its own size. That is why a header is never empty
(`headerLen_pos`), and why a traversal always makes progress.
-/
namespace Tlv

/-- Which part of a header a width belongs to. -/
inductive WidthField where
  | type
  | length
  deriving DecidableEq, Repr

/-- The word for a header part in messages. -/
def WidthField.render : WidthField → String
  | .type => "type"
  | .length => "length"

/-- A width that no policy may have. -/
structure InvalidWidth where
  /-- The header part the width was meant for. -/
  field : WidthField
  /-- The width asked for. -/
  width : Int
  deriving DecidableEq, Repr

-- ========================================================= type width

/-- How many bytes hold the type tag. -/
inductive TypeWidth where
  | absent
  | one
  | two
  | four
  deriving DecidableEq, Repr

namespace TypeWidth

instance : Inhabited TypeWidth := ⟨.one⟩

/-- How many bytes a tag takes up. -/
def bytes : TypeWidth → Nat
  | absent => 0
  | one => 1
  | two => 2
  | four => 4

/-- The name of the width. -/
def render : TypeWidth → String
  | absent => "Absent"
  | one => "One"
  | two => "Two"
  | four => "Four"

/-- The type width of `width` bytes: 0, 1, 2 and 4 are the legal ones. -/
def ofInt (width : Int) : Except InvalidWidth TypeWidth :=
  if width = 0 then .ok absent
  else if width = 1 then .ok one
  else if width = 2 then .ok two
  else if width = 4 then .ok four
  else .error { field := .type, width }

/-- The largest tag that fits, if tags are written at all. -/
def maxTag : TypeWidth → Option Nat
  | absent => none
  | one => some 0xff
  | two => some 0xffff
  | four => some 0xffffffff

end TypeWidth

-- ======================================================= length width

/-- How many bytes hold the payload length. -/
inductive LengthWidth where
  | one
  | two
  | four
  deriving DecidableEq, Repr

namespace LengthWidth

instance : Inhabited LengthWidth := ⟨.one⟩

/-- How many bytes a length takes up. -/
def bytes : LengthWidth → Nat
  | one => 1
  | two => 2
  | four => 4

/-- The name of the width. -/
def render : LengthWidth → String
  | one => "One"
  | two => "Two"
  | four => "Four"

/-- The length width of `width` bytes: 1, 2 and 4 are the legal ones. -/
def ofInt (width : Int) : Except InvalidWidth LengthWidth :=
  if width = 1 then .ok one
  else if width = 2 then .ok two
  else if width = 4 then .ok four
  else .error { field := .length, width }

/-- The largest payload length that can be declared. -/
def maxPayloadLen : LengthWidth → Nat
  | one => 0xff
  | two => 0xffff
  | four => 0xffffffff

/-- There always is a length. -/
theorem bytes_pos (w : LengthWidth) : 0 < w.bytes := by
  cases w <;> decide

end LengthWidth

-- ============================================================= policy

/-- The two widths of every header in a buffer. -/
structure Policy where
  typeWidth : TypeWidth
  lengthWidth : LengthWidth
  deriving DecidableEq, Repr

namespace Policy

/-- One byte each. -/
instance : Inhabited Policy := ⟨⟨.one, .one⟩⟩

/-- The policy with these widths in bytes. The type width is judged
first. -/
def ofWidths (typeWidth lengthWidth : Int) : Except InvalidWidth Policy := do
  return ⟨← TypeWidth.ofInt typeWidth, ← LengthWidth.ofInt lengthWidth⟩

/-- Bytes in front of every payload. -/
def headerLen (p : Policy) : Nat :=
  p.typeWidth.bytes + p.lengthWidth.bytes

/-- The largest tag that fits, if tags are written at all. -/
def maxTag (p : Policy) : Option Nat :=
  p.typeWidth.maxTag

/-- Whether headers have room for this tag. Without room for any tag
they take every one, and drop it. -/
def fitsTag (p : Policy) (tag : UInt32) : Bool :=
  p.maxTag.all fun greatest => tag.toNat ≤ greatest

/-- The largest payload length that can be declared. -/
def maxPayloadLen (p : Policy) : Nat :=
  p.lengthWidth.maxPayloadLen

/-- The policy as log records show it. -/
def render (p : Policy) : String :=
  let typeWidth := p.typeWidth.render
  let lengthWidth := p.lengthWidth.render
  s!"FieldWidthPolicy \x7b type_width: {typeWidth}, length_width: {lengthWidth} \x7d"

/-- No header is empty, so that reading one always gets on. -/
theorem headerLen_pos (p : Policy) : 0 < p.headerLen := by
  have := p.lengthWidth.bytes_pos
  unfold headerLen
  omega

end Policy

end Tlv
