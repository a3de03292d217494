/-
UTF-8: the bytes of a text, and two readers of arbitrary bytes.

The strict reader (`decode`) takes one character at a time off the front
and stops at the first place where it cannot, with the index of that
place. It tells two faults apart: bytes that no continuation could turn
into a character, reported with their number, and bytes that merely
break off too early.

The lossy reader (`lossy`) never stops. It takes one byte at a time,
keeping what it still expects, and writes U+FFFD once for each run of
bytes that begins like a character and does not become one: the longest
run that some character starts with, or a single byte if none does.

Both rest on the same table of lead bytes (`Expect.ofLead?`), which is
where overlong forms, surrogates and numbers above U+10FFFF are ruled
out.
-/
import Tlv.Bytes

namespace Tlv.Utf8

/-- The bytes of a text, character by character. -/
def encode (text : String) : Bytes :=
  text.toUTF8.data.toList

-- ========================================== the inside of a character

/-- What has to follow once part of a character has been read. -/
structure Expect where
  low : UInt8
  high : UInt8
  /-- How many bytes have to come after that one. -/
  more : Nat
  /-- The bits of the character read so far. -/
  bits : Nat
  deriving DecidableEq, Repr

namespace Expect

/-- What follows the first byte of a character of two to four bytes.
The narrower ranges after E0, ED, F0 and F4 rule out overlong forms,
surrogates and numbers above U+10FFFF. -/
def ofLead? (b : UInt8) : Option Expect :=
  if 0xC2 ≤ b ∧ b ≤ 0xDF then some ⟨0x80, 0xBF, 0, b.toNat % 32⟩
  else if b = 0xE0 then some ⟨0xA0, 0xBF, 1, b.toNat % 16⟩
  else if b = 0xED then some ⟨0x80, 0x9F, 1, b.toNat % 16⟩
  else if 0xE1 ≤ b ∧ b ≤ 0xEF then some ⟨0x80, 0xBF, 1, b.toNat % 16⟩
  else if b = 0xF0 then some ⟨0x90, 0xBF, 2, b.toNat % 8⟩
  else if 0xF1 ≤ b ∧ b ≤ 0xF3 then some ⟨0x80, 0xBF, 2, b.toNat % 8⟩
  else if b = 0xF4 then some ⟨0x80, 0x8F, 2, b.toNat % 8⟩
  else none

/-- Whether the byte is one of those that may come next. -/
def accepts (e : Expect) (b : UInt8) : Bool :=
  e.low ≤ b && b ≤ e.high

/-- The bits once this byte has come. -/
def bitsWith (e : Expect) (b : UInt8) : Nat :=
  64 * e.bits + b.toNat % 64

end Expect

-- ====================================================== strict reading

/-- Why bytes are not the UTF-8 form of any text. -/
inductive Malformed where
  /-- The `length` bytes at `index` do not begin any character, while all
  but the last of the bytes there do or there is only one. -/
  | invalid (index length : Nat)
  /-- The bytes from `index` to the end begin a character and do not
  complete it. -/
  | incomplete (index : Nat)
  deriving DecidableEq, Repr

/-- What is said of bytes that are no text, with the place where they
cease to be. -/
def Malformed.message : Malformed → String
  | invalid index length =>
    s!"invalid utf-8 sequence of {length} bytes from index {index}"
  | incomplete index =>
    s!"incomplete utf-8 byte sequence from index {index}"

/-- What stands at the front of some bytes. -/
inductive Front where
  /-- A whole character of `size` bytes. -/
  | scalar (c : Char) (size : Nat) (rest : Bytes)
  /-- This many bytes that lead to no character. -/
  | invalid (length : Nat)
  | incomplete

/-- Completes a character of which `size` bytes have been read. -/
def frontAfter (e : Expect) (size : Nat) : Bytes → Front
  | [] => .incomplete
  | b :: rest =>
    if e.accepts b then
      match e.more with
      | 0 => .scalar (Char.ofNat (e.bitsWith b)) (size + 1) rest
      | more + 1 => frontAfter ⟨0x80, 0xBF, more, e.bitsWith b⟩ (size + 1) rest
    else .invalid size

/-- What stands at the front of `b :: rest`. -/
def front (b : UInt8) (rest : Bytes) : Front :=
  if b < 0x80 then .scalar (Char.ofNat b.toNat) 1 rest
  else
    match Expect.ofLead? b with
    | some e => frontAfter e 1 rest
    | none => .invalid 1

/-- A character takes up at least one byte of what is left. -/
theorem length_of_frontAfter_eq_scalar {e : Expect} {size n : Nat} {bytes rest : Bytes}
    {c : Char} (h : frontAfter e size bytes = .scalar c n rest) :
    rest.length < bytes.length := by
  induction bytes generalizing e size with
  | nil => cases h
  | cons b bytes ih =>
    rw [frontAfter] at h
    split at h
    · split at h
      · cases h
        simp
      · have := ih h
        simp only [List.length_cons]
        omega
    · cases h

/-- A character taken off the front leaves fewer bytes. -/
theorem length_of_front_eq_scalar {b : UInt8} {n : Nat} {bytes rest : Bytes} {c : Char}
    (h : front b bytes = .scalar c n rest) : rest.length < (b :: bytes).length := by
  rw [front] at h
  split at h
  · cases h
    simp
  · split at h
    · have := length_of_frontAfter_eq_scalar h
      simp only [List.length_cons]
      omega
    · cases h

/-- Reads on after the first `index` bytes, which held the characters
`read`, newest first. -/
def decodeFrom (index : Nat) (read : List Char) : Bytes → Except Malformed String
  | [] => .ok (String.ofList read.reverse)
  | b :: bytes =>
    match h : front b bytes with
    | .scalar c size rest =>
      have := length_of_front_eq_scalar h
      decodeFrom (index + size) (c :: read) rest
    | .invalid length => .error (.invalid index length)
    | .incomplete => .error (.incomplete index)
termination_by bytes => bytes.length
decreasing_by exact this

/-- The text that the bytes are, if they are well-formed from end to
end. -/
def decode (bytes : Bytes) : Except Malformed String :=
  decodeFrom 0 [] bytes

-- ======================================================= lossy reading

/-- What stands for bytes that are no character. -/
def replacement : Char := '\uFFFD'

/-- A reader in the middle of some bytes. -/
structure Reader where
  /-- What the next byte has to be, inside a character. -/
  expect? : Option Expect
  /-- The characters so far, newest first. -/
  read : List Char

namespace Reader

/-- Takes a byte where a character begins. -/
def begin (read : List Char) (b : UInt8) : Reader :=
  if b < 0x80 then ⟨none, Char.ofNat b.toNat :: read⟩
  else
    match Expect.ofLead? b with
    | some e => ⟨some e, read⟩
    | none => ⟨none, replacement :: read⟩

/-- Takes a byte. One that does not continue the character at hand
begins the next one. -/
def push (r : Reader) (b : UInt8) : Reader :=
  match r.expect? with
  | none => begin r.read b
  | some e =>
    if e.accepts b then
      match e.more with
      | 0 => ⟨none, Char.ofNat (e.bitsWith b) :: r.read⟩
      | more + 1 => ⟨some ⟨0x80, 0xBF, more, e.bitsWith b⟩, r.read⟩
    else begin (replacement :: r.read) b

/-- The characters read once no byte is left. -/
def finish (r : Reader) : List Char :=
  match r.expect? with
  | none => r.read.reverse
  | some _ => (replacement :: r.read).reverse

end Reader

/-- The text with these bytes, as far as there is one: each maximal run
that leads to no character is replaced by U+FFFD. -/
def lossy (bytes : Bytes) : String :=
  String.ofList (bytes.foldl Reader.push ⟨none, []⟩).finish

end Tlv.Utf8
