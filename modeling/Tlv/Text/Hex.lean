/-
Hexadecimal text. Bytes are written as two lowercase digits each; both
cases are read. A reader first asks for an even number of digits and
then reports the leftmost character that is no digit.

The reader works on the bytes of a text, so that a character of several
bytes counts as several and is reported by its first byte.
-/
import Tlv.Bytes
import Tlv.Text.Quoted
import Tlv.Text.Utf8

namespace Tlv.Hex

-- ============================================================= writing

/-- The two digits of a byte, high half first. -/
def digits (b : UInt8) : List Char :=
  [Nat.digitChar (b.toNat / 16), Nat.digitChar (b.toNat % 16)]

/-- Two hexadecimal digits for every byte, in small letters. -/
def encode (bytes : Bytes) : String :=
  String.ofList (bytes.flatMap digits)

-- ============================================================= reading

/-- Why a text is not the hexadecimal form of any bytes. -/
inductive Fault where
  | oddLength
  | invalidCharacter (byte : UInt8) (index : Nat)
  deriving DecidableEq, Repr

def Fault.message : Fault → String
  | oddLength => "Odd number of digits"
  | invalidCharacter byte index =>
    let character := Quoted.byte byte
    s!"Invalid character {character} at position {index}"

/-- The value of an ASCII digit of either case. -/
def value? (b : UInt8) : Option Nat :=
  let n := b.toNat
  if 0x30 ≤ n ∧ n ≤ 0x39 then some (n - 0x30)
  else if 0x61 ≤ n ∧ n ≤ 0x66 then some (n - 0x61 + 10)
  else if 0x41 ≤ n ∧ n ≤ 0x46 then some (n - 0x41 + 10)
  else none

/-- Reads on after `index` digits, which held the bytes `read`, newest
first. -/
def decodeFrom (index : Nat) (read : Bytes) : Bytes → Except Fault Bytes
  | high :: low :: rest =>
    match value? high, value? low with
    | some h, some l => decodeFrom (index + 2) (UInt8.ofNat (16 * h + l) :: read) rest
    | some _, none => .error (.invalidCharacter low (index + 1))
    | none, _ => .error (.invalidCharacter high index)
  | _ => .ok read.reverse

/-- The bytes that a text spells, in letters of either case. An odd number
of characters is blamed before any of them is looked at. -/
def decode (text : String) : Except Fault Bytes :=
  let bytes := Utf8.encode text
  if bytes.length % 2 = 0 then decodeFrom 0 [] bytes else .error .oddLength

end Tlv.Hex
