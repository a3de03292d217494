/-
A byte shown as a quoted character in a message. The byte stands for the
character of the same number; a few characters have an escape of their
own, other characters that leave no mark on paper are written by number,
and the rest stand for themselves.
-/
namespace Tlv.Quoted

/-- Whether the character of this number, below 256, leaves a mark on
paper: no control, no soft hyphen, and the space as the only blank. -/
def isPrintable (n : Nat) : Bool :=
  (0x20 ≤ n && n ≤ 0x7e) || (0xa1 ≤ n && n ≤ 0xff && n != 0xad)

/-- What stands between the quotes. -/
def escape (b : UInt8) : String :=
  let n := b.toNat
  let c := Char.ofNat n
  if c = '\x00' then "\\0"
  else if c = '\t' then "\\t"
  else if c = '\n' then "\\n"
  else if c = '\r' then "\\r"
  else if c = '\'' then "\\'"
  else if c = '\\' then "\\\\"
  else if isPrintable n then c.toString
  else "\\u\x7b" ++ String.ofList (Nat.toDigits 16 n) ++ "\x7d"

/-- A byte, quoted as the character with its number. -/
def byte (b : UInt8) : String :=
  "'" ++ escape b ++ "'"

end Tlv.Quoted
