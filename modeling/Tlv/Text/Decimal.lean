/-
Integers written in decimal. A reader is given the range of numbers it
may answer and names the first fault it meets from the left: at each
character, one that is no digit comes before a number that has grown out
of the range. A plus sign is always allowed, a minus sign only if the
range has negative numbers, and leading zeros do not matter.
-/
namespace Tlv.Decimal

/-- Why a text is not a number of the range asked for. -/
inductive Fault where
  | empty
  | invalidDigit
  | tooLarge
  | tooSmall
  deriving DecidableEq, Repr

def Fault.message : Fault → String
  | empty => "cannot parse integer from empty string"
  | invalidDigit => "invalid digit found in string"
  | tooLarge => "number too large to fit in target type"
  | tooSmall => "number too small to fit in target type"

/-- The integers from `least` to `greatest`. -/
structure Range where
  least : Int
  greatest : Int
  deriving DecidableEq, Repr

namespace Range

def uint8 : Range := ⟨0, 255⟩
def int16 : Range := ⟨-32768, 32767⟩
def int32 : Range := ⟨-2147483648, 2147483647⟩
def uint32 : Range := ⟨0, 4294967295⟩
def int64 : Range := ⟨-9223372036854775808, 9223372036854775807⟩
def uint64 : Range := ⟨0, 18446744073709551615⟩

end Range

/-- The value of an ASCII digit. -/
def digit? (c : Char) : Option Nat :=
  if '0' ≤ c ∧ c ≤ '9' then some (c.toNat - '0'.toNat) else none

/-- Reads on after digits with the value `n`. A value above `bound` is
the fault `beyond`. -/
def readDigits (bound : Nat) (beyond : Fault) (n : Nat) : List Char → Except Fault Nat
  | [] => .ok n
  | c :: cs =>
    match digit? c with
    | none => .error .invalidDigit
    | some d =>
      if 10 * n + d ≤ bound then readDigits bound beyond (10 * n + d) cs
      else .error beyond

/-- Reads digits, of which there has to be one. -/
def readMagnitude (bound : Nat) (beyond : Fault) (cs : List Char) : Except Fault Nat :=
  if cs.isEmpty then .error .invalidDigit else readDigits bound beyond 0 cs

/-- Reads digits as a number that is not negative. -/
def readPositive (range : Range) (cs : List Char) : Except Fault Int :=
  (readMagnitude range.greatest.toNat .tooLarge cs).map Int.ofNat

/-- Reads digits as a number behind a minus sign. -/
def readNegative (range : Range) (cs : List Char) : Except Fault Int :=
  (readMagnitude (-range.least).toNat .tooSmall cs).map fun n => -Int.ofNat n

/-- The number of the range that the text denotes. -/
def read (range : Range) (text : String) : Except Fault Int :=
  match text.toList with
  | [] => .error .empty
  | '+' :: cs => readPositive range cs
  | '-' :: cs =>
    if range.least < 0 then readNegative range cs else .error .invalidDigit
  | cs => readPositive range cs

end Tlv.Decimal
