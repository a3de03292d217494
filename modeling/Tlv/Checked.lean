/-
Sizes, places and pieces of storage as words and memory have them. A
size is a word of 64 bits, a piece lies inside of the bytes it is a
piece of, and one piece is copied over another of the same size. Where
that fails there is no result but a fault, also where a program would
have a branch of its own for it. So a computation that ends without a
fault has never needed such a branch, and all its sums are exact.

Each operation has one lemma that says when there is no fault, and what
the result is then.
-/
import Tlv.BigEndian

namespace Tlv

/-- What has no result. -/
inductive Checked.Fault where
  /-- A sum that is no size. -/
  | overflow
  /-- A difference below zero. -/
  | underflow
  /-- A piece that reaches beyond the end. -/
  | outside
  /-- A copy between pieces of different sizes. -/
  | unequalSizes
  /-- A number that is no word of 32 bits. -/
  | noWord
  | zeroDivisor
  deriving DecidableEq, Repr

/-- What a computation answers that may break off in a fault. -/
abbrev Checked (α : Type) := Except Checked.Fault α

namespace Checked

-- ============================================================== sizes

/-- Sizes are the numbers below this. -/
def sizeLimit : Nat := UInt64.size

/-- A sum that has to be a size. -/
def add (a b : Nat) : Checked Nat :=
  if a + b < sizeLimit then .ok (a + b) else .error .overflow

/-- The sum, or the largest size if the sum is none. -/
def addCapped (a b : Nat) : Nat :=
  min (a + b) (sizeLimit - 1)

/-- A difference that must not be negative. -/
def sub (a b : Nat) : Checked Nat :=
  if b ≤ a then .ok (a - b) else .error .underflow

/-- The quotient, rounded up. -/
def divUp (a b : Nat) : Checked Nat :=
  if b = 0 then .error .zeroDivisor
  else if a % b = 0 then .ok (a / b)
  else .ok (a / b + 1)

/-- A size as a 32-bit word, if it is one. -/
def word (n : Nat) : Checked UInt32 :=
  if n < UInt32.size then .ok (UInt32.ofNat n) else .error .noWord

variable {a b n : Nat}

theorem add_eq_ok (h : a + b < sizeLimit) : add a b = .ok (a + b) :=
  if_pos h

theorem addCapped_eq (h : a + b < sizeLimit) : addCapped a b = a + b :=
  Nat.min_eq_left (Nat.le_pred_of_lt h)

theorem sub_eq_ok (h : b ≤ a) : sub a b = .ok (a - b) :=
  if_pos h

theorem word_eq_ok (h : n < UInt32.size) : word n = .ok (UInt32.ofNat n) :=
  if_pos h

-- ============================================================= pieces

variable {bytes piece source : Bytes}

/-- The first `n` bytes and the others. -/
def split (bytes : Bytes) (n : Nat) : Checked (Bytes × Bytes) :=
  match bytes.split? n with
  | some parts => .ok parts
  | none => .error .outside

/-- What is in a piece once `source` has been copied over it. -/
def copy (piece source : Bytes) : Checked Bytes :=
  if source.length = piece.length then .ok source else .error .unequalSizes

/-- What is in a piece once the low bytes of a word have been copied over
it. -/
def copyWord (piece : Bytes) (v : UInt32) : Checked Bytes := do
  let wide := BigEndian.ofUInt32 4 v
  let (_, low) ← split wide (wide.length - piece.length)
  copy piece low

theorem split_eq_ok (h : n ≤ bytes.length) :
    split bytes n = .ok (bytes.take n, bytes.drop n) := by
  rw [split, Bytes.split?_eq, if_pos h]

theorem copy_eq_ok (h : source.length = piece.length) :
    copy piece source = .ok source :=
  if_pos h

end Checked

end Tlv
