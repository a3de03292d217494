/-
Byte strings and the two things the codec does to them without looking
inside: cutting off a piece of an exact size, and writing a piece over
part of a larger one. Both are all-or-nothing in what they promise: a
cut fails on a byte string that is too short (`split?_eq`), and an
overwrite never changes the size of what it writes into
(`length_overwrite`).
-/
namespace Tlv

/-- Bytes in the order in which they stand. -/
abbrev Bytes := List UInt8

namespace Bytes

-- ============================================================ cutting

/-- Moves bytes from the front of `rest` to `front`, which is held
backwards, until `n` have moved; fails if `rest` ends first. -/
def splitFrom? (front : Bytes) : Nat → Bytes → Option (Bytes × Bytes)
  | 0, rest => some (front.reverse, rest)
  | _ + 1, [] => none
  | n + 1, b :: rest => splitFrom? (b :: front) n rest

/-- The first `n` bytes and the others, if there are `n`. One pass over
those `n` bytes, whatever the size of the rest. -/
def split? (bytes : Bytes) (n : Nat) : Option (Bytes × Bytes) :=
  splitFrom? [] n bytes

theorem splitFrom?_eq (front rest : Bytes) (n : Nat) :
    splitFrom? front n rest
      = if n ≤ rest.length then some (front.reverse ++ rest.take n, rest.drop n)
        else none := by
  induction n generalizing front rest with
  | zero => simp [splitFrom?]
  | succ n ih =>
    cases rest with
    | nil => simp [splitFrom?]
    | cons b rest => simp [splitFrom?, ih]

/-- A cut is made by `take` and `drop`, where there is enough to cut. -/
theorem split?_eq (bytes : Bytes) (n : Nat) :
    bytes.split? n
      = if n ≤ bytes.length then some (bytes.take n, bytes.drop n) else none := by
  simp [split?, splitFrom?_eq]

/-- A cut loses nothing and its first part has the size asked for. -/
theorem split?_eq_some_iff {bytes front rest : Bytes} {n : Nat} :
    bytes.split? n = some (front, rest) ↔ bytes = front ++ rest ∧ front.length = n := by
  rw [split?_eq]
  constructor
  · intro h
    split at h
    · next hn =>
      obtain ⟨rfl, rfl⟩ : bytes.take n = front ∧ bytes.drop n = rest := by simpa using h
      exact ⟨(List.take_append_drop n bytes).symm, List.length_take_of_le hn⟩
    · cases h
  · rintro ⟨rfl, rfl⟩
    simp

-- ======================================================== overwriting

/-- `bytes` with `piece` written over it from `position` on. -/
def overwrite (bytes : Bytes) (position : Nat) (piece : Bytes) : Bytes :=
  bytes.take position ++ piece ++ bytes.drop (position + piece.length)

/-- A piece that ends within the bytes leaves their number as it was. -/
theorem length_overwrite {bytes piece : Bytes} {position : Nat}
    (h : position + piece.length ≤ bytes.length) :
    (bytes.overwrite position piece).length = bytes.length := by
  simp only [overwrite, List.length_append, List.length_take, List.length_drop]
  omega

end Bytes

end Tlv
