/-
Steps that may fail. A step made of others has an outcome if each of
them has one, and then it is what they make of it; otherwise it fails as
the first of them does that has none. By these laws a run is taken apart
and put together, whether it has succeeded or not.
-/
namespace Tlv

variable {ε ε' α β : Type}

/-- What is made of an answer is an answer if there was one. -/
theorem map_eq_ok_iff {x : Except ε α} {f : α → β} {b : β} :
    x.map f = .ok b ↔ ∃ a, x = .ok a ∧ f a = b := by
  cases x <;> simp [Except.map]

/-- Putting an error differently makes no answer. -/
theorem mapError_eq_ok_iff {x : Except ε α} {f : ε → ε'} {a : α} :
    x.mapError f = .ok a ↔ x = .ok a := by
  cases x with
  | error error =>
      constructor
      · intro h
        cases h
      · intro h
        cases h
  | ok a' =>
      constructor
      · intro h
        cases h
        rfl
      · intro h
        cases h
        rfl

/-- A sequence has an answer if its first part has one and the second has
one to that. -/
theorem bind_eq_ok_iff {x : Except ε α} {f : α → Except ε β} {b : β} :
    (x >>= f) = .ok b ↔ ∃ a, x = .ok a ∧ f a = .ok b := by
  cases x <;> simp [bind, Except.bind]

/-- What is made of an answer fails as the answer did. -/
theorem map_eq_error_iff {x : Except ε α} {f : α → β} {error : ε} :
    x.map f = .error error ↔ x = .error error := by
  cases x <;> simp [Except.map]

/-- An error that is put differently comes from one that was not. -/
theorem mapError_eq_error_iff {x : Except ε α} {f : ε → ε'} {error' : ε'} :
    x.mapError f = .error error'
      ↔ ∃ error, x = .error error ∧ f error = error' := by
  cases x with
  | error error =>
      constructor
      · intro h
        cases h
        exact ⟨error, rfl, rfl⟩
      · intro ⟨_, h, hf⟩
        cases h
        rw [← hf]
        rfl
  | ok a =>
      constructor
      · intro h
        cases h
      · intro ⟨_, h, _⟩
        cases h

/-- A sequence fails in its first part or, behind an answer of that, in
the second. -/
theorem bind_eq_error_iff {x : Except ε α} {f : α → Except ε β} {error : ε} :
    (x >>= f) = .error error
      ↔ x = .error error ∨ ∃ a, x = .ok a ∧ f a = .error error := by
  cases x <;> simp [bind, Except.bind]

end Tlv
