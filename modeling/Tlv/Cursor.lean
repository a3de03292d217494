/-
Cursors: one traversal of a buffer, an item at a time.

A cursor ends cleanly only when it stands exactly at the end of its
bytes. If it cannot read a frame where it stands it yields the error,
stays where it is and is spent: from then on it yields nothing. So a
traversal has at most one error, and nothing comes after it.

`bound` says how many items can still come. It drops with every step
(`bound_lt_of_step_eq_some`), which is why every traversal ends.
-/
import Tlv.Frame

namespace Tlv

/-- A place in a traversal. -/
structure Cursor where
  policy : Policy
  /-- Where the next header begins in the buffer. -/
  offset : Nat
  /-- The bytes from there on. -/
  rest : Bytes
  /-- Whether an error has been yielded. -/
  failed : Bool
  deriving DecidableEq, Repr

namespace Cursor

-- ============================================================ one step

/-- The next item and the cursor behind it. -/
def step (c : Cursor) : Option (Item × Cursor) :=
  if c.failed || c.rest.isEmpty then none
  else
    match c.policy.readFrame c.offset c.rest with
    | .ok (e, rest) => some (.ok e, { c with offset := e.finish, rest })
    | .error error => some (.error error, { c with failed := true })

/-- The most items that can still come: as many as the bytes left have
room for headers. -/
def bound (c : Cursor) : Nat :=
  if c.failed then 0
  else (c.rest.length + c.policy.headerLen - 1) / c.policy.headerLen

/-- Every step makes the bound smaller, so that a traversal ends. -/
theorem bound_lt_of_step_eq_some {c c' : Cursor} {item : Item}
    (h : c.step = some (item, c')) : c'.bound < c.bound := by
  have hpos := c.policy.headerLen_pos
  unfold step at h
  split at h
  · cases h
  · next hc =>
    obtain ⟨hfailed, hrest⟩ : c.failed = false ∧ c.rest ≠ [] := by simpa using hc
    have hlen : 0 < c.rest.length := List.length_pos_iff.2 hrest
    split at h
    · next e rest hread =>
      cases h
      have := Policy.length_of_readFrame_eq_ok hread
      simp only [bound, hfailed, Bool.false_eq_true, if_false]
      calc (rest.length + c.policy.headerLen - 1) / c.policy.headerLen
          < (rest.length + c.policy.headerLen - 1) / c.policy.headerLen + 1 := by omega
        _ = (rest.length + c.policy.headerLen - 1 + c.policy.headerLen)
              / c.policy.headerLen := (Nat.add_div_right _ hpos).symm
        _ ≤ (c.rest.length + c.policy.headerLen - 1) / c.policy.headerLen :=
            Nat.div_le_div_right (by omega)
    · cases h
      simp only [bound, hfailed, Bool.false_eq_true, if_false, if_true]
      exact Nat.div_pos (by omega) hpos

-- ===================================================== logged movement

/-- Moves by one item. Meeting the error is logged. -/
def next (c : Cursor) : Logged (Option Item × Cursor) :=
  match c.step with
  | none => pure (none, c)
  | some (item, c') => do
    item.warn
    return (some item, c')

/-- Skips `n` items and moves by one more; stops early at the end. -/
def nth (c : Cursor) : Nat → Logged (Option Item × Cursor)
  | 0 => c.next
  | n + 1 => do
    match ← c.next with
    | (none, c') => return (none, c')
    | (some _, c') => c'.nth n

/-- Moves to the end, adding the number of items to `n`. -/
def countFrom (n : Nat) (c : Cursor) : Logged (Nat × Cursor) :=
  match h : c.step with
  | none => pure (n, c)
  | some (item, c') => do
    have := bound_lt_of_step_eq_some h
    item.warn
    countFrom (n + 1) c'
termination_by c.bound

/-- The number of items left, and the cursor behind them. An error is an
item. -/
def count (c : Cursor) : Logged (Nat × Cursor) :=
  c.countFrom 0

/-- Moves to the end, adding the items to `items`, newest first. -/
def collectFrom (items : List Item) (c : Cursor) : Logged (List Item × Cursor) :=
  match h : c.step with
  | none => pure (items.reverse, c)
  | some (item, c') => do
    have := bound_lt_of_step_eq_some h
    item.warn
    collectFrom (item :: items) c'
termination_by c.bound

/-- The items left, and the cursor behind them. -/
def collect (c : Cursor) : Logged (List Item × Cursor) :=
  c.collectFrom []

-- ======================================== traversals with their own end

/-- Whether only elements are left. Stops at the error. -/
def allElements (c : Cursor) : Logged Bool :=
  match h : c.step with
  | none => pure true
  | some (item, c') => do
    have := bound_lt_of_step_eq_some h
    item.warn
    match item with
    | .ok _ => c'.allElements
    | .error _ => return false
termination_by c.bound

/-- The elements left, behind `elements`, newest first. Stops at the
error and answers it instead. -/
def elementsFrom (elements : List Element) (c : Cursor) :
    Logged (Except DecodeError (List Element)) :=
  match h : c.step with
  | none => pure (.ok elements.reverse)
  | some (item, c') => do
    have := bound_lt_of_step_eq_some h
    item.warn
    match item with
    | .ok e => elementsFrom (e :: elements) c'
    | .error error => return .error error
termination_by c.bound

/-- The items left as text behind `text`, each with `separator` before
it. The separator is a comma from the second item on. -/
def renderFrom (text separator : String) (c : Cursor) : Logged String :=
  match h : c.step with
  | none => pure text
  | some (item, c') => do
    have := bound_lt_of_step_eq_some h
    item.warn
    renderFrom (text ++ separator ++ item.render) "," c'
termination_by c.bound

end Cursor

end Tlv
