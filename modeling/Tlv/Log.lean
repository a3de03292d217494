/-
The log: what the codec tells a reader of logs while it works. A logged
computation only ever adds records at the end (`run_note` is the one
step that does), so its records are the same whatever was there before.
Nor does its answer depend on them (`Steady`).
-/
import Tlv.Error

namespace Tlv

/-- One line of the log. -/
inductive Record where
  | allocating (capacity : Nat) (policy : Policy)
  | wrapping (capacity : Nat) (policy : Policy)
  | freezing (actualLength capacity : Nat)
  | stopped (error : DecodeError)
  deriving DecidableEq, Repr

/-- The text of a record, with its level in front. -/
def Record.render : Record → String
  | allocating capacity policy =>
    let shown := policy.render
    s!"DEBUG allocating TLV buffer: capacity={capacity}, policy={shown}"
  | wrapping capacity policy =>
    let shown := policy.render
    s!"DEBUG wrapping TLV buffer: capacity={capacity}, policy={shown}"
  | freezing actualLength capacity =>
    s!"DEBUG freezing TLV buffer: actual_length={actualLength}, capacity={capacity}"
  | stopped error =>
    let shown := error.message
    s!"WARN TLV decode stopped: error={shown}"

/-- A computation that writes to the log. -/
abbrev Logged (α : Type) := StateM (Array Record) α

namespace Logged

/-- Adds one record to the log. -/
def note (record : Record) : Logged Unit :=
  modify (·.push record)

/-- The answer of a computation. -/
def answer {α : Type} (x : Logged α) : α :=
  (x.run #[]).1

/-- The records of a computation, oldest first. -/
def records {α : Type} (x : Logged α) : List Record :=
  (x.run #[]).2.toList

/-- What comes second reads on in the log of what came first. -/
theorem run_bind {α β : Type} (x : Logged α) (f : α → Logged β)
    (log : Array Record) :
    (x >>= f).run log = (f (x.run log).1).run (x.run log).2 := rfl

-- ============================================================= answers

/-- A computation that answers the same whatever is in the log. -/
def Steady {α : Type} (x : Logged α) : Prop :=
  ∀ log, (x.run log).1 = x.answer

theorem steady_pure {α : Type} (a : α) : Steady (pure a) :=
  fun _ => rfl

/-- Steady parts make a steady whole. -/
theorem Steady.bind {α β : Type} {x : Logged α} {f : α → Logged β}
    (hx : Steady x) (hf : ∀ a, Steady (f a)) : Steady (x >>= f) := by
  intro log
  show ((f (x.run log).1).run (x.run log).2).1
    = ((f (x.run #[]).1).run (x.run #[]).2).1
  rw [hx log, hf, hf]
  rfl

/-- The answer of two computations in a row is that of the second, begun
with the answer of the first. -/
theorem answer_bind {α β : Type} {x : Logged α} {f : α → Logged β}
    (hf : ∀ a, Steady (f a)) : (x >>= f).answer = (f x.answer).answer :=
  hf _ _

end Logged

end Tlv
