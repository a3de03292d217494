/-
Desks: several named cursors over one view. A name stands for a new
traversal when it is first used, whatever it is used for. Moving one
cursor moves no other, and looking at the view moves none.
-/
import Tlv.View

namespace Tlv

/-- A view and the cursors that have been named so far. -/
structure Desk where
  view : View
  cursors : List (String × Cursor)
  deriving Repr

namespace Desk

/-- One thing to do at a desk. -/
inductive Step where
  | next
  /-- Skip this many items and move by one more. -/
  | nth (n : Nat)
  /-- Where the cursor's next header begins. -/
  | offset
  /-- How many items the cursor can still yield. -/
  | sizeHint
  | count
  | collect
  | restart
  /-- Give a copy of the cursor this name. -/
  | clone (name : String)
  | items
  | isValid
  | elements
  | render
  | view
  deriving DecidableEq, Repr

/-- What a step answers. -/
inductive Answer where
  | item (item? : Option Item)
  | offset (n : Nat)
  /-- The least and the greatest number of items to come. -/
  | sizeHint (least greatest : Nat)
  | count (n : Nat)
  | items (items : List Item)
  | restarted
  | cloned
  | isValid (valid : Bool)
  | elements (elements : Except DecodeError (List Element))
  | render (text : String)
  | view (view : View)

/-- A desk without cursors. -/
def ofView (view : View) : Desk :=
  { view, cursors := [] }

/-- The cursor of this name; a name not seen before stands at the
start. -/
def cursor (d : Desk) (name : String) : Cursor :=
  (d.cursors.lookup name).getD d.view.start

/-- Puts a cursor down under this name. -/
def set (d : Desk) (name : String) (c : Cursor) : Desk :=
  { d with cursors := (name, c) :: d.cursors.filter fun entry => entry.1 != name }

/-- Does one thing, with the cursor of this name if it needs one. -/
def perform (d : Desk) (name : String) : Step → Logged (Answer × Desk)
  | .next => do
    let (item?, c) ← (d.cursor name).next
    return (.item item?, d.set name c)
  | .nth n => do
    let (item?, c) ← (d.cursor name).nth n
    return (.item item?, d.set name c)
  | .offset => return (.offset (d.cursor name).offset, d)
  | .sizeHint => return (.sizeHint 0 (d.cursor name).bound, d)
  | .count => do
    let (n, c) ← (d.cursor name).count
    return (.count n, d.set name c)
  | .collect => do
    let (items, c) ← (d.cursor name).collect
    return (.items items, d.set name c)
  | .restart => return (.restarted, d.set name d.view.start)
  | .clone other => return (.cloned, d.set other (d.cursor name))
  | .items => do return (.items (← d.view.items), d)
  | .isValid => do return (.isValid (← d.view.isValid), d)
  | .elements => do return (.elements (← d.view.elements), d)
  | .render => do return (.render (← d.view.render), d)
  | .view => return (.view d.view, d)

/-- Performs steps one after the other and answers them in their order. -/
def run (d : Desk) : List (String × Step) → Logged (List Answer × Desk)
  | [] => return ([], d)
  | (name, step) :: steps => do
    let (answer, d') ← d.perform name step
    let (answers, d'') ← d'.run steps
    return (answer :: answers, d'')

end Desk

end Tlv
