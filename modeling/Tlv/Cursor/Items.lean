/-
What a cursor still has before it, as a list. Every movement of a cursor
and every traversal of a view is a function of that list: `next` takes
its head, `count` its length, `allElements` looks for an error in it, and
so on. Each of them leaves in the log one record for every error it
meets, and since an error is the last item of its list
(`toList_of_step_eq_error`), a traversal that stops at the error meets no
less than one that goes on.
-/
import Tlv.Cursor

namespace Tlv

-- ======================================================== what is logged

/-- The records that meeting an item leaves in the log. -/
def Item.records : Item → List Record
  | .ok _ => []
  | .error error => [.stopped error]

/-- Warning of an item and then going on is going on behind its
records. -/
theorem Item.run_warn_bind {α : Type} (item : Item) (k : Unit → Logged α)
    (log : Array Record) :
    (item.warn >>= k).run log = (k ()).run (log ++ item.records.toArray) := by
  cases item with
  | ok e =>
    rw [records, Array.append_empty]
    rfl
  | error error =>
    rw [records, ← Array.push_eq_append]
    rfl

namespace Cursor

-- ============================================================== the list

/-- Every item still to come. -/
def toList (c : Cursor) : List Item :=
  match h : c.step with
  | none => []
  | some (item, c') =>
    have := bound_lt_of_step_eq_some h
    item :: c'.toList
termination_by c.bound
decreasing_by exact this

/-- The cursor behind all of them. -/
def last (c : Cursor) : Cursor :=
  match h : c.step with
  | none => c
  | some (_, c') =>
    have := bound_lt_of_step_eq_some h
    c'.last
termination_by c.bound
decreasing_by exact this

/-- The records that meeting all of them leaves in the log. -/
def records (c : Cursor) : List Record :=
  c.toList.flatMap Item.records

theorem toList_of_step_eq_none {c : Cursor} (h : c.step = none) : c.toList = [] := by
  rw [toList]
  split
  · rfl
  · next h' => rw [h] at h'; cases h'

/-- What a step yields is the first of the items left. -/
theorem toList_of_step_eq_some {c c' : Cursor} {item : Item}
    (h : c.step = some (item, c')) : c.toList = item :: c'.toList := by
  rw [toList]
  split
  · next h' => rw [h] at h'; cases h'
  · next h' => rw [h] at h'; cases h'; rfl

theorem last_of_step_eq_none {c : Cursor} (h : c.step = none) : c.last = c := by
  rw [last]
  split
  · rfl
  · next h' => rw [h] at h'; cases h'

theorem last_of_step_eq_some {c c' : Cursor} {item : Item}
    (h : c.step = some (item, c')) : c.last = c'.last := by
  rw [last]
  split
  · next h' => rw [h] at h'; cases h'
  · next h' => rw [h] at h'; cases h'; rfl

theorem records_of_step_eq_none {c : Cursor} (h : c.step = none) : c.records = [] := by
  rw [records, toList_of_step_eq_none h, List.flatMap_nil]

theorem records_of_step_eq_some {c c' : Cursor} {item : Item}
    (h : c.step = some (item, c')) : c.records = item.records ++ c'.records := by
  rw [records, toList_of_step_eq_some h, List.flatMap_cons, records]

/-- A cursor that has yielded an error is spent. -/
theorem step_eq_none_of_step_eq_error {c c' : Cursor} {error : DecodeError}
    (h : c.step = some (.error error, c')) : c'.step = none := by
  unfold step at h
  split at h
  · cases h
  · split at h
    · cases h
    · cases h
      simp [step]

/-- Nothing comes after an error. -/
theorem toList_of_step_eq_error {c c' : Cursor} {error : DecodeError}
    (h : c.step = some (.error error, c')) : c.toList = [.error error] := by
  rw [toList_of_step_eq_some h, toList_of_step_eq_none (step_eq_none_of_step_eq_error h)]

/-- The error that ends a traversal is the last thing it says. -/
theorem records_of_step_eq_error {c c' : Cursor} {error : DecodeError}
    (h : c.step = some (.error error, c')) : c.records = [.stopped error] := by
  rw [records, toList_of_step_eq_error h]
  rfl

-- ============================================ movements, from the list

/-- Counting goes on from `n`, uses the cursor up and says all it has to
say. -/
theorem run_countFrom (n : Nat) (c : Cursor) (log : Array Record) :
    (countFrom n c).run log
      = ((n + c.toList.length, c.last), log ++ c.records.toArray) := by
  fun_induction countFrom n c generalizing log with
  | case1 n c h =>
    rw [toList_of_step_eq_none h, last_of_step_eq_none h, records_of_step_eq_none h,
      Array.append_empty]
    rfl
  | case2 n c item c' h hlt ih =>
    rw [Item.run_warn_bind, ih, toList_of_step_eq_some h, last_of_step_eq_some h,
      records_of_step_eq_some h]
    simp [Nat.add_comm, Nat.add_assoc]

/-- So does collecting, behind the items that are there already. -/
theorem run_collectFrom (items : List Item) (c : Cursor) (log : Array Record) :
    (collectFrom items c).run log
      = ((items.reverse ++ c.toList, c.last), log ++ c.records.toArray) := by
  fun_induction collectFrom items c generalizing log with
  | case1 items c h =>
    rw [toList_of_step_eq_none h, last_of_step_eq_none h, records_of_step_eq_none h,
      Array.append_empty, List.append_nil]
    rfl
  | case2 items c item c' h hlt ih =>
    rw [Item.run_warn_bind, ih, toList_of_step_eq_some h, last_of_step_eq_some h,
      records_of_step_eq_some h]
    simp

-- ========================================== traversals, from the list

/-- Checking meets the items left and says whether all are elements. -/
theorem run_allElements (c : Cursor) (log : Array Record) :
    c.allElements.run log = (c.toList.all Except.toBool, log ++ c.records.toArray) := by
  fun_induction allElements c generalizing log with
  | case1 c h =>
    rw [toList_of_step_eq_none h, records_of_step_eq_none h, Array.append_empty]
    rfl
  | case2 c item c' h hlt ih =>
    rw [Item.run_warn_bind]
    cases item with
    | ok e =>
      rw [toList_of_step_eq_some h, records_of_step_eq_some h]
      simp [ih, Item.records, Except.toBool]
    | error error =>
      rw [toList_of_step_eq_error h, records_of_step_eq_error h]
      rfl

/-- The elements are collected if no item is an error. Otherwise the error
is the answer. -/
theorem run_elementsFrom (elements : List Element) (c : Cursor) (log : Array Record) :
    (elementsFrom elements c).run log
      = ((c.toList.mapM id).map (elements.reverse ++ ·), log ++ c.records.toArray) := by
  fun_induction elementsFrom elements c generalizing log with
  | case1 elements c h =>
    rw [toList_of_step_eq_none h, records_of_step_eq_none h, Array.append_empty,
      List.mapM_nil]
    simp [Except.map, pure, Except.pure]
    rfl
  | case2 elements c item c' h hlt ih =>
    rw [Item.run_warn_bind]
    cases item with
    | ok e =>
      rw [toList_of_step_eq_some h, records_of_step_eq_some h, ih, List.mapM_cons]
      cases c'.toList.mapM id <;>
        simp [Except.map, Item.records, bind, Except.bind, pure, Except.pure]
    | error error =>
      rw [toList_of_step_eq_error h, records_of_step_eq_error h]
      rfl

/-- Items are shown behind what is there, with commas between them. -/
theorem run_renderFrom (text separator : String) (c : Cursor) (log : Array Record) :
    (renderFrom text separator c).run log
      = (text ++ (if c.toList = [] then "" else separator)
            ++ ",".intercalate (c.toList.map Item.render),
          log ++ c.records.toArray) := by
  fun_induction renderFrom text separator c generalizing log with
  | case1 text separator c h =>
    rw [toList_of_step_eq_none h, records_of_step_eq_none h, Array.append_empty]
    simp
    rfl
  | case2 text separator c item c' h hlt ih =>
    rw [Item.run_warn_bind, ih, toList_of_step_eq_some h, records_of_step_eq_some h]
    cases c'.toList with
    | nil => simp
    | cons item' items => simp [String.append_assoc]

end Cursor

end Tlv
