/-
What a run of steps leaves in the log. A cursor consumes the error of a
buffer when the error was still to come and no longer is; a step that
goes through the whole view does so with a cursor of its own, which
consumes whatever error there is. `Desk.consumed` says this of one step,
from the cursors before and behind it and not from the log, and
`Desk.consumedAll` of a run.

The log then has one warning for each error consumed, in that order, and
nothing else (`warnings_of_run`). By the marks that a desk follows, what
a cursor consumes is what stands between its mark and the next one
(`Follows.consumed_eq`). The items have at most one error, so a cursor
that is behind it has none to come, and since marks only go on until
their cursor is begun again, it has none from then on either
(`Follows.silent_of_failed`).
-/
import Tlv.Proofs.Marks
import Tlv.Proofs.Readings

namespace Tlv

-- ============================================================== errors

namespace Item

/-- The error that an item is, if it is one. -/
def error? : Item → Option DecodeError
  | .ok _ => none
  | .error error => some error

/-- The errors among some items. -/
def errors (items : List Item) : List DecodeError :=
  items.filterMap error?

theorem errors_append (items items' : List Item) :
    errors (items ++ items') = errors items ++ errors items' :=
  List.filterMap_append

theorem errors_map_ok (es : List Element) : errors (es.map .ok) = [] := by
  induction es with
  | nil => rfl
  | cons e es ih => exact ih

/-- Every error among some items leaves one record. -/
theorem flatMap_records (items : List Item) :
    items.flatMap records = (errors items).map .stopped := by
  induction items with
  | nil => rfl
  | cons item items ih =>
      rw [List.flatMap_cons, ih]
      cases item <;> rfl

theorem errors_eq_nil_iff {items : List Item} :
    errors items = [] ↔ items.all Except.toBool = true := by
  induction items with
  | nil => simp [errors]
  | cons item items ih =>
      cases item with
      | ok e =>
          rw [List.all_cons]
          exact ih
      | error error =>
          exact iff_of_false (by simp [errors, error?])
            (by simp [Except.toBool])

end Item

namespace View

/-- A view has no error or one, which is the last of its items. -/
theorem errors_cases (v : View) :
    Item.errors v.items.answer = []
      ∨ ∃ error, Item.errors v.items.answer = [error]
        ∧ v.items.answer.getLast? = some (.error error) := by
  rcases v.items_cases with hall | ⟨error, hsplit, -⟩
  · left
    rw [hall, Item.errors_map_ok]
  · refine Or.inr ⟨error, ?_, ?_⟩
    · rw [hsplit, Item.errors_append, Item.errors_map_ok]
      rfl
    · rw [hsplit, List.getLast?_concat]

/-- No error is met twice, since there is one at most. -/
theorem nodup_errors (v : View) : (Item.errors v.items.answer).Nodup := by
  rcases v.errors_cases with hnone | ⟨error, hone, -⟩
  · rw [hnone]
    exact List.nodup_nil
  · rw [hone]
    exact List.pairwise_singleton ..

theorem isValid_iff_errors_eq_nil (v : View) :
    v.isValid.answer = true ↔ Item.errors v.items.answer = [] := by
  rw [answer_isValid, Item.errors_eq_nil_iff]

end View

namespace Desk

-- ============================================================ consumed

/-- Whether a step moves a cursor onwards. -/
def Step.advances : Step → Bool
  | .next | .nth _ | .count | .collect => true
  | .offset | .sizeHint | .restart | .clone _ | .items | .isValid
  | .elements | .render | .view => false

/-- Whether a step goes through the view with a cursor of its own. -/
def Step.traverses : Step → Bool
  | .items | .isValid | .elements | .render => true
  | .next | .nth _ | .offset | .sizeHint | .count | .collect | .restart
  | .clone _ | .view => false

/-- The errors that a step's cursor consumes: those it had before it and
no longer has. -/
def consumed (d : Desk) (name : String) (step : Step) :
    List DecodeError :=
  let after := (d.perform name step).answer.2
  if step.advances then
    (Item.errors (d.cursor name).toList).filter
      (· ∉ Item.errors (after.cursor name).toList)
  else if step.traverses then Item.errors d.view.start.toList
  else []

/-- The errors that the steps of a run consume. -/
def consumedAll (d : Desk) : List (String × Step) → List DecodeError
  | [] => []
  | (name, step) :: steps =>
    d.consumed name step
      ++ (d.perform name step).answer.2.consumedAll steps

/-- The name whose cursor a step begins again or makes a copy of
another. -/
def Step.renewed (name : String) : Step → Option String
  | .restart => some name
  | .clone other => some other
  | .next | .nth _ | .offset | .sizeHint | .count | .collect | .items
  | .isValid | .elements | .render | .view => none

/-- No movement of the cursor warns any more, whatever is done first,
until it is begun again or made a copy of another. -/
def Silent (d : Desk) (name : String) : Prop :=
  ∀ more : List (String × Step),
    (∀ entry ∈ more, entry.2.renewed entry.1 ≠ some name) →
    ∀ step : Step, step.advances = true →
      ((d.run more).answer.2.perform name step).records = []

/-- The ways of going through a view, one after the other. -/
def summary (name : String) : List (String × Step) :=
  [(name, .items), (name, .isValid), (name, .elements), (name, .render)]

end Desk

namespace Marks

open Desk

variable {v : View}

-- =========================================================== onwards

theorem place_move_self (m : Marks v) (name : String) (k : Nat) :
    (m.move name k).place name = min k v.items.answer.length :=
  if_pos rfl

/-- What lies behind a place is the same, whether or not it was sent too
far. -/
theorem drop_place_move (m : Marks v) (name : String) (k : Nat) :
    v.items.answer.drop ((m.move name k).place name)
      = v.items.answer.drop k := by
  rw [place_move_self, List.drop_eq_drop_iff, Nat.min_assoc,
    Nat.min_self]

theorem le_place_move (m : Marks v) {name : String} {k : Nat}
    (h : m.place name ≤ k) : m.place name ≤ (m.move name k).place name := by
  rw [place_move_self]
  exact Nat.le_min.2 ⟨h, m.place_le name⟩

/-- What a step onwards meets and what is still to come behind it are
what was to come before it. -/
theorem met_append_drop (m : Marks v) (name : String) {step : Step}
    (h : step.advances = true) :
    m.met name step
        ++ v.items.answer.drop ((m.perform name step).2.place name)
      = v.items.answer.drop (m.place name) := by
  cases step with
  | next =>
      rw [perform, met]
      cases hitem : v.items.answer[m.place name]? with
      | some item =>
          dsimp only
          rw [drop_place_move, ← List.drop_drop, List.take_append_drop]
      | none =>
          have hend := List.getElem?_eq_none_iff.1 hitem
          dsimp only
          rw [List.drop_of_length_le hend]
          rfl
  | nth n =>
      show _ ++ v.items.answer.drop ((m.move name _).place name) = _
      rw [met, drop_place_move, Nat.add_assoc, ← List.drop_drop,
        List.take_append_drop]
  | count | collect =>
      show _ ++ v.items.answer.drop ((m.move name _).place name) = _
      rw [met, drop_place_move, List.drop_length, List.append_nil]
  | offset | sizeHint | restart | clone | items | isValid | elements
  | render | view => cases h

/-- The items that a step meets are those between the old place and the
new. -/
theorem take_append_met (m : Marks v) (name : String) {step : Step}
    (h : step.advances = true) :
    v.items.answer.take (m.place name) ++ m.met name step
      = v.items.answer.take ((m.perform name step).2.place name) := by
  have hsplit : (v.items.answer.take (m.place name) ++ m.met name step)
        ++ v.items.answer.drop ((m.perform name step).2.place name)
      = v.items.answer.take ((m.perform name step).2.place name)
        ++ v.items.answer.drop ((m.perform name step).2.place name) := by
    rw [List.append_assoc, m.met_append_drop name h,
      List.take_append_drop, List.take_append_drop]
  exact List.append_cancel_right hsplit

/-- A mark goes back only where its cursor is begun again or made a copy
of another. -/
theorem place_le_perform (m : Marks v) {name other : String} {step : Step}
    (h : step.renewed other ≠ some name) :
    m.place name ≤ (m.perform other step).2.place name := by
  by_cases hmoved : step.moved other = some name
  · cases step with
    | next =>
        cases hmoved
        rw [perform]
        cases v.items.answer[m.place name]? with
        | some item => exact m.le_place_move (Nat.le_succ _)
        | none => exact Nat.le_refl _
    | nth n =>
        cases hmoved
        exact m.le_place_move (Nat.le_add_right _ (n + 1))
    | count | collect =>
        cases hmoved
        exact m.le_place_move (m.place_le name)
    | restart | clone => exact absurd hmoved h
    | offset | sizeHint | items | isValid | elements | render | view =>
        cases hmoved
  · rw [place_perform hmoved]

/-- Steps that renew no cursor of this name do not move its place back. -/
theorem place_le_run (m : Marks v) {name : String}
    {steps : List (String × Step)}
    (h : ∀ entry ∈ steps, entry.2.renewed entry.1 ≠ some name) :
    m.place name ≤ (m.run steps).2.place name := by
  induction steps generalizing m with
  | nil => exact Nat.le_refl _
  | cons entry steps ih =>
      rw [List.forall_mem_cons] at h
      exact Nat.le_trans (m.place_le_perform h.1) (ih _ h.2)

/-- A step meets only items of the view. -/
theorem met_sublist (m : Marks v) (name : String) (step : Step) :
    (m.met name step).Sublist v.items.answer := by
  cases step with
  | next | nth =>
      exact (List.take_sublist ..).trans (List.drop_sublist ..)
  | count | collect => exact List.drop_sublist ..
  | items | isValid | elements | render => exact List.Sublist.refl _
  | offset | sizeHint | restart | clone | view => exact List.nil_sublist _

end Marks

-- ===================================================== desks and the log

/-- Behind its error a cursor has nothing to come. -/
theorem Cursor.toList_of_failed {c : Cursor} (h : c.failed = true) :
    c.toList = [] := by
  apply toList_of_step_eq_none
  rw [step, h]
  rfl

/-- Where nothing occurs twice, taking out the second part leaves the
first. -/
theorem filter_notMem_append {α : Type} [DecidableEq α] {xs ys : List α}
    (h : (xs ++ ys).Nodup) : (xs ++ ys).filter (· ∉ ys) = xs := by
  obtain ⟨-, -, hne⟩ := List.nodup_append.1 h
  have hxs : xs.filter (· ∉ ys) = xs := by
    rw [List.filter_eq_self]
    intro x hx
    simpa using fun hy => hne x hx x hy rfl
  have hys : ys.filter (· ∉ ys) = [] := by
    rw [List.filter_eq_nil_iff]
    simp
  rw [List.filter_append, hxs, hys, List.append_nil]

namespace Desk

variable {v : View} {d : Desk} {m : Marks v}

/-- Behind an error nothing is consumed. -/
theorem consumed_of_failed {name : String} {step : Step}
    (h : (d.cursor name).failed = true) (hstep : step.advances = true) :
    d.consumed name step = [] := by
  rw [consumed, if_pos hstep, Cursor.toList_of_failed h]
  rfl

/-- Going through the view changes nothing at the desk, so each way of
doing it meets what the first one meets. -/
theorem consumedAll_summary (d : Desk) (name : String) :
    d.consumedAll (summary name)
      = (List.replicate 4 (Item.errors d.view.start.toList)).flatten := rfl

section Following

variable (h : d.Follows m) (name : String)
include h

/-- Cursors keep up with their places over a step. -/
theorem Follows.follows_perform (step : Step) :
    (d.perform name step).answer.2.Follows (m.perform name step).2 := by
  obtain ⟨d', hstep, h'⟩ := h.run_perform name step #[]
  rw [Logged.answer, hstep]
  exact h'

/-- What a step consumes are the errors among the items it meets. -/
theorem Follows.consumed_eq (step : Step) :
    d.consumed name step = Item.errors (m.met name step) := by
  by_cases hadvances : step.advances = true
  · have hmet := congrArg Item.errors (m.met_append_drop name hadvances)
    have hnodup := v.nodup_errors.sublist
      ((List.drop_sublist (m.place name) _).filterMap Item.error?)
    rw [Item.errors_append] at hmet
    rw [← Item.errors, ← hmet] at hnodup
    rw [consumed, if_pos hadvances, h.toList_eq,
      (h.follows_perform name step).toList_eq, ← hmet]
    exact filter_notMem_append hnodup
  · rw [consumed, if_neg hadvances, h.view_eq, View.toList_start]
    cases step with
    | next | nth | count | collect => exact absurd rfl hadvances
    | offset | sizeHint | restart | clone | items | isValid | elements
    | render | view => rfl

/-- A step says what errors it consumes. -/
theorem Follows.records_perform (step : Step) :
    (d.perform name step).records = (d.consumed name step).map .stopped := by
  obtain ⟨d', hstep, -⟩ := h.run_perform name step #[]
  rw [Logged.records, hstep, h.consumed_eq, ← Item.flatMap_records]
  simp

/-- A step consumes at most one error, the last item of the view. -/
theorem Follows.consumed_cases (step : Step) :
    d.consumed name step = []
      ∨ ∃ error, d.consumed name step = [error]
        ∧ v.items.answer.getLast? = some (.error error) := by
  have hsub := (m.met_sublist name step).filterMap Item.error?
  rw [← Item.errors, ← Item.errors, ← h.consumed_eq] at hsub
  rcases v.errors_cases with hnone | ⟨error, hone, hlast⟩
  · rw [hnone] at hsub
    exact Or.inl (List.sublist_nil.1 hsub)
  · rw [hone] at hsub
    rcases List.sublist_singleton.1 hsub with hnil | hcons
    · exact Or.inl hnil
    · exact Or.inr ⟨error, hcons, hlast⟩

/-- A cursor has failed when an error is behind it. -/
theorem Follows.failed_iff :
    (d.cursor name).failed = true
      ↔ Item.errors (v.items.answer.take (m.place name)) ≠ [] := by
  have hstart : v.start.failed = false := rfl
  rw [(h.passed name).failed_eq, hstart, Bool.false_or, Bool.not_eq_true',
    ne_eq, Item.errors_eq_nil_iff, Bool.not_eq_true]

/-- The cursor that has consumed an error has failed. -/
theorem Follows.failed_of_consumed {step : Step}
    (hstep : step.advances = true) (hne : d.consumed name step ≠ []) :
    ((d.perform name step).answer.2.cursor name).failed = true := by
  rw [(h.follows_perform name step).failed_iff,
    ← m.take_append_met name hstep, Item.errors_append, ← h.consumed_eq]
  exact List.append_ne_nil_of_right_ne_nil _ hne

theorem Follows.follows_run (steps : List (String × Step)) :
    (d.run steps).answer.2.Follows (m.run steps).2 := by
  obtain ⟨d', hrun, h'⟩ := h.run_run steps #[]
  rw [Logged.answer, hrun]
  exact h'

/-- A cursor that has failed stays so until it is begun again or made a
copy of another. -/
theorem Follows.failed_run {steps : List (String × Step)}
    (hfailed : (d.cursor name).failed = true)
    (hkeep : ∀ entry ∈ steps, entry.2.renewed entry.1 ≠ some name) :
    ((d.run steps).answer.2.cursor name).failed = true := by
  have hsub := (List.take_sublist_take_left (l := v.items.answer)
    (m.place_le_run hkeep)).filterMap Item.error?
  rw [(h.follows_run steps).failed_iff]
  rw [h.failed_iff] at hfailed
  intro hnil
  apply hfailed
  rw [Item.errors] at hnil
  rw [hnil] at hsub
  exact List.sublist_nil.1 hsub

/-- A cursor that has met the error says nothing any more. -/
theorem Follows.silent_of_failed
    (hfailed : (d.cursor name).failed = true) : d.Silent name := by
  intro more hkeep step hstep
  rw [(h.follows_run more).records_perform,
    consumed_of_failed (h.failed_run name hfailed hkeep) hstep]
  rfl

end Following

/-- The log of a run has one warning for each error its steps consume,
in their order, and nothing else. -/
theorem Follows.records_run (h : d.Follows m)
    (steps : List (String × Step)) :
    (d.run steps).records = (d.consumedAll steps).map .stopped := by
  have hall : d.consumedAll steps = Item.errors (m.metAll steps) := by
    induction steps generalizing d m with
    | nil => rfl
    | cons entry steps ih =>
        obtain ⟨name, step⟩ := entry
        rw [consumedAll, ih (h.follows_perform name step), h.consumed_eq,
          Marks.metAll, Item.errors_append]
  obtain ⟨d', hrun, -⟩ := h.run_run steps #[]
  rw [Logged.records, hrun, hall, ← Item.flatMap_records]
  simp

/-- Whatever a run consumes is the last item of its view. -/
theorem Follows.last_of_mem_consumedAll (h : d.Follows m)
    {steps : List (String × Step)} {error : DecodeError}
    (herror : error ∈ d.consumedAll steps) :
    v.items.answer.getLast? = some (.error error) := by
  induction steps generalizing d m with
  | nil => cases herror
  | cons entry steps ih =>
      obtain ⟨name, step⟩ := entry
      rw [consumedAll, List.mem_append] at herror
      rcases herror with hfirst | hlater
      · rcases h.consumed_cases name step with hnil | ⟨error', hone, hlast⟩
        · rw [hnil] at hfirst
          cases hfirst
        · rw [hone, List.mem_singleton] at hfirst
          rw [hfirst]
          exact hlast
      · exact ih (h.follows_perform name step) hlater

/-- Nothing is warned of over a valid view. -/
theorem Follows.records_of_isValid (h : d.Follows m)
    (hvalid : v.isValid.answer = true) (steps : List (String × Step)) :
    (d.run steps).records = [] := by
  rw [h.records_run, List.map_eq_nil_iff, List.eq_nil_iff_forall_not_mem]
  intro error herror
  have hlast := h.last_of_mem_consumedAll herror
  exact v.isValid_iff.1 hvalid error (List.mem_of_getLast? hlast)

/-- A summary meets the error four times, once in each of its
traversals. -/
theorem Follows.records_summary (h : d.Follows m) (name : String)
    {error : DecodeError} (hone : Item.errors v.items.answer = [error]) :
    (d.run (summary name)).records
      = List.replicate 4 (.stopped error) := by
  rw [h.records_run, consumedAll_summary, h.view_eq, View.toList_start,
    hone]
  rfl

-- ======================================================== the warnings

/-- Whatever is done with the named cursors of a view, the log has one
warning for each time a cursor consumes the error of the view, in the
order in which this happens, and nothing else. A step consumes the error
once at most and warns of it then and there, and the cursor it moves has
failed behind it. A cursor that has failed warns no more, nor does a
copy of it, until it is begun again or overwritten. So a valid view is
never warned of, and a summary of it warns four times of an error and
otherwise not at all. -/
theorem warnings_of_run (v : View) (steps : List (String × Step)) :
    let start := ofView v
    let desk := (start.run steps).answer.2
    let last := v.items.answer.getLast?
    (start.run steps).records = (start.consumedAll steps).map .stopped
      ∧ (∀ error ∈ start.consumedAll steps, last = some (.error error))
      ∧ (∀ error : DecodeError, (Record.stopped error).render
          = "WARN TLV decode stopped: error=" ++ error.message)
      ∧ (∀ name step,
          (desk.perform name step).records
              = (desk.consumed name step).map .stopped
            ∧ (desk.consumed name step = []
              ∨ ∃ error, desk.consumed name step = [error]
                ∧ last = some (.error error))
            ∧ (step.advances = true → desk.consumed name step ≠ [] →
              ((desk.perform name step).answer.2.cursor name).failed
                = true))
      ∧ (∀ name, (desk.cursor name).failed = true →
          desk.Silent name ∧ ∀ other,
            (desk.perform name (.clone other)).answer.2.Silent other)
      ∧ (v.isValid.answer = true → (start.run steps).records = []
          ∧ ∀ name, (desk.run (summary name)).records = [])
      ∧ (v.isValid.answer = false → ∃ error, last = some (.error error)
          ∧ ∀ name, (desk.run (summary name)).records
            = List.replicate 4 (.stopped error)) := by
  intro start desk last
  have hstart : start.Follows (Marks.start v) := follows_ofView v
  have hdesk : desk.Follows ((Marks.start v).run steps).2 :=
    hstart.follows_run steps
  refine ⟨hstart.records_run steps,
    fun error => hstart.last_of_mem_consumedAll, fun _ => rfl, ?_, ?_,
    fun hvalid => ⟨hstart.records_of_isValid hvalid steps,
      fun name => hdesk.records_of_isValid hvalid (summary name)⟩, ?_⟩
  · intro name step
    exact ⟨hdesk.records_perform name step, hdesk.consumed_cases name step,
      hdesk.failed_of_consumed name⟩
  -- a copy of a cursor that has failed has failed too
  · intro name hfailed
    refine ⟨hdesk.silent_of_failed name hfailed, fun other => ?_⟩
    apply (hdesk.follows_perform name (.clone other)).silent_of_failed
    show ((desk.set other (desk.cursor name)).cursor other).failed = true
    rw [cursor_set, if_pos rfl]
    exact hfailed
  · intro hinvalid
    rcases v.errors_cases with hnone | ⟨error, hone, hlast⟩
    · rw [v.isValid_iff_errors_eq_nil.2 hnone] at hinvalid
      cases hinvalid
    · exact ⟨error, hlast, fun name => hdesk.records_summary name hone⟩

/-- A torn payload met by a cursor that skips over it, by a copy made
before, by the same name begun again and by a question about the view;
a copy made behind it meets nothing. -/
theorem warnings_of_run_torn_payload :
    let v : View :=
      { policy := default, bytes := [0, 1, 2, 2, 3, 0, 1] }
    let error : DecodeError := .truncatedPayload 5 3 2
    let steps : List (String × Step) :=
      [("a", .next), ("a", .clone "b"), ("a", .nth 3), ("a", .clone "c"),
        ("c", .collect), ("a", .count), ("b", .offset), ("b", .count),
        ("v", .isValid), ("a", .restart), ("a", .nth 0), ("a", .next)]
    let desk := ((ofView v).run steps).answer.2
    let later := (desk.run [("a", .restart), ("c", .nth 1)]).answer.2
    ((ofView v).run steps).records = List.replicate 4 (.stopped error)
      ∧ (Record.stopped error).render
        = "WARN TLV decode stopped: error="
          ++ "truncated payload at offset 5: declared 3, have 2"
      ∧ (desk.cursor "c").failed = true
      ∧ (later.perform "c" .next).records = []
      ∧ v.isValid.answer = false
      ∧ (desk.run (summary "v")).records
        = List.replicate 4 (.stopped error) := by
  intro v error steps desk later
  have hconsumed : (ofView v).consumedAll steps
      = List.replicate 4 error := by decide +kernel
  have hlast : v.items.answer.getLast? = some (.error error) := by
    decide +kernel
  have hfailed : (desk.cursor "c").failed = true := by decide +kernel
  have hinvalid : v.isValid.answer = false := by decide +kernel
  have hkeep : ∀ entry ∈ ([("a", .restart), ("c", .nth 1)] :
      List (String × Step)), entry.2.renewed entry.1 ≠ some "c" := by
    decide
  obtain ⟨hrecords, -, hrender, -, hsilent, -, hsummary⟩ :=
    warnings_of_run v steps
  obtain ⟨error', hlast', hfour⟩ := hsummary hinvalid
  have heq : error' = error := by
    have hboth := hlast'.symm.trans hlast
    simpa using hboth
  refine ⟨?_, hrender error, hfailed, ?_, hinvalid, ?_⟩
  · rw [hrecords, hconsumed]
    rfl
  · exact (hsilent "c" hfailed).1 _ hkeep .next rfl
  · rw [← heq]
    exact hfour "v"

end Desk

end Tlv
