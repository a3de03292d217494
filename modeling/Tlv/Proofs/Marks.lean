/-
Named cursors as numbers. The items of a view are one list, fixed once
and for all, and a cursor over it is known by how many of them are
behind it. `Marks` keeps that number for each name and nothing else, and
says what every step at a desk answers by it (`Marks.perform`) and which
items the step meets (`Marks.met`).

A desk follows its marks (`Desk.Follows`): each cursor is the one that
has as many items behind it as its mark says. A step keeps this, answers
what the marks answer, and logs the errors among the items met
(`Follows.run_perform`), hence so does any run of steps
(`Follows.run_run`). Cursors that have failed, copies of them and
cursors that have skipped over the error need no case of their own: all
of them are at the end of the list.
-/
import Tlv.Desk
import Tlv.Proofs.Advance

namespace Tlv

-- =============================================================== marks

/-- A place in the items of a view, for each name. -/
@[ext]
structure Marks (v : View) where
  place : String → Nat
  place_le : ∀ name, place name ≤ v.items.answer.length

namespace Marks

variable {v : View}

/-- Every name at the first item. -/
def start (v : View) : Marks v :=
  { place := fun _ => 0, place_le := fun _ => Nat.zero_le _ }

/-- The marks with this name at `k`, or at the end if there is no such
place. -/
def move (m : Marks v) (name : String) (k : Nat) : Marks v where
  place other :=
    if other = name then min k v.items.answer.length else m.place other
  place_le other := by
    split
    · exact Nat.min_le_right ..
    · exact m.place_le other

/-- What a step answers, and the marks behind it. -/
def perform (m : Marks v) (name : String) :
    Desk.Step → Desk.Answer × Marks v
  | .next =>
    match v.items.answer[m.place name]? with
    | some item => (.item (some item), m.move name (m.place name + 1))
    | none => (.item none, m)
  | .nth n =>
    (.item v.items.answer[m.place name + n]?,
      m.move name (m.place name + n + 1))
  | .offset =>
    (.offset (Item.finishFrom 0 (v.items.answer.take (m.place name))), m)
  | .sizeHint =>
    let met := v.items.answer.take (m.place name)
    let left := v.actualLength - Item.finishFrom 0 met
    (.sizeHint 0 (if met.all Except.toBool then
        (left + v.policy.headerLen - 1) / v.policy.headerLen
      else 0), m)
  | .count =>
    (.count (v.items.answer.length - m.place name),
      m.move name v.items.answer.length)
  | .collect =>
    (.items (v.items.answer.drop (m.place name)),
      m.move name v.items.answer.length)
  | .restart => (.restarted, m.move name 0)
  | .clone other => (.cloned, m.move other (m.place name))
  | .items => (.items v.items.answer, m)
  | .isValid => (.isValid (v.items.answer.all Except.toBool), m)
  | .elements => (.elements (v.items.answer.mapM id), m)
  | .render =>
    (.render ("[" ++ ",".intercalate (v.items.answer.map Item.render)
      ++ "]"), m)
  | .view => (.view v, m)

/-- Performs steps one after the other on the list of items. -/
def run (m : Marks v) :
    List (String × Desk.Step) → List Desk.Answer × Marks v
  | [] => ([], m)
  | (name, step) :: steps =>
    let (answer, m') := m.perform name step
    let (answers, m'') := m'.run steps
    (answer :: answers, m'')

/-- The items that a step meets. -/
def met (m : Marks v) (name : String) : Desk.Step → List Item
  | .next => (v.items.answer.drop (m.place name)).take 1
  | .nth n => (v.items.answer.drop (m.place name)).take (n + 1)
  | .count | .collect => v.items.answer.drop (m.place name)
  | .items | .isValid | .elements | .render => v.items.answer
  | .offset | .sizeHint | .restart | .clone _ | .view => []

/-- The items that the steps of a run meet. -/
def metAll (m : Marks v) : List (String × Desk.Step) → List Item
  | [] => []
  | (name, step) :: steps =>
    m.met name step ++ (m.perform name step).2.metAll steps

-- ======================================================== moving marks

theorem place_move_of_ne {m : Marks v} {name other : String} (k : Nat)
    (h : other ≠ name) : (m.move name k).place other = m.place other :=
  if_neg h

theorem move_place (m : Marks v) (name : String) :
    m.move name (m.place name) = m := by
  ext other
  by_cases hname : other = name
  · show (if other = name then min (m.place name) v.items.answer.length
      else m.place other) = m.place other
    rw [if_pos hname, hname, Nat.min_eq_left (m.place_le name)]
  · exact place_move_of_ne _ hname

end Marks

namespace Desk

/-- The name whose cursor a step moves, if it moves one. -/
def Step.moved (name : String) : Step → Option String
  | .next | .nth _ | .count | .collect | .restart => some name
  | .clone other => some other
  | .offset | .sizeHint | .items | .isValid | .elements | .render
  | .view => none

variable {v : View} {d : Desk} {m : Marks v}

/-- A step moves no place but the one it is meant for. -/
theorem place_perform {name other : String} {step : Step}
    (h : step.moved name ≠ some other) :
    (m.perform name step).2.place other = m.place other := by
  have hne : step.moved name = some name → other ≠ name := by
    rintro hmoved rfl
    exact h hmoved
  cases step with
  | next =>
      rw [Marks.perform]
      cases v.items.answer[m.place name]? with
      | some item => exact Marks.place_move_of_ne _ (hne rfl)
      | none => rfl
  | nth | count | collect | restart =>
      exact Marks.place_move_of_ne _ (hne rfl)
  | clone name' =>
      refine Marks.place_move_of_ne _ fun heq => h ?_
      rw [heq]
      rfl
  | offset | sizeHint | items | isValid | elements | render | view => rfl

-- ================================================= desks follow marks

/-- A cursor that is put down is found under its name, and no other is
disturbed. -/
theorem cursor_set (d : Desk) (name other : String) (c : Cursor) :
    (d.set name c).cursor other
      = if other = name then c else d.cursor other := by
  unfold cursor set
  by_cases hname : other = name
  · simp [hname]
  · have hne : (other == name) = false := by simpa using hname
    have hkeep : (d.cursors.filter fun entry => entry.1 != name).lookup other
        = d.cursors.lookup other := by
      induction d.cursors with
      | nil => rfl
      | cons entry entries ih =>
          obtain ⟨key, place⟩ := entry
          by_cases hkey : key = name
          · rw [List.filter_cons_of_neg (by simpa using hkey), ih,
              List.lookup_cons, hkey, hne]
          · rw [List.filter_cons_of_pos (by simpa using hkey),
              List.lookup_cons, List.lookup_cons, ih]
    rw [if_neg hname]
    simp only [List.lookup_cons, hne, hkeep]

/-- Each cursor of the desk has as many items behind it as its mark
says. -/
structure Follows (d : Desk) (m : Marks v) : Prop where
  view_eq : d.view = v
  cursor_eq : ∀ name, d.cursor name = v.start.advance (m.place name)

/-- At the start every cursor stands in front of the first item. -/
theorem follows_ofView (v : View) : (ofView v).Follows (Marks.start v) :=
  ⟨rfl, fun _ => rfl⟩

/-- A cursor that goes on at the end stays there, as marks do. -/
theorem advance_min (v : View) (k : Nat) :
    v.start.advance (min k v.items.answer.length)
      = v.start.advance k := by
  have hend : v.start.toList.length = v.items.answer.length := by
    rw [View.toList_start]
  by_cases hk : k ≤ v.items.answer.length
  · rw [Nat.min_eq_left hk]
  · rw [Nat.min_eq_right (by omega),
      Cursor.advance_of_length_le (Nat.le_of_eq hend),
      Cursor.advance_of_length_le (by omega)]

/-- A cursor that is put down where its place moves to keeps up with
it. -/
theorem Follows.set (h : d.Follows m) (name : String) {c : Cursor}
    {k : Nat} (hc : c = v.start.advance k) :
    (d.set name c).Follows (m.move name k) := by
  refine ⟨h.view_eq, fun other => ?_⟩
  rw [cursor_set]
  by_cases hname : other = name
  · rw [if_pos hname, hc, Marks.move, ← advance_min]
    simp [hname]
  · rw [if_neg hname, h.cursor_eq, Marks.place_move_of_ne _ hname]

section Following

variable (h : d.Follows m) (name : String)
include h

theorem Follows.toList_eq :
    (d.cursor name).toList = v.items.answer.drop (m.place name) := by
  rw [h.cursor_eq, Cursor.toList_advance, View.toList_start]

/-- A cursor has met the items in front of its place. -/
theorem Follows.passed :
    v.start.Passed (v.items.answer.take (m.place name))
      (d.cursor name) := by
  rw [h.cursor_eq, ← View.toList_start]
  exact Cursor.passed_advance ..

/-- All cursors end up behind the last item. -/
theorem Follows.last_eq :
    (d.cursor name).last = v.start.advance v.items.answer.length := by
  have hend : (d.cursor name).toList.length ≤ v.items.answer.length := by
    rw [h.toList_eq, List.length_drop]
    exact Nat.sub_le ..
  have hle := m.place_le name
  rw [← Cursor.advance_of_length_le hend, h.cursor_eq,
    Cursor.advance_advance, ← advance_min,
    Nat.min_eq_right (Nat.le_add_left ..)]

/-- At a place the list gives the bound that the cursor there gives. -/
theorem Follows.bound_eq :
    (m.perform name .sizeHint).1 = .sizeHint 0 (d.cursor name).bound := by
  have hpassed := h.passed name
  have hsize := hpassed.size_eq
  have hstart : v.start.rest.length = v.actualLength := rfl
  have hzero : v.start.offset = 0 := rfl
  have hleft : (d.cursor name).rest.length
      = v.actualLength
        - Item.finishFrom 0 (v.items.answer.take (m.place name)) := by
    rw [hpassed.offset_eq, hstart, hzero] at hsize
    omega
  rw [Cursor.bound, hpassed.failed_eq, hpassed.policy_eq, hleft,
    Marks.perform]
  cases (v.items.answer.take (m.place name)).all Except.toBool <;> rfl

/-- A step answers what the marks say, logs the errors among the items
they say it meets, and is followed by the marks behind it. -/
theorem Follows.run_perform (step : Step) (log : Array Record) :
    ∃ d', (d.perform name step).run log
        = (((m.perform name step).1, d'),
            log ++ ((m.met name step).flatMap Item.records).toArray)
      ∧ d'.Follows (m.perform name step).2 := by
  have hlist := h.toList_eq name
  cases step with
  | next =>
      have hnext : (d.cursor name).next = (d.cursor name).nth 0 := rfl
      have hitem : (d.cursor name).toList[0]?
          = v.items.answer[m.place name]? := by
        rw [hlist, List.getElem?_drop, Nat.add_zero]
      refine ⟨d.set name ((d.cursor name).advance 1), ?_, ?_⟩
      · rw [perform, Logged.run_bind, hnext, Cursor.run_nth, Marks.perform,
          ← hitem, Marks.met, ← hlist]
        cases (d.cursor name).toList[0]? <;> rfl
      · rw [Marks.perform, ← hitem]
        cases hfirst : (d.cursor name).toList[0]? with
        | some item =>
            refine h.set name ?_
            rw [h.cursor_eq, Cursor.advance_advance]
        | none =>
            -- at the end neither the cursor nor the mark moves
            have hempty := List.getElem?_eq_none_iff.1 hfirst
            rw [← m.move_place name]
            refine h.set name ?_
            rw [Cursor.advance_of_length_le (by omega),
              ← Cursor.advance_of_length_le hempty, h.cursor_eq]
            rfl
  | nth n =>
      refine ⟨d.set name ((d.cursor name).advance (n + 1)), ?_, ?_⟩
      · rw [perform, Logged.run_bind, Cursor.run_nth, hlist,
          List.getElem?_drop]
        rfl
      · refine h.set name ?_
        rw [h.cursor_eq, Cursor.advance_advance, Nat.add_assoc]
  | offset =>
      refine ⟨d, ?_, h⟩
      rw [perform, (h.passed name).offset_eq]
      simp [Marks.met]
      rfl
  | sizeHint =>
      refine ⟨d, ?_, h⟩
      rw [perform, ← h.bound_eq]
      simp [Marks.met]
      rfl
  -- what uses a cursor up leaves it where all traversals end
  | count =>
      refine ⟨d.set name (d.cursor name).last, ?_,
        h.set name (h.last_eq name)⟩
      rw [perform, Logged.run_bind, Cursor.count, Cursor.run_countFrom,
        Cursor.records, hlist, List.length_drop, Nat.zero_add]
      rfl
  | collect =>
      refine ⟨d.set name (d.cursor name).last, ?_,
        h.set name (h.last_eq name)⟩
      rw [perform, Logged.run_bind, Cursor.collect, Cursor.run_collectFrom,
        Cursor.records, hlist]
      rfl
  | restart =>
      refine ⟨d.set name d.view.start, rfl, h.set name ?_⟩
      rw [h.view_eq]
      rfl
  | clone other =>
      exact ⟨d.set other (d.cursor name), rfl,
        h.set other (h.cursor_eq name)⟩
  -- the others look at the view and move no cursor
  | items =>
      refine ⟨d, ?_, h⟩
      rw [perform, Logged.run_bind, h.view_eq, View.run_items]
      rfl
  | isValid =>
      refine ⟨d, ?_, h⟩
      rw [perform, Logged.run_bind, h.view_eq, View.run_isValid]
      rfl
  | elements =>
      refine ⟨d, ?_, h⟩
      rw [perform, Logged.run_bind, h.view_eq, View.run_elements]
      rfl
  | render =>
      refine ⟨d, ?_, h⟩
      rw [perform, Logged.run_bind, h.view_eq, View.run_render]
      rfl
  | view =>
      refine ⟨d, ?_, h⟩
      rw [perform, h.view_eq]
      rfl

end Following

/-- A run answers what the marks say, likewise. -/
theorem Follows.run_run (h : d.Follows m) (steps : List (String × Step))
    (log : Array Record) :
    ∃ d', (d.run steps).run log
        = (((m.run steps).1, d'),
            log ++ ((m.metAll steps).flatMap Item.records).toArray)
      ∧ d'.Follows (m.run steps).2 := by
  induction steps generalizing d m log with
  | nil => exact ⟨d, rfl, h⟩
  | cons entry steps ih =>
      obtain ⟨name, step⟩ := entry
      obtain ⟨d', hstep, h'⟩ := h.run_perform name step log
      obtain ⟨d'', hrest, h''⟩ := ih h'
        (log ++ ((m.met name step).flatMap Item.records).toArray)
      refine ⟨d'', ?_, h''⟩
      rw [run, Logged.run_bind, hstep]
      dsimp only
      rw [Logged.run_bind, hrest, Marks.metAll, List.flatMap_append]
      simp
      rfl

-- ======================================================== the reading

/-- Whatever is done with the named cursors of a view, in whatever
order, every answer follows from the list of its items and from one
number for each name, which is never beyond the end of the list. The
items behind that place are those the cursor has still to yield. A step
changes no cursor but the one it moves. Since an error is the last of
the items, a cursor that has met it is at the end. -/
theorem answers_follow_marks (v : View) (steps : List (String × Step)) :
    let items := v.items.answer
    let r := ((ofView v).run steps).answer
    let m := (Marks.start v).run steps
    r.1 = m.1
      ∧ (∀ name, (r.2.cursor name).toList = items.drop (m.2.place name))
      ∧ (∀ name step other, step.moved name ≠ some other →
          (r.2.perform name step).answer.2.cursor other
            = r.2.cursor other)
      ∧ (∀ i error, items[i]? = some (.error error) →
          i + 1 = items.length)
      ∧ ∀ name error, .error error ∈ items.take (m.2.place name) →
          m.2.place name = items.length := by
  obtain ⟨d, hrun, hfollows⟩ := (follows_ofView v).run_run steps #[]
  have hanswer : ((ofView v).run steps).answer
      = (((Marks.start v).run steps).1, d) := congrArg Prod.fst hrun
  have hlast : ∀ i error, v.items.answer[i]? = some (.error error) →
      i + 1 = v.items.answer.length := by
    intro i error hitem
    rw [← View.toList_start] at hitem ⊢
    exact Cursor.length_of_getElem?_eq_error hitem
  dsimp only
  rw [hanswer]
  refine ⟨rfl, hfollows.toList_eq, ?_, hlast, ?_⟩
  · intro name step other hmoved
    obtain ⟨d', hstep, hfollows'⟩ := hfollows.run_perform name step #[]
    have hd : (d.perform name step).answer.2 = d' :=
      congrArg (fun r => r.1.2) hstep
    rw [hd, hfollows'.cursor_eq, hfollows.cursor_eq,
      place_perform hmoved]
  -- an error that lies behind a place is the last item
  · intro name error herror
    have hle := ((Marks.start v).run steps).2.place_le name
    obtain ⟨i, hitem⟩ := List.mem_iff_getElem?.1 herror
    rw [List.getElem?_take] at hitem
    split at hitem
    · have hend := hlast i error hitem
      omega
    · cases hitem

/-- A cursor that skips over an element to the error behind it, a copy
of it, and the same name begun again. -/
theorem answers_follow_marks_past_error :
    let v : View :=
      { policy := default, bytes := [0, 1, 2, 2, 3, 0, 1] }
    let steps : List (String × Step) :=
      [("a", .nth 1), ("a", .offset), ("a", .clone "b"), ("b", .next),
        ("b", .sizeHint), ("a", .restart), ("a", .next), ("b", .nth 3)]
    let m := (Marks.start v).run steps
    ((ofView v).run steps).answer.1
        = [.item (some (.error (.truncatedPayload 5 3 2))), .offset 3,
            .cloned, .item none, .sizeHint 0 0, .restarted,
            .item (some (.ok { tag := 0, offset := 2, payload := [2] })),
            .item none]
      ∧ .error (.truncatedPayload 5 3 2)
        ∈ v.items.answer.take (m.2.place "b")
      ∧ m.2.place "b" = v.items.answer.length := by
  intro v steps m
  have hitems : v.items.answer
      = [.ok { tag := 0, offset := 2, payload := [2] },
        .error (.truncatedPayload 5 3 2)] := by decide +kernel
  have hfinish : Item.finishFrom 0
      [.ok { tag := 0, offset := 2, payload := [2] },
        .error (.truncatedPayload 5 3 2)] = 3 := rfl
  have hplace : m.2.place "b" = 2 := by
    simp [m, steps, Marks.run, Marks.perform, Marks.move, Marks.start,
      hitems]
  have hmem : .error (.truncatedPayload 5 3 2)
      ∈ v.items.answer.take (m.2.place "b") := by
    rw [hplace, hitems]
    decide
  obtain ⟨hanswers, -, -, -, hend⟩ := answers_follow_marks v steps
  refine ⟨?_, hmem, hend "b" _ hmem⟩
  rw [hanswers]
  simp [steps, Marks.run, Marks.perform, Marks.move, Marks.start, hitems,
    hfinish, Except.toBool]

end Desk

end Tlv
