/-
Where a cursor stands after some items. A cursor that has yielded `k` of
them is `advance k` of the one it was, and everything about it is a
matter of the list it began with: it has the items from the `k`-th on
before it (`toList_advance`) and the first `k` behind it
(`passed_advance`), which say where its next header begins, how much of
the buffer is left, and whether it is spent.

So the movements of a cursor are movements of a number: `nth` yields the
`n`-th item to come and leaves the cursor behind it (`run_nth`), and at
the end of the list there is one cursor, however it was reached
(`advance_of_length_le`).
-/
import Tlv.Proofs.Truncation

namespace Tlv

/-- Where the last element among some items ends, or `offset` if there
is none. -/
def Item.finishFrom (offset : Nat) (items : List Item) : Nat :=
  ((Item.elements items).getLast?.map Element.finish).getD offset

/-- An element moves the end to where its payload ends. -/
theorem Item.finishFrom_ok_cons (offset : Nat) (e : Element)
    (items : List Item) :
    Item.finishFrom offset (.ok e :: items)
      = Item.finishFrom e.finish items := by
  have hcons : Item.elements (.ok e :: items)
      = e :: Item.elements items := rfl
  rw [finishFrom, finishFrom, hcons, List.getLast?_cons]
  cases (Item.elements items).getLast? <;> rfl

namespace Cursor

-- ============================================================ one step

/-- A step yields an element and moves behind it, or yields an error and
spends the cursor where it stands. -/
theorem step_cases {c c' : Cursor} {item : Item}
    (h : c.step = some (item, c')) :
    (∃ e rest, item = .ok e ∧ c' = { c with offset := e.finish, rest }
        ∧ e.finish + rest.length = c.offset + c.rest.length
        ∧ c.failed = false)
      ∨ ∃ error, item = .error error ∧ c' = { c with failed := true }
        ∧ c.failed = false := by
  unfold step at h
  split at h
  · cases h
  · next hc =>
    obtain ⟨hfailed, -⟩ : c.failed = false ∧ c.rest ≠ [] := by simpa using hc
    split at h
    · next e rest hread =>
      cases h
      refine Or.inl ⟨e, rest, rfl, rfl, ?_, hfailed⟩
      have hlen := Policy.length_of_readFrame_eq_ok hread
      have hoffset := Policy.offset_of_readFrame_eq_ok hread
      unfold Element.finish
      omega
    · next error _ =>
      cases h
      exact Or.inr ⟨error, rfl, rfl, hfailed⟩

-- ========================================================== many steps

/-- The cursor behind the next `k` items, or behind all of them if there
are fewer. -/
def advance : Nat → Cursor → Cursor
  | 0, c => c
  | k + 1, c =>
    match c.step with
    | none => c
    | some (_, c') => c'.advance k

theorem advance_of_step_eq_none {c : Cursor} (h : c.step = none)
    (k : Nat) : c.advance k = c := by
  cases k with
  | zero => rfl
  | succ k => rw [advance, h]

/-- The first of some steps is a step. -/
theorem advance_of_step_eq_some {c c' : Cursor} {item : Item}
    (h : c.step = some (item, c')) (k : Nat) :
    c.advance (k + 1) = c'.advance k := by
  rw [advance, h]

/-- Steps taken in two goes are as many in one. -/
theorem advance_advance (j k : Nat) (c : Cursor) :
    (c.advance j).advance k = c.advance (j + k) := by
  induction j generalizing c with
  | zero =>
      rw [Nat.zero_add]
      rfl
  | succ j ih =>
      cases h : c.step with
      | none => simp only [advance_of_step_eq_none h]
      | some r =>
          rw [advance_of_step_eq_some h, ih, Nat.add_right_comm,
            advance_of_step_eq_some h]

/-- The items left are those that have not been stepped over. -/
theorem toList_advance (k : Nat) (c : Cursor) :
    (c.advance k).toList = c.toList.drop k := by
  induction k generalizing c with
  | zero => rfl
  | succ k ih =>
      cases h : c.step with
      | none =>
          rw [advance_of_step_eq_none h, toList_of_step_eq_none h,
            List.drop_nil]
      | some r =>
          rw [advance_of_step_eq_some h, ih, toList_of_step_eq_some h,
            List.drop_succ_cons]

/-- Going on at the end of the list changes nothing. -/
theorem advance_of_length_le {k : Nat} {c : Cursor}
    (hk : c.toList.length ≤ k) : c.advance k = c.last := by
  induction k generalizing c with
  | zero =>
      cases h : c.step with
      | none =>
          rw [last_of_step_eq_none h]
          rfl
      | some r =>
          rw [toList_of_step_eq_some h, List.length_cons] at hk
          cases hk
  | succ k ih =>
      cases h : c.step with
      | none => rw [advance_of_step_eq_none h, last_of_step_eq_none h]
      | some r =>
          rw [toList_of_step_eq_some h, List.length_cons] at hk
          rw [advance_of_step_eq_some h, last_of_step_eq_some h]
          exact ih (Nat.le_of_succ_le_succ hk)

/-- An error is the last item of its list. -/
theorem length_of_getElem?_eq_error {c : Cursor} {i : Nat}
    {error : DecodeError} (h : c.toList[i]? = some (.error error)) :
    i + 1 = c.toList.length := by
  have hdrop := toList_advance i c
  have hfirst : (c.advance i).toList[0]? = some (.error error) := by
    rw [hdrop, List.getElem?_drop, Nat.add_zero, h]
  cases hstep : (c.advance i).step with
  | none =>
      rw [toList_of_step_eq_none hstep] at hfirst
      cases hfirst
  | some r =>
      obtain ⟨item, c'⟩ := r
      rw [toList_of_step_eq_some hstep] at hfirst
      obtain rfl : item = .error error := Option.some.inj hfirst
      have hlen := congrArg List.length hdrop
      rw [toList_of_step_eq_error hstep, List.length_singleton,
        List.length_drop] at hlen
      omega

-- =========================================================== movements

/-- Skipping `n` items yields the one behind them, and leaves one record
for an error that is met on the way. -/
theorem run_nth (n : Nat) (c : Cursor) (log : Array Record) :
    (c.nth n).run log
      = ((c.toList[n]?, c.advance (n + 1)),
          log ++ ((c.toList.take (n + 1)).flatMap Item.records).toArray) := by
  induction n generalizing c log with
  | zero =>
      cases h : c.step with
      | none =>
          rw [nth, next, h, toList_of_step_eq_none h,
            advance_of_step_eq_none h]
          simp
          rfl
      | some r =>
          rw [nth, next, h, toList_of_step_eq_some h,
            advance_of_step_eq_some h]
          simp only [Item.run_warn_bind]
          simp
          rfl
  | succ n ih =>
      cases h : c.step with
      | none =>
          rw [nth, Logged.run_bind, next, h, toList_of_step_eq_none h,
            advance_of_step_eq_none h]
          simp
          rfl
      | some r =>
          -- one step says what there is to say of its item, the rest follows
          have hnext : c.next.run log
              = ((some r.1, r.2), log ++ r.1.records.toArray) := by
            rw [next, h]
            exact Item.run_warn_bind ..
          rw [nth, Logged.run_bind, hnext]
          dsimp only
          rw [ih, toList_of_step_eq_some h, advance_of_step_eq_some h]
          simp

/-- Skipping `n` items and moving on answers the item at this place and
leaves the cursor behind it. -/
theorem answer_nth (n : Nat) (c : Cursor) :
    (c.nth n).answer = (c.toList[n]?, c.advance (n + 1)) :=
  congrArg Prod.fst (run_nth n c #[])

/-- Counting moves to the end. -/
theorem answer_count (c : Cursor) :
    c.count.answer = (c.toList.length, c.last) := by
  rw [count, Logged.answer, run_countFrom, Nat.zero_add]

theorem answer_collect (c : Cursor) :
    c.collect.answer = (c.toList, c.last) :=
  congrArg Prod.fst (run_collectFrom [] c #[])

-- ============================================================== behind

/-- The cursor `c'` is `c` after the items `met`. -/
structure Passed (c : Cursor) (met : List Item) (c' : Cursor) : Prop where
  policy_eq : c'.policy = c.policy
  offset_eq : c'.offset = Item.finishFrom c.offset met
  size_eq : c'.offset + c'.rest.length = c.offset + c.rest.length
  failed_eq : c'.failed = (c.failed || !met.all Except.toBool)

theorem Passed.refl (c : Cursor) : c.Passed [] c :=
  ⟨rfl, rfl, rfl, by simp⟩

theorem Passed.of_step {c c' c'' : Cursor} {item : Item} {met : List Item}
    (hstep : c.step = some (item, c')) (h : c'.Passed met c'') :
    c.Passed (item :: met) c'' := by
  rcases step_cases hstep with
    ⟨e, rest, rfl, rfl, hsize, hfailed⟩ | ⟨error, rfl, rfl, hfailed⟩
  · refine ⟨h.policy_eq, ?_, h.size_eq.trans hsize, ?_⟩
    · rw [h.offset_eq, Item.finishFrom_ok_cons]
    · rw [h.failed_eq]
      simp [Except.toBool]
  · -- an error is no element, so the place stays where it was
    refine ⟨h.policy_eq, h.offset_eq, h.size_eq, ?_⟩
    rw [h.failed_eq]
    simp [Except.toBool]

/-- Steps meet the items they step over. -/
theorem passed_advance (k : Nat) (c : Cursor) :
    c.Passed (c.toList.take k) (c.advance k) := by
  induction k generalizing c with
  | zero => exact Passed.refl c
  | succ k ih =>
      cases h : c.step with
      | none =>
          rw [advance_of_step_eq_none h, toList_of_step_eq_none h]
          exact Passed.refl c
      | some r =>
          rw [advance_of_step_eq_some h, toList_of_step_eq_some h,
            List.take_succ_cons]
          exact Passed.of_step h (ih r.2)

end Cursor

end Tlv
