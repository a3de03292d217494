/-
The bound of a cursor is a measure of its traversal. It is zero exactly
at the end (`bound_eq_zero_iff`), and it pays for every item that is
passed (`bound_advance_add_le`), so that no more items can come than it
says (`length_toList_le_bound`). At the start it is the number of headers
that the bytes have room for, rounded up; a header torn by the end of the
bytes is the one that is rounded up to.

Every cursor at a desk stands in the bytes of the view, hence its bound
is that of the bytes behind its place, and the subtraction in it is one
of places in order (`Desk.sizeHint_measure`).
-/
import Mathlib.Algebra.Order.Floor.Div
import Tlv.Proofs.Places

namespace Tlv

namespace Cursor

-- ========================================================= the measure

/-- Nothing more can come exactly if nothing does. -/
theorem bound_eq_zero_iff (c : Cursor) : c.bound = 0 ↔ c.step = none := by
  have hpos := c.policy.headerLen_pos
  constructor
  · intro hzero
    cases hstep : c.step with
    | none => rfl
    | some r =>
        obtain ⟨item, c'⟩ := r
        have hless := bound_lt_of_step_eq_some hstep
        omega
  · intro hstep
    unfold step at hstep
    split at hstep
    · next hdone =>
      unfold bound
      by_cases hfailed : c.failed = true
      · exact if_pos hfailed
      · have hempty : c.rest = [] := by simpa [hfailed] using hdone
        rw [if_neg hfailed, hempty, List.length_nil, Nat.zero_add]
        exact Nat.div_eq_of_lt (Nat.sub_lt hpos Nat.one_pos)
    · split at hstep <;> cases hstep

/-- The bound pays for every item that is passed. -/
theorem bound_advance_add_le {c : Cursor} {k : Nat}
    (hk : k ≤ c.toList.length) : (c.advance k).bound + k ≤ c.bound := by
  -- on the items that are passed: each of them lowers the bound
  induction k generalizing c with
  | zero => exact Nat.le_refl _
  | succ k ih =>
      cases hstep : c.step with
      | none =>
          rw [toList_of_step_eq_none hstep] at hk
          cases hk
      | some r =>
          obtain ⟨item, c'⟩ := r
          rw [toList_of_step_eq_some hstep, List.length_cons] at hk
          have hless := bound_lt_of_step_eq_some hstep
          have hrest := ih (c := c') (by omega)
          rw [advance_of_step_eq_some hstep]
          omega

/-- Every item costs one of the bound, so there are no more items than
that. -/
theorem length_toList_le_bound (c : Cursor) :
    c.toList.length ≤ c.bound := by
  have hall := bound_advance_add_le (Nat.le_refl c.toList.length)
  omega

/-- The bound is the number of headers that the bytes behind the cursor
have room for, rounded up, unless the cursor is spent. -/
theorem Over.bound_eq {c : Cursor} {bytes : Bytes} (h : c.Over bytes) :
    c.bound = if c.failed then 0
      else (bytes.length - c.offset) ⌈/⌉ c.policy.headerLen := by
  rw [bound, h.length_rest, Nat.ceilDiv_eq_add_pred_div]

/-- At the start the bound is the number of headers that there is room
for. -/
theorem bound_start (v : View) :
    v.start.bound = v.actualLength ⌈/⌉ v.policy.headerLen :=
  (over_start v).bound_eq

end Cursor

-- =============================================================== desks

/-- Whatever has been done at a desk, the bound that a cursor answers is
a measure of what is left of its traversal. It is computed without a
fault, it is zero exactly if nothing more comes, every item that comes
leaves a smaller one, and no more items come than it says. So a traversal
of a view has no more items than there is room for headers in its bytes,
rounded up. -/
theorem Desk.sizeHint_measure (v : View) (steps : List (String × Step))
    (name : String) :
    let d := ((ofView v).run steps).answer.2
    let c := d.cursor name
    let u := c.bound
    (d.perform name .sizeHint).answer = (.sizeHint 0 u, d)
      ∧ (c.indexed v.bytes).bound = .ok u
      ∧ c.offset ≤ v.actualLength
      ∧ u = (if c.failed then 0
          else (v.actualLength - c.offset) ⌈/⌉ v.policy.headerLen)
      ∧ c.count.answer.1 ≤ u
      ∧ c.collect.answer.1.length ≤ u
      ∧ (u = 0 ↔ c.next.answer.1 = none)
      ∧ (∀ item c', c.next.answer = (some item, c') → c'.bound < u)
      ∧ (∀ n, u ≤ n → (c.nth n).answer.1 = none)
      ∧ v.items.answer.length ≤ v.actualLength ⌈/⌉ v.policy.headerLen := by
  intro d c u
  have hover : c.Over v.bytes := over_cursor v steps name
  have hle : c.toList.length ≤ u := c.length_toList_le_bound
  obtain ⟨k, hk⟩ := exists_cursor_eq_advance v steps name
  have hpolicy : c.policy = v.policy := by
    rw [show c = v.start.advance k from hk]
    exact (Cursor.passed_advance k v.start).policy_eq
  have hnext : c.next.answer = (c.toList[0]?, c.advance 1) :=
    c.answer_nth 0
  refine ⟨rfl, hover.bound_indexed, hover.offset_le, ?_, ?_, ?_, ?_, ?_, ?_,
    ?_⟩
  · rw [← hpolicy]
    exact hover.bound_eq
  · rw [Cursor.answer_count]
    exact hle
  · rw [Cursor.answer_collect]
    exact hle
  -- the bound is nothing where a step is not possible any more
  · rw [Cursor.bound_eq_zero_iff, hnext]
    cases hstep : c.step with
    | none => simp [Cursor.toList_of_step_eq_none hstep]
    | some r => simp [Cursor.toList_of_step_eq_some hstep]
  · intro item c' hitem
    rw [hnext] at hitem
    obtain ⟨hfirst, rfl⟩ := Prod.mk.inj hitem
    obtain ⟨hpos, -⟩ := List.getElem?_eq_some_iff.1 hfirst
    have hpays := Cursor.bound_advance_add_le (c := c) (k := 1) hpos
    omega
  -- skipping as many items as the bound allows leaves none
  · intro n hn
    rw [Cursor.answer_nth]
    exact List.getElem?_eq_none (Nat.le_trans hle hn)
  · rw [← View.toList_start, ← Cursor.bound_start]
    exact v.start.length_toList_le_bound

/-- Empty elements with a byte behind them. The bound is met: as many
items come as it says, the last of them the error. -/
theorem Desk.sizeHint_measure_empty_elements :
    let v : View := { policy := default, bytes := [0, 0, 1, 0, 2] }
    let c := ((ofView v).run [("a", .next)]).answer.2.cursor "a"
    c.bound = 2
      ∧ c.next.answer.1
        = some (.ok { tag := 1, offset := 4, payload := [] })
      ∧ c.next.answer.2.bound < 2
      ∧ (c.nth 1).answer.1 = some (.error (.truncatedHeader 4 1 2))
      ∧ (c.nth 2).answer.1 = none := by
  intro v c
  have hbound : c.bound = 2 := by decide +kernel
  have hnext : c.next.answer
      = (some (.ok { tag := 1, offset := 4, payload := [] }),
          c.next.answer.2) := by decide +kernel
  have herror : (c.nth 1).answer.1
      = some (.error (.truncatedHeader 4 1 2)) := by decide +kernel
  obtain ⟨-, -, -, -, -, -, -, hless, hend, -⟩ :=
    sizeHint_measure v [("a", .next)] "a"
  have hafter : c.next.answer.2.bound < c.bound := hless _ _ hnext
  rw [hbound] at hafter
  exact ⟨hbound, congrArg Prod.fst hnext, hafter, herror,
    hend 2 (Nat.le_of_eq hbound)⟩

end Tlv
