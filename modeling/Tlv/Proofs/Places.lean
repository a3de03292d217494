/-
Where cursors stand. A cursor keeps the bytes from its place on, and that
they are the end of the buffer is a promise that every step keeps
(`Cursor.Over.of_step`), so it holds of every cursor at a desk, whatever
has been done there (`Desk.over_cursor`).

On this promise rests all arithmetic on places. A cursor that keeps the
whole buffer, and checks each sum and each cut, takes the same steps and
never ends in a fault (`Cursor.Over.step_indexed`), and neither does its
bound (`Cursor.Over.bound_indexed`).
-/
import Tlv.Cursor.Indexed
import Tlv.Proofs.Marks

namespace Tlv

/-- Rounding up with a remainder and with a sum is the same. -/
theorem Checked.divUp_eq_ok {a b : Nat} (h : 0 < b) :
    divUp a b = .ok ((a + b - 1) / b) := by
  have hparts := Nat.div_add_mod a b
  have hlt := Nat.mod_lt a h
  rw [divUp, if_neg (by omega)]
  by_cases hrest : a % b = 0
  · have hsum : a + b - 1 = b * (a / b) + (b - 1) := by omega
    rw [if_pos hrest, hsum, Nat.mul_add_div h,
      Nat.div_eq_of_lt (Nat.sub_lt h Nat.one_pos), Nat.add_zero]
  · have hsum : a + b - 1 = b * (a / b + 1) + (a % b - 1) := by
      rw [Nat.mul_add]
      omega
    have hlow : a % b - 1 < b := by omega
    rw [if_neg hrest, hsum, Nat.mul_add_div h, Nat.div_eq_of_lt hlow,
      Nat.add_zero]

/-- What is read is the frame at the front, and what is handed back
stands behind it. -/
theorem Policy.of_readFrame_eq_ok {p : Policy} {offset : Nat}
    {bytes rest : Bytes} {e : Element}
    (h : p.readFrame offset bytes = .ok (e, rest)) :
    ¬ p.Torn bytes ∧ e = p.placed offset (p.front bytes)
      ∧ rest = bytes.drop (p.headerLen + p.declared bytes) := by
  rw [readFrame_eq] at h
  split at h
  · cases h
  · split at h
    · cases h
    · next htorn =>
      cases h
      exact ⟨htorn, rfl, rfl⟩

namespace Cursor

variable {c c' : Cursor} {bytes : Bytes} {item : Item}

-- ========================================================= the promise

/-- The cursor stands in these bytes and has their end before it. -/
structure Over (c : Cursor) (bytes : Bytes) : Prop where
  offset_le : c.offset ≤ bytes.length
  rest_eq : c.rest = bytes.drop c.offset

/-- At the start the whole buffer is left. -/
theorem over_start (v : View) : v.start.Over v.bytes :=
  ⟨Nat.zero_le _, rfl⟩

/-- What is left is what the offset leaves. -/
theorem Over.length_rest (h : c.Over bytes) :
    c.rest.length = bytes.length - c.offset := by
  rw [h.rest_eq, List.length_drop]

theorem Over.of_step (h : c.Over bytes) (hstep : c.step = some (item, c')) :
    c'.Over bytes := by
  have hle := h.offset_le
  have hlength := h.length_rest
  unfold step at hstep
  split at hstep
  · cases hstep
  · split at hstep
    · next e rest hread =>
      cases hstep
      obtain ⟨htorn, rfl, rfl⟩ := Policy.of_readFrame_eq_ok hread
      have hfinish : (c.policy.placed c.offset (c.policy.front c.rest)).finish
          = c.offset + (c.policy.headerLen + c.policy.declared c.rest) := by
        rw [Policy.finish_placed, Policy.length_encode,
          Policy.length_payload_front htorn]
      unfold Policy.Torn at htorn
      refine ⟨?_, ?_⟩
      · dsimp only
        rw [hfinish]
        omega
      · dsimp only
        rw [hfinish, h.rest_eq, List.drop_drop]
    · cases hstep
      exact ⟨hle, h.rest_eq⟩

theorem Over.advance (h : c.Over bytes) (k : Nat) :
    (c.advance k).Over bytes := by
  induction k generalizing c with
  | zero => exact h
  | succ k ih =>
      cases hstep : c.step with
      | none =>
          rw [advance_of_step_eq_none hstep]
          exact h
      | some r =>
          rw [advance_of_step_eq_some hstep]
          exact ih (h.of_step hstep)

-- ============================================================== checked

/-- A step with every sum and every cut checked is a step. -/
theorem Over.step_indexed (h : c.Over bytes)
    (hlimit : bytes.length < Checked.sizeLimit) :
    (c.indexed bytes).step
      = .ok (c.step.map fun r => (r.1, r.2.indexed bytes)) := by
  have hle := h.offset_le
  have hlength := h.length_rest
  have hempty : (c.offset == bytes.length) = c.rest.isEmpty := by
    rw [Bool.eq_iff_iff, beq_iff_eq, List.isEmpty_iff,
      ← List.length_eq_zero_iff]
    omega
  have hend : ((c.indexed bytes).failed
      || (c.indexed bytes).offset == (c.indexed bytes).bytes.length)
      = (c.failed || c.rest.isEmpty) := by
    rw [← hempty]
    rfl
  unfold IndexedCursor.step step
  rw [hend]
  -- both end at the same time
  by_cases hdone : (c.failed || c.rest.isEmpty) = true
  case pos =>
    rw [if_pos hdone, if_pos hdone]
    rfl
  rw [if_neg hdone, if_neg hdone]
  dsimp only [indexed, bind, Except.bind]
  rw [Checked.split_eq_ok hle, ← h.rest_eq]
  dsimp only
  unfold Policy.readFrame
  -- the bytes left are the same, so they are cut alike; the sums are
  -- below the length of the buffer once there is something to cut
  cases hheader : c.rest.split? c.policy.headerLen with
  | none => rfl
  | some parts =>
      obtain ⟨header, body⟩ := parts
      obtain ⟨hrest, hsize⟩ := Bytes.split?_eq_some_iff.1 hheader
      have hparts := congrArg List.length hrest
      rw [List.length_append] at hparts
      have hwidth : c.policy.typeWidth.bytes ≤ header.length := by
        rw [hsize]
        exact Nat.le_add_right ..
      dsimp only
      rw [Checked.split_eq_ok hwidth, Checked.add_eq_ok (by omega)]
      dsimp only
      cases hbody : body.split? (BigEndian.readUInt32
          (header.drop c.policy.typeWidth.bytes)).toNat with
      | none => rfl
      | some parts =>
          obtain ⟨payload, rest⟩ := parts
          obtain ⟨hsplit, hdeclared⟩ := Bytes.split?_eq_some_iff.1 hbody
          have hpieces := congrArg List.length hsplit
          rw [List.length_append] at hpieces
          dsimp only
          rw [Checked.add_eq_ok (by omega), ← hdeclared]
          rfl

/-- The bound comes from the offset without a fault. -/
theorem Over.bound_indexed (h : c.Over bytes) :
    (c.indexed bytes).bound = .ok c.bound := by
  have hfailed : (c.indexed bytes).failed = c.failed := rfl
  unfold IndexedCursor.bound bound
  rw [hfailed]
  by_cases hspent : c.failed = true
  · rw [if_pos hspent, if_pos hspent]
    rfl
  · rw [if_neg hspent, if_neg hspent, h.length_rest]
    dsimp only [indexed, bind, Except.bind]
    rw [Checked.sub_eq_ok h.offset_le]
    exact Checked.divUp_eq_ok c.policy.headerLen_pos

end Cursor

-- =============================================================== desks

namespace Desk

/-- A cursor at a desk stands behind some of the items of the view. -/
theorem exists_cursor_eq_advance (v : View) (steps : List (String × Step))
    (name : String) :
    ∃ k, ((ofView v).run steps).answer.2.cursor name
      = v.start.advance k := by
  obtain ⟨d, hrun, hfollows⟩ := (follows_ofView v).run_run steps #[]
  have hanswer : ((ofView v).run steps).answer
      = (((Marks.start v).run steps).1, d) := congrArg Prod.fst hrun
  rw [hanswer]
  exact ⟨_, hfollows.cursor_eq name⟩

/-- Every cursor that steps at a desk can lead to is within the buffer. -/
theorem over_cursor (v : View) (steps : List (String × Step))
    (name : String) :
    (((ofView v).run steps).answer.2.cursor name).Over v.bytes := by
  obtain ⟨k, hk⟩ := exists_cursor_eq_advance v steps name
  rw [hk]
  exact (Cursor.over_start v).advance k

end Desk

end Tlv
