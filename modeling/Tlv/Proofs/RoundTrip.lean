/-
Reading back what a session has written. The storage of an encoder,
decoded under the encoder's policy up to its position, yields one
element for each entry accepted since the storage was last begun on, in
the order of the calls (`decode_session`). Neither refused calls nor
what the storage held before, also under another policy, can be seen in
it.

The writer's half is that the bytes up to the position are the encodings
of those entries (`Encoder.Filled`), the reader's half that a traversal
of encodings yields their elements (`Policy.reads_encodeAll`).
-/
import Tlv.Proofs.Session
import Tlv.Proofs.Traversal

namespace Tlv

/-- Where entries are read, by the sizes of those before them. -/
theorem Policy.layout_eq_mapIdx_sum (p : Policy) (xs : List Entry) :
    p.layout 0 xs
      = xs.mapIdx fun i x =>
          { tag := if p.typeWidth.bytes = 0 then 0 else x.tag
            offset := p.headerLen
              + ((xs.take i).map fun y =>
                  p.headerLen + y.payload.length).sum
            payload := x.payload } := by
  rw [layout_eq_mapIdx]
  congr 1
  funext i x
  rw [placed, length_encodeAll, Nat.zero_add, Nat.add_comm]
  rfl

namespace Encoder

/-- In every state that a session reaches, the storage decodes under the
policy of the encoder, without error, to one element for each entry
accepted since the storage was last begun on: with its tag, if headers
carry one, with its payload, and behind the frames of those before it.
Closing the encoder gives a buffer that reads the same and holds the
same bytes. -/
theorem decode_session (policy : Policy) (start : Start)
    (calls : List Call) :
    let r := (session policy start calls).answer
    let e := r.1
    let xs := accepted (calls.zip r.2)
    let es : List Element := xs.mapIdx fun i x =>
      { tag := if e.policy.typeWidth.bytes = 0 then 0 else x.tag
        offset := e.policy.headerLen
          + ((xs.take i).map fun y =>
              e.policy.headerLen + y.payload.length).sum
        payload := x.payload }
    r.2.length = calls.length
      ∧ (∃ v, View.ofBuffer e.policy e.storage e.actualLength = .ok v
          ∧ v.Reads es)
      ∧ e.freeze.answer.view.Reads es
      ∧ e.freeze.answer.bytes = e.bytes := by
  have hfilled := filled_session policy start calls
  dsimp only at hfilled ⊢
  have hreads := Policy.reads_encodeAll hfilled.fits
  rw [← hfilled.bytes_eq] at hreads
  rw [← Policy.layout_eq_mapIdx_sum]
  refine ⟨?_, ⟨_, ?_, hreads⟩, hreads, rfl⟩
  · rw [answer_session, length_answer_run]
  · rw [View.ofBuffer, Bytes.split?_eq, actualLength,
      if_pos (session policy start calls).answer.1.position_le]
    rfl

end Encoder

end Tlv
