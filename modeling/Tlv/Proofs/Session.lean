/-
Sessions: an encoder, and any calls on it. Among the calls some are
refused and some start over on the storage, so what is in the storage at
the end is a matter of the calls since it was last begun on: the entries
accepted since then (`accepted`) and the storage as it was then
(`origin`).

The storage holds the encodings of those entries and, behind them, what
it held before (`Filled`). One call keeps this, whatever becomes of it
(`Filled.perform`), hence so does any run of them (`Filled.run`), and it
determines every byte of the storage in every state a session reaches
(`storage_session`).
-/
import Tlv.Encoder.Run
import Tlv.Proofs.Frame

namespace Tlv.Encoder

-- ============================================================ sessions

/-- How a session comes by its storage. -/
inductive Start where
  /-- Fresh storage, all zero. -/
  | allocate (capacity : Nat)
  /-- Storage of the caller's. -/
  | wrap (storage : Bytes)

/-- The storage that a session begins on. -/
def Start.storage : Start → Bytes
  | allocate capacity => List.replicate capacity 0
  | wrap storage => storage

/-- The encoder that a session begins with. -/
def Start.encoder (policy : Policy) : Start → Logged Encoder
  | allocate capacity => Encoder.allocate policy capacity
  | wrap storage => Encoder.wrap policy storage

/-- An encoder and some calls on it: the encoder at the end, and what
became of each call. -/
def session (policy : Policy) (start : Start) (calls : List Call) :
    Logged (Encoder × List (Except Error Unit)) := do
  let e ← start.encoder policy
  e.run calls

/-- The entries in the storage after a call, given those before it. -/
def extend (xs : List Entry) : Call × Except Error Unit → List Entry
  | (.push tag value, .ok ()) => xs ++ [{ tag, payload := value.payload }]
  | (.rewrap _ _, .ok ()) => []
  | (_, .error _) => xs

/-- The entries accepted since the storage was last begun on, by what
became of the calls. -/
def accepted (events : List (Call × Except Error Unit)) : List Entry :=
  events.foldl extend []

/-- The storage as it was when it was last begun on: when the last call
started over that was not refused, or else at `origin`. -/
def originFrom (origin : Bytes) (e : Encoder) : List Call → Bytes
  | [] => origin
  | call :: calls =>
      match call, (e.perform call).answer with
      | .rewrap _ _, (e', .ok ()) => e'.originFrom e.storage calls
      | _, (e', _) => e'.originFrom origin calls

/-- The storage of a session as it was when it was last begun on. -/
def origin (policy : Policy) (start : Start) (calls : List Call) : Bytes :=
  (start.encoder policy).answer.originFrom start.storage calls

-- ============================================================ one call

/-- A write that is accepted has room in headers and in the storage, and
puts the encoding of its entry where the encoder stands. -/
theorem of_push_eq_ok {e e' : Encoder} {x : Entry}
    (h : e.push x.tag x.payload = .ok e') :
    e.policy.Fits x ∧ (e.policy.encode x).length ≤ e.remaining
      ∧ e'.policy = e.policy
      ∧ e'.position = e.position + (e.policy.encode x).length
      ∧ e'.storage
        = e.storage.overwrite e.position (e.policy.encode x) := by
  unfold push at h
  dsimp only at h
  -- a put that is accepted has passed each of the three checks
  by_cases htag : e.policy.fitsTag x.tag = true
  case neg =>
    rw [if_pos (by simpa using htag)] at h
    cases h
  rw [if_neg (by simpa using htag)] at h
  by_cases hlen : e.policy.maxPayloadLen < x.payload.length
  case pos =>
    rw [if_pos hlen] at h
    cases h
  rw [if_neg hlen] at h
  by_cases hroom : e.remaining < e.policy.headerLen + x.payload.length
  case pos =>
    rw [dif_pos hroom] at h
    cases h
  rw [dif_neg hroom] at h
  cases h
  have hfits : e.policy.Fits x :=
    Policy.fits_iff.2 ⟨htag, Nat.le_of_not_lt hlen⟩
  rw [Policy.length_encode]
  exact ⟨hfits, Nat.le_of_not_lt hroom, rfl, rfl,
    by rw [← Policy.frame_eq_encode hfits]⟩

/-- An accepted write stays inside the storage. -/
theorem capacity_of_push_eq_ok {e e' : Encoder} {x : Entry}
    (h : e.push x.tag x.payload = .ok e') : e'.capacity = e.capacity := by
  obtain ⟨-, hroom, -, -, hstorage⟩ := of_push_eq_ok h
  have := e.position_le
  unfold remaining capacity at hroom
  rw [capacity, hstorage, Bytes.length_overwrite (by omega), capacity]

/-- A frame takes its own size from the room that is left. -/
theorem remaining_of_push_eq_ok {e e' : Encoder} {x : Entry}
    (h : e.push x.tag x.payload = .ok e') :
    e.remaining = (e.policy.encode x).length + e'.remaining := by
  obtain ⟨-, hroom, -, hposition, -⟩ := of_push_eq_ok h
  have hcapacity := capacity_of_push_eq_ok h
  unfold remaining at *
  rw [hposition, hcapacity]
  omega

/-- An entry that has room in headers and in the storage is accepted. -/
theorem exists_push_eq_ok {e : Encoder} {x : Entry}
    (hfits : e.policy.Fits x)
    (hroom : (e.policy.encode x).length ≤ e.remaining) :
    ∃ e', e.push x.tag x.payload = .ok e' := by
  obtain ⟨htag, hlen⟩ := Policy.fits_iff.1 hfits
  rw [Policy.length_encode] at hroom
  unfold push
  dsimp only
  rw [if_neg (by simpa using htag), if_neg (Nat.not_lt_of_le hlen),
    dif_neg (Nat.not_lt_of_le hroom)]
  exact ⟨_, rfl⟩

/-- A call writes an entry, or starts over, or is refused and leaves the
encoder as it was. -/
theorem perform_cases (e : Encoder) (call : Call) :
    (∃ tag value e', call = .push tag value
        ∧ e.push tag value.payload = .ok e'
        ∧ (e.perform call).answer = (e', .ok ()))
      ∨ (∃ typeWidth lengthWidth policy,
          call = .rewrap typeWidth lengthWidth
          ∧ Policy.ofWidths typeWidth lengthWidth = .ok policy
          ∧ (e.perform call).answer
            = (ofStorage policy e.storage, .ok ()))
      ∨ ∃ error, (e.perform call).answer = (e, .error error) := by
  cases call with
  | push tag value =>
      cases hpush : e.push tag value.payload with
      | error error =>
          exact Or.inr (Or.inr ⟨.encode error, by rw [perform, hpush]; rfl⟩)
      | ok e' =>
          exact Or.inl ⟨tag, value, e', rfl, hpush,
            by rw [perform, hpush]; rfl⟩
  | rewrap typeWidth lengthWidth =>
      cases hpolicy : Policy.ofWidths typeWidth lengthWidth with
      | error error =>
          exact Or.inr (Or.inr
            ⟨.policy error, by rw [perform, hpolicy]; rfl⟩)
      | ok policy =>
          exact Or.inr (Or.inl ⟨typeWidth, lengthWidth, policy, rfl,
            hpolicy, by rw [perform, hpolicy]; rfl⟩)

/-- What a call answers does not depend on the log. -/
theorem steady_perform (e : Encoder) (call : Call) :
    Logged.Steady (e.perform call) := by
  intro log
  cases call with
  | push tag value =>
      cases hpush : e.push tag value.payload with
      | ok e' => rw [perform, hpush]; rfl
      | error error => rw [perform, hpush]; rfl
  | rewrap typeWidth lengthWidth =>
      cases hpolicy : Policy.ofWidths typeWidth lengthWidth with
      | ok policy => rw [perform, hpolicy]; rfl
      | error error => rw [perform, hpolicy]; rfl

theorem steady_run (e : Encoder) (calls : List Call) :
    Logged.Steady (e.run calls) := by
  induction calls generalizing e with
  | nil => exact Logged.steady_pure _
  | cons call calls ih =>
      refine (steady_perform e call).bind fun r => ?_
      exact (ih r.1).bind fun _ => Logged.steady_pure _

theorem answer_run_cons (e : Encoder) (call : Call) (calls : List Call) :
    (e.run (call :: calls)).answer
      = ((((e.perform call).answer.1).run calls).answer.1,
          (e.perform call).answer.2
            :: (((e.perform call).answer.1).run calls).answer.2) := by
  rw [run, Logged.answer_bind]
  · exact Logged.answer_bind fun _ => Logged.steady_pure _
  · intro r
    exact (steady_run r.1 calls).bind fun _ => Logged.steady_pure _

theorem length_answer_run (e : Encoder) (calls : List Call) :
    (e.run calls).answer.2.length = calls.length := by
  induction calls generalizing e with
  | nil => rfl
  | cons call calls ih =>
      rw [answer_run_cons, List.length_cons, ih, List.length_cons]

/-- A session is a run over its storage. -/
theorem answer_session (policy : Policy) (start : Start)
    (calls : List Call) :
    (session policy start calls).answer
      = ((ofStorage policy start.storage).run calls).answer := by
  rw [session, Logged.answer_bind fun e => steady_run e calls]
  cases start <;> rfl

-- ======================================================= the invariant

/-- The storage holds some entries and, behind them, what it held
before. -/
structure Filled (e : Encoder) (origin : Bytes) (xs : List Entry) :
    Prop where
  storage_eq : e.storage = e.policy.encodeAll xs
    ++ origin.drop (e.policy.encodeAll xs).length
  position_eq : e.position = (e.policy.encodeAll xs).length
  capacity_eq : e.capacity = origin.length
  fits : ∀ x ∈ xs, e.policy.Fits x

theorem filled_ofStorage (policy : Policy) (storage : Bytes) :
    (ofStorage policy storage).Filled storage [] :=
  ⟨rfl, rfl, rfl, by simp⟩

/-- An accepted write adds its entry. -/
theorem Filled.push {e e' : Encoder} {origin : Bytes} {xs : List Entry}
    {x : Entry} (h : e.Filled origin xs)
    (hpush : e.push x.tag x.payload = .ok e') :
    e'.Filled origin (xs ++ [x]) := by
  obtain ⟨hfits, -, hpolicy, hposition, hstorage⟩ := of_push_eq_ok hpush
  have hsplit : e'.policy.encodeAll (xs ++ [x])
      = e.policy.encodeAll xs ++ e.policy.encode x := by
    rw [hpolicy, Policy.encodeAll_append, Policy.encodeAll_cons,
      Policy.encodeAll_nil, List.append_nil]
  refine ⟨?_, ?_, ?_, ?_⟩
  · rw [hstorage, Bytes.overwrite, hsplit, h.position_eq, h.storage_eq,
      List.take_left, ← List.drop_drop, List.drop_left, List.drop_drop,
      List.length_append]
  · rw [hposition, hsplit, h.position_eq, List.length_append]
  · rw [capacity_of_push_eq_ok hpush, h.capacity_eq]
  · rw [hpolicy]
    intro y hy
    rcases List.mem_append.1 hy with hy | hy
    · exact h.fits y hy
    · rw [List.mem_singleton.1 hy]
      exact hfits

/-- One call keeps the invariant, with the entries and the origin as
they are behind it. -/
theorem Filled.perform {e : Encoder} {storage : Bytes} {xs : List Entry}
    (h : e.Filled storage xs) (call : Call) :
    (e.perform call).answer.1.Filled (e.originFrom storage [call])
      (extend xs (call, (e.perform call).answer.2)) := by
  rcases e.perform_cases call with
    ⟨tag, value, e', rfl, hpush, hanswer⟩
    | ⟨typeWidth, lengthWidth, policy, rfl, -, hanswer⟩ | ⟨error, hanswer⟩
  · simp only [originFrom, hanswer, extend]
    exact Filled.push (x := { tag, payload := value.payload }) h hpush
  · simp only [originFrom, hanswer, extend]
    exact filled_ofStorage policy e.storage
  · cases call <;> simp only [originFrom, hanswer, extend] <;> exact h

/-- The storage that a run writes over is found call by call. -/
theorem originFrom_cons (storage : Bytes) (e : Encoder) (call : Call)
    (calls : List Call) :
    e.originFrom storage (call :: calls)
      = (e.perform call).answer.1.originFrom
          (e.originFrom storage [call]) calls := by
  rcases e.perform_cases call with
    ⟨tag, value, e', rfl, -, hanswer⟩
    | ⟨typeWidth, lengthWidth, policy, rfl, -, hanswer⟩ | ⟨error, hanswer⟩
  · simp only [originFrom, hanswer]
  · simp only [originFrom, hanswer]
  · cases call <;> simp only [originFrom, hanswer]

/-- Any run of calls keeps the invariant. -/
theorem Filled.run {e : Encoder} {storage : Bytes} {xs : List Entry}
    (h : e.Filled storage xs) (calls : List Call) :
    (e.run calls).answer.1.Filled (e.originFrom storage calls)
      ((calls.zip (e.run calls).answer.2).foldl extend xs) := by
  induction calls generalizing e storage xs with
  | nil => exact h
  | cons call calls ih =>
      rw [answer_run_cons, originFrom_cons, List.zip_cons_cons,
        List.foldl_cons]
      exact ih (h.perform call)

/-- The storage holds what a session has written since it was last begun
on. -/
theorem filled_session (policy : Policy) (start : Start)
    (calls : List Call) :
    let r := (session policy start calls).answer
    r.1.Filled (origin policy start calls) (accepted (calls.zip r.2)) := by
  have hbegin : (start.encoder policy).answer
      = ofStorage policy start.storage := by
    cases start <;> rfl
  dsimp only
  rw [answer_session, origin, hbegin]
  exact (filled_ofStorage policy start.storage).run calls

/-- No call changes the size of the storage. -/
theorem capacity_perform (e : Encoder) (call : Call) :
    (e.perform call).answer.1.capacity = e.capacity := by
  rcases e.perform_cases call with
    ⟨tag, value, e', rfl, hpush, hanswer⟩
    | ⟨typeWidth, lengthWidth, policy, rfl, -, hanswer⟩ | ⟨error, hanswer⟩
  · rw [hanswer]
    exact capacity_of_push_eq_ok
      (x := { tag, payload := value.payload }) hpush
  · rw [hanswer]
    rfl
  · rw [hanswer]

theorem capacity_run (e : Encoder) (calls : List Call) :
    (e.run calls).answer.1.capacity = e.capacity := by
  induction calls generalizing e with
  | nil => rfl
  | cons call calls ih =>
      rw [answer_run_cons]
      exact (ih _).trans (capacity_perform e call)

/-- What has been written are the frames of the entries. -/
theorem Filled.bytes_eq {e : Encoder} {origin : Bytes} {xs : List Entry}
    (h : e.Filled origin xs) : e.bytes = e.policy.encodeAll xs := by
  rw [bytes, h.position_eq, h.storage_eq, List.take_left]

-- ========================================================= the storage

/-- In every state that a session reaches, the storage consists of the
encodings of the entries accepted since it was last begun on and of
what stood behind them then. So its size is what it was at the start,
nothing behind the position has been touched, and the written bytes
depend on the policy and on the accepted entries alone. Closing the
encoder keeps all of it. -/
theorem storage_session (policy : Policy) (start : Start)
    (calls : List Call) :
    let r := (session policy start calls).answer
    let e := r.1
    let xs := accepted (calls.zip r.2)
    let written := e.policy.encodeAll xs
    let before := origin policy start calls
    r.2.length = calls.length
      ∧ e.storage = written ++ before.drop written.length
      ∧ e.actualLength = written.length
      ∧ e.bytes = written
      ∧ e.storage.drop e.actualLength = before.drop e.actualLength
      ∧ before.length = e.capacity
      ∧ e.capacity = start.storage.length
      ∧ e.actualLength ≤ e.capacity
      ∧ e.actualLength + e.remaining = e.capacity
      ∧ (∀ policy' start' calls',
          let r' := (session policy' start' calls').answer
          r'.1.policy = e.policy → accepted (calls'.zip r'.2) = xs →
            r'.1.bytes = e.bytes)
      ∧ e.freeze.answer.storage = e.storage
      ∧ e.freeze.answer.actualLength = e.actualLength
      ∧ e.freeze.answer.policy = e.policy := by
  have hfilled := filled_session policy start calls
  dsimp only at hfilled ⊢
  have hcapacity : (session policy start calls).answer.1.capacity
      = start.storage.length := by
    rw [answer_session, capacity_run]
    rfl
  have hle := (session policy start calls).answer.1.position_le
  refine ⟨?_, hfilled.storage_eq, hfilled.position_eq, hfilled.bytes_eq, ?_,
    hfilled.capacity_eq.symm, hcapacity, hle, ?_, ?_, rfl, rfl, rfl⟩
  · rw [answer_session, length_answer_run]
  · rw [actualLength, hfilled.position_eq, hfilled.storage_eq,
      List.drop_left]
  · exact Nat.add_sub_cancel' hle
  -- what is written depends on the policy and the accepted calls alone
  · intro policy' start' calls' hpolicy haccepted
    rw [(filled_session policy' start' calls').bytes_eq, hfilled.bytes_eq,
      hpolicy, haccepted]

/-- Storage that held other bytes, begun on again under other widths
after a write and a refusal, is written like fresh storage of another
size. -/
theorem storage_session_rewrap_over_dirty :
    let wide : Policy := { typeWidth := .two, lengthWidth := .one }
    let calls : List Call :=
      [.push 1 (.bytes [1, 2]), .push 300 .empty, .rewrap 2 1,
        .push 300 (.byte 7)]
    let r := (session default (.wrap [9, 9, 9, 9, 9, 9, 9]) calls).answer
    let r' := (session wide (.allocate 4) [.push 300 (.byte 7)]).answer
    r.1.storage = [1, 44, 1, 7, 9, 9, 9]
      ∧ r'.1.policy = r.1.policy
      ∧ accepted ([Call.push 300 (.byte 7)].zip r'.2)
        = accepted (calls.zip r.2)
      ∧ r'.1.bytes = r.1.bytes := by
  intro wide calls r r'
  have hstorage : r.1.storage = [1, 44, 1, 7, 9, 9, 9] := by decide +kernel
  have hpolicy : r'.1.policy = r.1.policy := by decide +kernel
  have haccepted : accepted ([Call.push 300 (.byte 7)].zip r'.2)
      = accepted (calls.zip r.2) := by decide +kernel
  obtain ⟨-, -, -, -, -, -, -, -, -, hagree, -⟩ :=
    storage_session default (.wrap [9, 9, 9, 9, 9, 9, 9]) calls
  exact ⟨hstorage, hpolicy, haccepted, hagree _ _ _ hpolicy haccepted⟩

end Tlv.Encoder
