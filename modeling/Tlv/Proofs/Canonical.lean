/-
The format is canonical: bytes have at most one reading, and writing
that reading again gives the bytes back. So a traversal without error
means that an encoder could have written the bytes, and tells all that
it can have been given to do so (`canonical`).

To write the elements of a buffer again is never refused. Their tags and
lengths were read from headers of the same widths, hence fit them, and
the room they need together is the size of the buffer
(`answer_run_puts`).
-/
import Tlv.Proofs.Session
import Tlv.Proofs.Traversal

namespace Tlv

/-- The tagged value that an entry is written as. -/
def Entry.put (x : Entry) : UInt32 × Value :=
  (x.tag, .bytes x.payload)

namespace Encoder

-- ================================================================ puts

/-- Calls that write tagged values and do nothing else. -/
def puts (ps : List (UInt32 × Value)) : List Call :=
  ps.map fun q => .push q.1 q.2

/-- Some encoder under the policy accepts the entry. -/
def Writable (p : Policy) (x : Entry) : Prop :=
  ∃ e e' : Encoder, e.policy = p ∧ e.push x.tag x.payload = .ok e'

/-- Entries that fit are accepted by an encoder that has the room. -/
theorem writable_iff {p : Policy} {x : Entry} :
    Writable p x ↔ p.Fits x := by
  constructor
  · intro ⟨e, e', hpolicy, hpush⟩
    rw [← hpolicy]
    exact (of_push_eq_ok hpush).1
  · intro hfits
    let e := ofStorage p (List.replicate (p.encode x).length 0)
    have hroom : (p.encode x).length ≤ e.remaining := by
      simp [e, ofStorage, remaining, capacity]
    obtain ⟨e', hpush⟩ := exists_push_eq_ok (e := e) hfits hroom
    exact ⟨e, e', rfl, hpush⟩

/-- Puts do not touch the policy. -/
theorem policy_run_puts (e : Encoder) (ps : List (UInt32 × Value)) :
    (e.run (puts ps)).answer.1.policy = e.policy := by
  induction ps generalizing e with
  | nil => rfl
  | cons q ps ih =>
      have hstep : (e.perform (.push q.1 q.2)).answer.1.policy
          = e.policy := by
        rcases e.perform_cases (.push q.1 q.2) with
          ⟨tag, value, e', -, hpush, hanswer⟩
          | ⟨_, _, _, hcall, -, -⟩ | ⟨error, hanswer⟩
        · rw [hanswer]
          exact (of_push_eq_ok
            (x := { tag, payload := value.payload }) hpush).2.2.1
        · cases hcall
        · rw [hanswer]
      rw [puts, List.map_cons, answer_run_cons]
      exact (ih _).trans hstep

/-- Entries that fit and have room together are accepted one and all. -/
theorem answer_run_puts {e : Encoder} {xs : List Entry}
    (hfits : ∀ x ∈ xs, e.policy.Fits x)
    (hroom : (e.policy.encodeAll xs).length ≤ e.remaining) :
    (e.run (puts (xs.map Entry.put))).answer.2
      = List.replicate xs.length (.ok ()) := by
  induction xs generalizing e with
  | nil => rfl
  | cons x xs ih =>
      obtain ⟨hx, hxs⟩ := List.forall_mem_cons.1 hfits
      rw [Policy.encodeAll_cons, List.length_append] at hroom
      obtain ⟨e', hpush⟩ := exists_push_eq_ok hx (by omega)
      have hpolicy := (of_push_eq_ok hpush).2.2.1
      have hremaining := remaining_of_push_eq_ok hpush
      have hanswer : (e.perform (.push x.tag (.bytes x.payload))).answer
          = (e', .ok ()) := by
        rw [perform, Value.payload, hpush]
        rfl
      -- the first put leaves as much room as the other frames take up
      have hrest : (e'.run (puts (xs.map Entry.put))).answer.2
          = List.replicate xs.length (.ok ()) := by
        refine ih ?_ ?_
        · rw [hpolicy]
          exact hxs
        · rw [hpolicy]
          omega
      show (e.run (.push x.tag (.bytes x.payload)
        :: puts (xs.map Entry.put))).answer.2 = _
      rw [answer_run_cons, hanswer, hrest]
      rfl

/-- What is accepted when nothing is refused. -/
theorem foldl_extend_puts (xs ys : List Entry) :
    ((puts (ys.map Entry.put)).zip
        (List.replicate ys.length (.ok ()))).foldl extend xs
      = xs ++ ys := by
  induction ys generalizing xs with
  | nil => exact (List.append_nil xs).symm
  | cons y ys ih =>
      show ((puts (ys.map Entry.put)).zip
        (List.replicate ys.length (.ok ()))).foldl extend (xs ++ [y]) = _
      rw [ih, List.append_assoc, List.singleton_append]

-- ===================================================== both directions

/-- A row is written whole over storage of its size, whatever that
held. -/
theorem session_puts {p : Policy} {xs : List Entry} {start : Start}
    (hfits : ∀ x ∈ xs, p.Fits x)
    (hsize : start.storage.length = (p.encodeAll xs).length) :
    let r := (session p start (puts (xs.map Entry.put))).answer
    r.2 = List.replicate xs.length (.ok ())
      ∧ r.1.bytes = p.encodeAll xs ∧ r.1.remaining = 0 := by
  have hroom : (p.encodeAll xs).length
      ≤ (ofStorage p start.storage).remaining := Nat.le_of_eq hsize.symm
  have hpolicy := policy_run_puts (ofStorage p start.storage) (xs.map Entry.put)
  have hcapacity := capacity_run (ofStorage p start.storage)
    (puts (xs.map Entry.put))
  have houtcomes := answer_run_puts (e := ofStorage p start.storage)
    hfits hroom
  have hfilled := filled_session p start (puts (xs.map Entry.put))
  dsimp only at hfilled ⊢
  rw [← answer_session] at hpolicy hcapacity houtcomes
  rw [houtcomes, accepted, foldl_extend_puts, List.nil_append] at hfilled
  refine ⟨houtcomes, ?_, ?_⟩
  · rw [hfilled.bytes_eq, hpolicy]
    rfl
  · rw [remaining, hcapacity, hfilled.position_eq, hpolicy]
    show start.storage.length - (p.encodeAll xs).length = 0
    omega

/-- What any writes leave behind is the encodings of a row. -/
theorem bytes_session_puts (p : Policy) (start : Start)
    (ps : List (UInt32 × Value)) :
    ∃ xs, (∀ x ∈ xs, p.Fits x)
      ∧ (session p start (puts ps)).answer.1.bytes = p.encodeAll xs := by
  have hfilled := filled_session p start (puts ps)
  have hpolicy := policy_run_puts (ofStorage p start.storage) ps
  dsimp only at hfilled
  rw [← answer_session] at hpolicy
  have hfits := hfilled.fits
  have hbytes := hfilled.bytes_eq
  rw [hpolicy] at hfits hbytes
  exact ⟨_, hfits, hbytes⟩

/-- Decoding and encoding are inverse to each other. The elements of a
buffer that reads without error, written one by one into storage of its
size, are all accepted and leave exactly its bytes. What an encoder has
written reads without error. So the valid buffers are the concatenations
of what encoders can write, and only the entries of its elements are
written as a buffer, up to the tags that headers do not carry. -/
theorem canonical (p : Policy) (data : Bytes) :
    (∀ es start, (View.mk p data).Reads es →
        start.storage.length = data.length →
          let r := (session p start
            (puts (es.map fun e => e.entry.put))).answer
          r.2 = List.replicate es.length (.ok ())
            ∧ r.1.bytes = data ∧ r.1.remaining = 0)
      ∧ (∀ start ps, ∃ es,
          (View.mk p (session p start (puts ps)).answer.1.bytes).Reads es)
      ∧ ((View.mk p data).isValid.answer = true
          ↔ ∃ start ps, (session p start (puts ps)).answer.1.bytes = data)
      ∧ ((View.mk p data).isValid.answer = true
          ↔ ∃ xs, (∀ x ∈ xs, Writable p x) ∧ p.encodeAll xs = data)
      ∧ (∀ es xs, (View.mk p data).Reads es → (∀ x ∈ xs, Writable p x) →
          p.encodeAll xs = data →
            xs.map p.carried = es.map Element.entry) := by
  refine ⟨?_, ?_, ⟨?_, ?_⟩, ⟨?_, ?_⟩, ?_⟩
  · intro es start hreads hsize
    obtain ⟨hfits, hdata⟩ := Policy.encodeAll_of_reads hreads
    have hputs := session_puts hfits (by rw [hsize, hdata])
    rw [List.map_map, List.length_map, hdata] at hputs
    exact hputs
  · intro start ps
    obtain ⟨ys, hfits, hbytes⟩ := bytes_session_puts p start ps
    rw [hbytes]
    exact ⟨_, Policy.reads_encodeAll hfits⟩
  -- a valid buffer is put again into storage of its own size
  · intro hvalid
    obtain ⟨es, hreads⟩ := Policy.isValid_iff_exists_reads.1 hvalid
    obtain ⟨hfits, hdata⟩ := Policy.encodeAll_of_reads hreads
    have hsize : (Start.wrap data).storage.length
        = (p.encodeAll (es.map Element.entry)).length := by
      rw [hdata]
      rfl
    exact ⟨_, _, (session_puts hfits hsize).2.1.trans hdata⟩
  · intro ⟨start, ps, hbytes⟩
    obtain ⟨ys, hfits, hys⟩ := bytes_session_puts p start ps
    rw [← hbytes, hys, Policy.isValid_iff_exists_reads]
    exact ⟨_, Policy.reads_encodeAll hfits⟩
  · intro hvalid
    obtain ⟨es, hreads⟩ := Policy.isValid_iff_exists_reads.1 hvalid
    obtain ⟨hfits, hdata⟩ := Policy.encodeAll_of_reads hreads
    exact ⟨_, fun x hx => writable_iff.2 (hfits x hx), hdata⟩
  · intro ⟨ys, hwritable, hys⟩
    rw [← hys, Policy.isValid_iff_exists_reads]
    exact ⟨_, Policy.reads_encodeAll fun y hy =>
      writable_iff.1 (hwritable y hy)⟩
  -- both rows of frames are read from the same bytes
  · intro es ys hreads hwritable hys
    have hreads' := Policy.reads_encodeAll fun y hy =>
      writable_iff.1 (hwritable y hy)
    rw [hys] at hreads'
    rw [hreads.unique hreads', Policy.map_entry_layout]

/-- The elements of eight bytes, written over eight others. -/
theorem canonical_two_elements :
    let data : Bytes := [0, 1, 2, 2, 3, 0, 1, 2]
    let es : List Element :=
      [{ tag := 0, offset := 2, payload := [2] },
        { tag := 2, offset := 5, payload := [0, 1, 2] }]
    let r := (session default (.wrap [9, 9, 9, 9, 9, 9, 9, 9])
      (puts (es.map fun e => e.entry.put))).answer
    (View.mk default data).Reads es
      ∧ r.2 = [.ok (), .ok ()] ∧ r.1.bytes = data ∧ r.1.remaining = 0 := by
  intro data es r
  have hreads : (View.mk default data).Reads es := by
    unfold View.Reads
    decide +kernel
  exact ⟨hreads, (canonical default data).1 es (.wrap _) hreads rfl⟩

end Encoder

end Tlv
