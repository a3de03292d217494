/-
Values in and out. An element carries a value if the reading that matches
the value answers it, and this is a matter of the payload alone: it has
to be the one that the value is written with (`Element.carries_iff`). So
what is put is read back, and what is read can be put again and makes the
same payload (`Encoder.access_session`).

What stays of a put is decided by the calls behind it. As long as they
write and do not start over, what they are given comes behind what is
there already (`exists_foldl_extend_puts`), so that an element keeps its
place and its payload.
-/
import Mathlib.Data.List.Basic
import Tlv.Proofs.Canonical
import Tlv.Proofs.Texts
import Tlv.Proofs.Writes

namespace Tlv

namespace Element

variable {x : Element}

-- ======================================================= fixed widths

theorem fixed_of_length_eq {width : Nat} (h : x.length = width) :
    x.fixed width = .ok ⟨x.payload, h⟩ :=
  dif_pos h

/-- Any other size is blamed, beside the one asked for. -/
theorem fixed_of_length_ne {width : Nat} (h : x.length ≠ width) :
    x.fixed width = .error (.payloadWidthMismatch width x.length) :=
  dif_neg h

/-- What is read from payloads of one size, and written with them, is read
from the payload that it is written with and from no other. -/
theorem map_fixed_eq_ok_iff {α : Type} {width : Nat}
    {read : { payload : Bytes // payload.length = width } → α}
    {write : α → Bytes} (hlength : ∀ v, (write v).length = width)
    (hread : ∀ v, read ⟨write v, hlength v⟩ = v)
    (hwrite : ∀ payload, write (read payload) = payload.val) {v : α} :
    (x.fixed width).map read = .ok v ↔ x.payload = write v := by
  constructor
  · intro h
    by_cases hx : x.length = width
    · rw [fixed_of_length_eq hx] at h
      cases h
      exact (hwrite ⟨x.payload, hx⟩).symm
    · rw [fixed_of_length_ne hx] at h
      cases h
  · intro h
    have hx : x.length = width := (congrArg List.length h).trans (hlength v)
    have hpayload : (⟨x.payload, hx⟩ : { payload : Bytes //
        payload.length = width }) = ⟨write v, hlength v⟩ := Subtype.ext h
    rw [fixed_of_length_eq hx, hpayload]
    exact congrArg Except.ok (hread v)

/-- A reading that has an answer if the payload is of this size, and
otherwise blames the size that it is of. -/
def TakesExactly {α : Type} (x : Element) (width : Nat)
    (answer : Except AccessError α) : Prop :=
  ((∃ v, answer = .ok v) ↔ x.length = width)
    ∧ (x.length ≠ width →
        answer = .error (.payloadWidthMismatch width x.length))

/-- Whatever is read from payloads of one size is so. -/
theorem takesExactly_fixed (x : Element) {α : Type} {width : Nat}
    (read : { payload : Bytes // payload.length = width } → α) :
    x.TakesExactly width ((x.fixed width).map read) := by
  have hne : x.length ≠ width → (x.fixed width).map read
      = .error (.payloadWidthMismatch width x.length) := by
    intro h
    rw [fixed_of_length_ne h]
    rfl
  refine ⟨⟨?_, ?_⟩, hne⟩
  · intro ⟨v, hv⟩
    by_contra h
    rw [hne h] at hv
    cases hv
  · intro h
    rw [fixed_of_length_eq h]
    exact ⟨_, rfl⟩

/-- So it succeeds if the payload is of this size. -/
theorem TakesExactly.toBool_eq {α : Type} {width : Nat}
    {answer : Except AccessError α} (h : x.TakesExactly width answer) :
    answer.toBool = decide (x.length = width) := by
  rw [Bool.eq_iff_iff, decide_eq_true_iff, ← h.1]
  cases answer with
  | error error => simp [Except.toBool]
  | ok v => simp [Except.toBool]

/-- No payload is of two sizes. -/
theorem count_toBool_le_one (x : Element) :
    [x.byte.toBool, x.short.toBool, x.int.toBool].count true ≤ 1 := by
  rw [byte, short, int, (x.takesExactly_fixed _).toBool_eq,
    (x.takesExactly_fixed _).toBool_eq, (x.takesExactly_fixed _).toBool_eq]
  simp only [List.count_cons, List.count_nil, beq_true]
  by_cases h1 : x.length = 1
  · simp [h1]
  · by_cases h2 : x.length = 2
    · simp [h2]
    · by_cases h4 : x.length = 4 <;> simp [h1, h2, h4]

-- ============================================================== values

/-- The reading that matches the value answers it. -/
def Carries (x : Element) : Value → Prop
  | .byte v => x.byte = .ok v
  | .short v => x.short = .ok v
  | .int v => x.int = .ok v
  | .bytes v => x.payload = v
  | .text v => x.text = .ok v
  | .empty => x.payload = []

/-- A value is read from the payload that it is written with, and from no
other. -/
theorem carries_iff {value : Value} :
    x.Carries value ↔ x.payload = value.payload := by
  cases value with
  | byte v =>
      have hlength : ∀ v : UInt8, [v].length = 1 := fun _ => rfl
      exact map_fixed_eq_ok_iff hlength (fun _ => rfl) fun | ⟨[_], _⟩ => rfl
  | short v =>
      have hlength : ∀ v, (BigEndian.ofInt16 v).length = 2 :=
        fun _ => BigEndian.length_digits ..
      exact map_fixed_eq_ok_iff hlength BigEndian.readInt16_ofInt16
        fun payload => BigEndian.ofInt16_readInt16 payload.property
  | int v =>
      have hlength : ∀ v, (BigEndian.ofInt32 v).length = 4 :=
        fun _ => BigEndian.length_digits ..
      exact map_fixed_eq_ok_iff hlength BigEndian.readInt32_ofInt32
        fun payload => BigEndian.ofInt32_readInt32 payload.property
  | bytes v => exact Iff.rfl
  | text v => exact text_eq_ok_iff
  | empty => exact Iff.rfl

end Element

namespace Encoder

variable {e e' : Encoder} {tag : UInt32} {value : Value}

-- ============================================================ one put

/-- A call puts a value if its payload can be written. -/
theorem answer_perform_push_eq_ok_iff :
    (e.perform (.push tag value)).answer = (e', .ok ())
      ↔ e.push tag value.payload = .ok e' := by
  rw [answer_perform_push]
  cases e.push tag value.payload with
  | error error => simp
  | ok e'' => simp

/-- An accepted put adds a frame behind what has been written. -/
theorem bytes_of_push_eq_ok {x : Entry}
    (h : e.push x.tag x.payload = .ok e') :
    e'.bytes = e.bytes ++ e.policy.encode x := by
  obtain ⟨-, -, -, hposition, hstorage⟩ := of_push_eq_ok h
  have hle : e.position ≤ e.storage.length := e.position_le
  have hlength : (e.storage.take e.position ++ e.policy.encode x).length
      = e.position + (e.policy.encode x).length := by
    rw [List.length_append, List.length_take_of_le hle]
  rw [bytes, bytes, hposition, hstorage, Bytes.overwrite]
  exact List.take_left' hlength

-- =========================================================== more puts

/-- Puts add to the entries that are there, whichever of them are
accepted. -/
theorem exists_foldl_extend_puts (xs : List Entry)
    (ps : List (UInt32 × Value)) (outcomes : List (Except Error Unit)) :
    ∃ ys, ((puts ps).zip outcomes).foldl extend xs = xs ++ ys := by
  induction ps generalizing xs outcomes with
  | nil => exact ⟨[], (List.append_nil xs).symm⟩
  | cons q ps ih =>
      cases outcomes with
      | nil => exact ⟨[], (List.append_nil xs).symm⟩
      | cons outcome outcomes =>
          rw [puts, List.map_cons, List.zip_cons_cons, List.foldl_cons]
          cases outcome with
          | error error => exact ih xs outcomes
          | ok _ =>
              let y : Entry := { tag := q.1, payload := q.2.payload }
              obtain ⟨ys, hys⟩ := ih (xs ++ [y]) outcomes
              refine ⟨y :: ys, hys.trans ?_⟩
              rw [List.append_assoc, List.singleton_append]

/-- The storage reads as the bytes up to the position. -/
theorem ofBuffer_eq_ok (e : Encoder) :
    View.ofBuffer e.policy e.storage e.actualLength
      = .ok ⟨e.policy, e.bytes⟩ := by
  rw [View.ofBuffer, Bytes.split?_eq, actualLength, if_pos e.position_le]
  rfl

/-- An entry that has been put is read where it was put, whatever is put
behind it. -/
theorem Filled.exists_reads {origin : Bytes} {xs : List Entry} {x : Entry}
    (h : e.Filled origin xs) (hpush : e.push x.tag x.payload = .ok e')
    (later : List (UInt32 × Value)) :
    let e'' := (e'.run (puts later)).answer.1
    ∃ es es', (View.mk e''.policy e''.bytes).Reads
      (es ++ e.policy.placed e.actualLength x :: es') := by
  intro e''
  have hpolicy : e''.policy = e.policy :=
    (policy_run_puts e' later).trans (of_push_eq_ok hpush).2.2.1
  have hfilled := (h.push hpush).run (puts later)
  obtain ⟨ys, hys⟩ := exists_foldl_extend_puts (xs ++ [x]) later
    (e'.run (puts later)).answer.2
  rw [hys, List.append_assoc, List.singleton_append] at hfilled
  have hreads := Policy.reads_encodeAll hfilled.fits
  rw [Policy.layout_append, Nat.zero_add, ← hfilled.bytes_eq] at hreads
  rw [actualLength, h.position_eq, ← hpolicy]
  exact ⟨_, _, hreads⟩

/-- What is read from a buffer fits into headers as they are there. -/
theorem fits_of_mem_items {p : Policy} {data : Bytes} {x : Element}
    (h : .ok x ∈ (View.mk p data).items.answer) : p.Fits x.entry := by
  obtain ⟨xs, tail, htiling⟩ := Policy.exists_tiling p data
  have hmem : x ∈ p.layout 0 xs := by
    rw [← htiling.filterMap_items]
    exact List.mem_filterMap.2 ⟨_, h, rfl⟩
  have hentry : x.entry ∈ xs.map p.carried := by
    rw [← Policy.map_entry_layout p 0 xs]
    exact List.mem_map_of_mem hmem
  obtain ⟨y, hy, heq⟩ := List.mem_map.1 hentry
  rw [← heq, htiling.carried y hy]
  exact htiling.fits y hy

-- ===================================================== both directions

/-- Putting values and reading them are inverse to each other. A value
that an encoder accepts, in any state that a session reaches, is carried
by the element that the storage is read to have in its place, then and
behind any further puts; a text is so in both readings, and its length is
that of its bytes. A value that is read from an element puts the payload
of that element behind its header, wherever it is accepted, and so it is
where there is room under the policy that it was read under. Numbers are
read from payloads of exactly their size, so an element has one of them
at most, and for the others the error names both sizes. -/
theorem access_session (policy : Policy) (start : Start)
    (calls : List Call) :
    let e := (session policy start calls).answer.1
    (∀ tag value e', (e.perform (.push tag value)).answer = (e', .ok ()) →
        ∀ later : List (UInt32 × Value),
          let e'' := (e'.run (puts later)).answer.1
          ∃ v es x es',
            View.ofBuffer e''.policy e''.storage e''.actualLength = .ok v
              ∧ v.Reads (es ++ x :: es')
              ∧ x.offset = e.actualLength + e.policy.headerLen
              ∧ x.Carries value
              ∧ ∀ text, value = .text text →
                  x.lossyText = text ∧ x.length = text.utf8ByteSize)
      ∧ (∀ p data x value, .ok x ∈ (View.mk p data).items.answer →
          x.Carries value →
            (∀ tag e',
                (e.perform (.push tag value)).answer = (e', .ok ()) →
                  e'.bytes = e.bytes
                    ++ e.policy.encode { tag, payload := x.payload })
              ∧ (p = e.policy →
                  e.policy.headerLen + x.length ≤ e.remaining →
                    ∃ e', (e.perform (.push x.tag value)).answer
                      = (e', .ok ())))
      ∧ ∀ x : Element,
          x.TakesExactly 1 x.byte ∧ x.TakesExactly 2 x.short
            ∧ x.TakesExactly 4 x.int
            ∧ [x.byte.toBool, x.short.toBool, x.int.toBool].count true
              ≤ 1 := by
  intro e
  refine ⟨?_, ?_, ?_⟩
  -- out: the element stands behind what was written before the put
  · intro tag value e' hput later e''
    let x : Entry := { tag, payload := value.payload }
    have hpush : e.push x.tag x.payload = .ok e' :=
      answer_perform_push_eq_ok_iff.1 hput
    obtain ⟨es, es', hreads⟩ :=
      (filled_session policy start calls).exists_reads hpush later
    refine ⟨_, es, _, es', ofBuffer_eq_ok e'', hreads, rfl,
      Element.carries_iff.2 rfl, ?_⟩
    intro text htext
    have hpayload : (e.policy.placed e.actualLength x).payload
        = Utf8.encode text := congrArg Value.payload htext
    refine ⟨Element.lossyText_of_payload_eq hpayload, ?_⟩
    rw [Element.length, hpayload]
    rfl
  -- in: what carries the value has the payload it would be written with
  · intro p data x value hx hcarries
    have hpayload := Element.carries_iff.1 hcarries
    refine ⟨?_, ?_⟩
    · intro tag e' hput
      rw [hpayload]
      exact bytes_of_push_eq_ok (answer_perform_push_eq_ok_iff.1 hput)
    · intro hp hroom
      have hfits : e.policy.Fits x.entry := hp ▸ fits_of_mem_items hx
      rw [Element.length] at hroom
      obtain ⟨e', hpush⟩ := exists_push_eq_ok hfits
        (Nat.le_trans (Nat.le_of_eq (Policy.length_encode ..)) hroom)
      refine ⟨e', answer_perform_push_eq_ok_iff.2 ?_⟩
      rw [← hpayload]
      exact hpush
  · intro x
    exact ⟨x.takesExactly_fixed _, x.takesExactly_fixed _,
      x.takesExactly_fixed _, x.count_toBool_le_one⟩

/-- Behind a tag that is refused and an element without a payload, a text
of three bytes for two characters, read back from in front of a negative
number; and that number, read from other bytes and put. -/
theorem access_session_negative_and_text :
    let calls : List Call := [.push 256 (.byte 1), .push 7 .empty]
    let e := (session default (.allocate 20) calls).answer.1
    let r := (e.perform (.push 2 (.text "aé"))).answer
    let e'' := (r.1.run (puts [(3, .int (-2))])).answer.1
    let r' := (e.perform (.push 1 (.int (-2)))).answer
    let x : Element := ⟨1, 2, [255, 255, 255, 254]⟩
    r.2 = .ok ()
      ∧ (∃ v es y es',
          View.ofBuffer e''.policy e''.storage e''.actualLength = .ok v
            ∧ v.Reads (es ++ y :: es') ∧ y.offset = 4
            ∧ y.text = .ok "aé" ∧ y.lossyText = "aé" ∧ y.length = 3)
      ∧ .ok x ∈ (View.mk default [1, 4, 255, 255, 255, 254]).items.answer
      ∧ x.int = .ok (-2) ∧ r'.2 = .ok ()
      ∧ r'.1.bytes = [7, 0, 1, 4, 255, 255, 255, 254]
      ∧ x.short = .error (.payloadWidthMismatch 2 4) := by
  intro calls e r e'' r' x
  obtain ⟨hin, hout, hwidths⟩ :=
    access_session default (.allocate 20) calls
  have hput : r.2 = .ok () := by decide +kernel
  have hput' : r'.2 = .ok () := by decide +kernel
  have hplace : e.actualLength + e.policy.headerLen = 4 := by
    decide +kernel
  have hbytes : e.bytes ++ e.policy.encode ⟨1, x.payload⟩
      = [7, 0, 1, 4, 255, 255, 255, 254] := by decide +kernel
  have hmem : .ok x
      ∈ (View.mk default [1, 4, 255, 255, 255, 254]).items.answer := by
    decide +kernel
  have hint : x.int = .ok (-2) := by decide +kernel
  obtain ⟨v, es, y, es', hview, hreads, hoffset, htext, hlossy⟩ :=
    hin 2 (.text "aé") r.1 (Prod.ext rfl hput) [(3, .int (-2))]
  obtain ⟨hlossyText, hlength⟩ := hlossy _ rfl
  have hagain := (hout default _ x (.int (-2)) hmem hint).1 1 r'.1
    (Prod.ext rfl hput')
  exact ⟨hput, ⟨v, es, y, es', hview, hreads, hoffset.trans hplace, htext,
      hlossyText, hlength⟩,
    hmem, hint, hput', hagain.trans hbytes,
    (hwidths x).2.1.2 (by decide)⟩

end Encoder

end Tlv
