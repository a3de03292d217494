/-
What the two commands answer, without their loops. Encoding has an output
exactly if every field stands for an entry, headers have room for each
entry, and the buffer has room for all of them, and then the output is
the encodings of the entries in hexadecimal
(`answer_runEncode_eq_ok_iff`). Decoding reads the bytes that the text
denotes and shows the elements they are read as, a line each, or their
first error (`answer_runDecode`).

The writer's half is one step of `pushFields`, which keeps what an
encoder holds (`Filled.pushFields`) and is not refused as long as there
is room (`exists_pushFields_eq_ok`). The reader's half is that the lines
are those of the items still to come (`run_linesFrom`).
-/
import Mathlib.Data.List.Forall2
import Tlv.Proofs.Fields
import Tlv.Proofs.Session
import Tlv.Proofs.Traversal

namespace Tlv

-- ============================================================== widths

/-- A width that is accepted is meant as a number of bytes. -/
theorem TypeWidth.bytes_of_ofInt_eq_ok {width : Int} {w : TypeWidth}
    (h : ofInt width = .ok w) : (w.bytes : Int) = width := by
  unfold ofInt at h
  split_ifs at h with hzero hone htwo hfour
  · cases h
    exact hzero.symm
  · cases h
    exact hone.symm
  · cases h
    exact htwo.symm
  · cases h
    exact hfour.symm

/-- A policy has the type width it was asked for. -/
theorem Policy.typeWidth_of_ofWidths_eq_ok {typeWidth lengthWidth : Int}
    {p : Policy} (h : ofWidths typeWidth lengthWidth = .ok p) :
    (p.typeWidth.bytes : Int) = typeWidth := by
  obtain ⟨w, hw, h⟩ := bind_eq_ok_iff.1 h
  obtain ⟨w', -, h⟩ := bind_eq_ok_iff.1 h
  cases h
  exact TypeWidth.bytes_of_ofInt_eq_ok hw

namespace Encoder

-- ====================================================== fields, written

open Command (pushField pushFields)

/-- Each field stands for the entry at its place. -/
def Stand (fields : List Field) (xs : List Entry) : Prop :=
  List.Forall₂ (fun f x => f.toEntry = .ok x) fields xs

/-- Fields stand for one row of entries at most. -/
theorem Stand.unique {fields : List Field} {xs ys : List Entry}
    (h : Stand fields xs) (h' : Stand fields ys) : xs = ys := by
  induction h generalizing ys with
  | nil =>
      cases h'
      rfl
  | cons hx _ ih =>
      cases h' with
      | cons hy hys =>
          rw [hx] at hy
          cases hy
          rw [ih hys]

/-- A field is written if it stands for an entry that is. -/
theorem pushField_eq_ok_iff {e e' : Encoder} {f : Field} :
    pushField e f = .ok e'
      ↔ ∃ x, f.toEntry = .ok x ∧ e.push x.tag x.payload = .ok e' := by
  unfold pushField Field.toEntry
  simp only [bind_eq_ok_iff, mapError_eq_ok_iff, map_eq_ok_iff]
  constructor
  · intro ⟨value, hvalue, hpush⟩
    exact ⟨_, ⟨value, hvalue, rfl⟩, hpush⟩
  · rintro ⟨_, ⟨value, hvalue, rfl⟩, hpush⟩
    exact ⟨value, hvalue, hpush⟩

/-- A row of fields is written if the first of them is and then the
others are. -/
theorem pushFields_cons_eq_ok_iff {e e'' : Encoder} {f : Field}
    {fields : List Field} :
    pushFields e (f :: fields) = .ok e''
      ↔ ∃ e', pushField e f = .ok e' ∧ pushFields e' fields = .ok e'' := by
  rw [pushFields, bind_eq_ok_iff]

/-- Fields that are written add the entries they stand for. -/
theorem Filled.pushFields {e e' : Encoder} {origin : Bytes}
    {xs : List Entry} {fields : List Field} (h : e.Filled origin xs)
    (hpush : pushFields e fields = .ok e') :
    ∃ ys, Stand fields ys ∧ e'.policy = e.policy
      ∧ e'.Filled origin (xs ++ ys) := by
  induction fields generalizing e xs with
  | nil =>
      cases hpush
      exact ⟨[], List.Forall₂.nil, rfl, by rwa [List.append_nil]⟩
  | cons f fields ih =>
      obtain ⟨e₁, hfirst, hrest⟩ := pushFields_cons_eq_ok_iff.1 hpush
      obtain ⟨x, hx, hpush⟩ := pushField_eq_ok_iff.1 hfirst
      obtain ⟨ys, hys, hpolicy, hfilled⟩ := ih (h.push hpush) hrest
      refine ⟨x :: ys, List.Forall₂.cons hx hys, ?_, ?_⟩
      · rw [hpolicy, (of_push_eq_ok hpush).2.2.1]
      · rwa [List.append_assoc] at hfilled

/-- Fields are written if they stand for entries that fit and have room
together. -/
theorem exists_pushFields_eq_ok {e : Encoder} {fields : List Field}
    {ys : List Entry} (h : Stand fields ys)
    (hfits : ∀ y ∈ ys, e.policy.Fits y)
    (hroom : (e.policy.encodeAll ys).length ≤ e.remaining) :
    ∃ e', Command.pushFields e fields = .ok e' := by
  induction h generalizing e with
  | nil => exact ⟨e, rfl⟩
  | @cons f y fields ys hy _ ih =>
      obtain ⟨hfirst, hrest⟩ := List.forall_mem_cons.1 hfits
      rw [Policy.encodeAll_cons, List.length_append] at hroom
      obtain ⟨e', hpush⟩ := exists_push_eq_ok hfirst (by omega)
      have hpolicy := (of_push_eq_ok hpush).2.2.1
      have hremaining := remaining_of_push_eq_ok hpush
      rw [← hpolicy] at hrest hroom hremaining
      obtain ⟨e'', hpushes⟩ := ih hrest (by omega)
      exact ⟨e'', pushFields_cons_eq_ok_iff.2
        ⟨e', pushField_eq_ok_iff.2 ⟨y, hy, hpush⟩, hpushes⟩⟩

/-- What has been written into a new buffer, once all fields have been,
and what is left of it. -/
theorem of_pushFields_ofStorage_eq_ok {p : Policy} {capacity : Nat}
    {fields : List Field} {e : Encoder}
    (h : Command.pushFields (ofStorage p (List.replicate capacity 0)) fields
      = .ok e) :
    ∃ xs, Stand fields xs ∧ (∀ x ∈ xs, p.Fits x)
      ∧ (p.encodeAll xs).length ≤ capacity ∧ e.bytes = p.encodeAll xs
      ∧ e.policy = p
      ∧ e.remaining = capacity - (p.encodeAll xs).length := by
  obtain ⟨xs, hxs, hpolicy, hfilled⟩ :=
    (filled_ofStorage p (List.replicate capacity 0)).pushFields h
  rw [List.nil_append] at hfilled
  have hpolicy : e.policy = p := hpolicy
  have hle : e.position ≤ e.capacity := e.position_le
  have hsize := hfilled.capacity_eq
  have hfits := hfilled.fits
  have hposition := hfilled.position_eq
  have hbytes := hfilled.bytes_eq
  rw [hpolicy] at hfits hposition hbytes
  rw [List.length_replicate] at hsize
  refine ⟨xs, hxs, hfits, by omega, hbytes, hpolicy, ?_⟩
  rw [remaining, hsize, hposition]

end Encoder

namespace Command

open Encoder (Stand)

/-- Encoding has an output if every field stands for an entry, headers
have room for each entry and the buffer for all of them, and then the
output shows their encodings. -/
theorem answer_runEncode_eq_ok_iff {p : Policy} {capacity : Nat}
    {fields : List Field} {text : String} :
    (runEncode p capacity fields).answer = .ok text
      ↔ ∃ xs, Stand fields xs ∧ (∀ x ∈ xs, p.Fits x)
        ∧ (p.encodeAll xs).length ≤ capacity
        ∧ text = Hex.encode (p.encodeAll xs) := by
  let e := Encoder.ofStorage p (List.replicate capacity 0)
  show (pushFields e fields).map (fun e' => Hex.encode e'.bytes) = .ok text
    ↔ _
  rw [map_eq_ok_iff]
  constructor
  · rintro ⟨e', hpush, rfl⟩
    obtain ⟨xs, hxs, hfits, hle, hbytes, -⟩ :=
      Encoder.of_pushFields_ofStorage_eq_ok hpush
    exact ⟨xs, hxs, hfits, hle, congrArg Hex.encode hbytes⟩
  · rintro ⟨xs, hxs, hfits, hle, rfl⟩
    have hroom : (p.encodeAll xs).length ≤ e.remaining := by
      simpa [e, Encoder.ofStorage, Encoder.remaining, Encoder.capacity]
        using hle
    obtain ⟨e', hpush⟩ :=
      Encoder.exists_pushFields_eq_ok (e := e) hxs hfits hroom
    obtain ⟨ys, hys, -, -, hbytes, -⟩ :=
      Encoder.of_pushFields_ofStorage_eq_ok hpush
    rw [hxs.unique hys, ← hbytes]
    exact ⟨e', hpush, rfl⟩

-- ======================================================== elements, read

/-- The lines of the elements left go behind those that are there, unless
an item is an error, which is the answer then. -/
theorem run_linesFrom (lines : List String) (c : Cursor)
    (log : Array Record) :
    (linesFrom lines c).run log
      = ((c.toList.mapM id).map fun es => lines.reverse ++ es.map line,
          log ++ c.records.toArray) := by
  fun_induction linesFrom lines c generalizing log with
  | case1 lines c h =>
      rw [Cursor.toList_of_step_eq_none h, Cursor.records_of_step_eq_none h,
        Array.append_empty, List.mapM_nil]
      simp [Except.map, pure, Except.pure]
      rfl
  | case2 lines c item c' h hlt ih =>
      rw [Item.run_warn_bind]
      cases item with
      | ok e =>
          rw [Cursor.toList_of_step_eq_some h,
            Cursor.records_of_step_eq_some h, ih, List.mapM_cons]
          cases c'.toList.mapM id <;>
            simp [Except.map, Item.records, bind, Except.bind, pure,
              Except.pure]
      | error error =>
          rw [Cursor.toList_of_step_eq_error h,
            Cursor.records_of_step_eq_error h]
          rfl

/-- Decoding reads the bytes that the text denotes, if there are any, and
shows their elements, or the error among their items. -/
theorem answer_runDecode (p : Policy) (buffer : String) :
    (runDecode p buffer).answer
      = match Hex.decode (Blank.trim buffer) with
        | .error fault => .error (.hex fault)
        | .ok bytes =>
          match (View.mk p bytes).items.answer.mapM id with
          | .error cause => .error (.codec (.decode cause))
          | .ok es => .ok ("\n".intercalate (es.map line)) := by
  unfold runDecode
  cases Hex.decode (Blank.trim buffer) with
  | error fault => rfl
  | ok bytes =>
      have hview : View.ofBuffer p bytes bytes.length
          = .ok { policy := p, bytes } := by
        rw [View.ofBuffer, Bytes.split?_eq, if_pos (Nat.le_refl _),
          List.take_length]
      dsimp only
      rw [hview]
      dsimp only
      rw [Logged.answer, Logged.run_bind, run_linesFrom, View.toList_start]
      cases (View.mk p bytes).items.answer.mapM id <;> rfl

/-- Under a given policy a text has lines if it spells elements and
nothing else. -/
theorem answer_runDecode_eq_ok_iff {p : Policy} {buffer out : String} :
    (runDecode p buffer).answer = .ok out
      ↔ ∃ bytes es, Hex.decode (Blank.trim buffer) = .ok bytes
        ∧ (View.mk p bytes).Reads es
        ∧ out = "\n".intercalate (es.map line) := by
  rw [answer_runDecode]
  constructor
  · intro h
    split at h
    · cases h
    · next bytes hbytes =>
      split at h
      · cases h
      · next es hes =>
        cases h
        exact ⟨bytes, es, hbytes, View.mapM_id_eq_ok_iff.1 hes, rfl⟩
  · rintro ⟨bytes, es, hbytes, hes, rfl⟩
    rw [hbytes]
    dsimp only
    rw [View.mapM_id_eq_ok_iff.2 hes]

end Command

end Tlv
