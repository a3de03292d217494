/-
Buffers one behind the other. Whether bytes behind a clean buffer are
read along with it or by themselves makes no difference but for the
places they are said to be at, which are counted from the start of the
whole (`items_append`). So a clean buffer may be put in front of any
other, and nothing behind an element can change that it is read.

What is said about a place moves with the place (`traverse_shift`): this
is so of the elements of a row, each of which is placed by the frames in
front of it (`layout_shift`), and of the error at a torn tail
(`stop_shift`).
-/
import Tlv.Proofs.Truncation

namespace Tlv

-- ============================================================== shifts

/-- The element, found `n` bytes further on. -/
def Element.shift (n : Nat) (e : Element) : Element :=
  { e with offset := e.offset + n }

/-- The error, met `n` bytes further on. Only the place moves, and not
the sizes. -/
def DecodeError.shift (n : Nat) : DecodeError → DecodeError
  | invalidLength length capacity => invalidLength length capacity
  | truncatedHeader offset available need =>
    truncatedHeader (offset + n) available need
  | truncatedPayload offset declared available =>
    truncatedPayload (offset + n) declared available

/-- The item as it is met `n` bytes later. -/
def Item.shift (n : Nat) : Item → Item
  | .ok e => .ok (e.shift n)
  | .error error => .error (error.shift n)

theorem Item.toBool_shift (n : Nat) (item : Item) :
    (item.shift n).toBool = item.toBool := by
  cases item <;> rfl

namespace Policy

theorem layout_shift (p : Policy) (offset n : Nat) (xs : List Entry) :
    p.layout (offset + n) xs
      = (p.layout offset xs).map (Element.shift n) := by
  induction xs generalizing offset with
  | nil => rfl
  | cons x xs ih =>
      have hplaced : p.placed (offset + n) x
          = (p.placed offset x).shift n := by
        unfold placed Element.shift
        rw [Nat.add_right_comm]
      rw [layout, layout, List.map_cons, hplaced, Nat.add_right_comm, ih]

/-- A torn tail that begins later is reported later. -/
theorem stop_shift (p : Policy) (offset n : Nat) (tail : Bytes) :
    p.stop (offset + n) tail
      = (p.stop offset tail).map (Item.shift n) := by
  unfold stop
  by_cases hempty : tail.length = 0
  · rw [if_pos hempty, if_pos hempty]
    rfl
  · rw [if_neg hempty, if_neg hempty]
    by_cases hheader : tail.length < p.headerLen
    · rw [if_pos hheader, if_pos hheader]
      rfl
    · rw [if_neg hheader, if_neg hheader, Nat.add_right_comm]
      rfl

/-- A traversal that begins further on yields the same, further on. -/
theorem traverse_shift (p : Policy) (offset n : Nat) (bytes : Bytes) :
    p.traverse (offset + n) bytes
      = (p.traverse offset bytes).map (Item.shift n) := by
  obtain ⟨xs, tail, htiling⟩ := exists_tiling p bytes
  have hok : (Item.shift n) ∘ (Except.ok (ε := DecodeError))
      = Except.ok ∘ Element.shift n := rfl
  rw [htiling.traverse_eq, htiling.traverse_eq, List.map_append,
    layout_shift, Nat.add_right_comm, stop_shift, List.map_map,
    List.map_map, hok]

-- ======================================================= concatenation

/-- The elements of a buffer are read first, whatever comes behind
it. -/
theorem Tiling.items_followed {p : Policy} {bytes tail : Bytes}
    {xs : List Entry} (h : p.Tiling bytes xs tail) (behind : Bytes) :
    (View.mk p (bytes ++ behind)).items.answer
      = (p.layout 0 xs).map .ok
        ++ p.traverse (p.encodeAll xs).length (tail ++ behind) := by
  rw [View.answer_items, h.bytes_eq, List.append_assoc,
    traverse_encodeAll_append h.fits, Nat.zero_add]

/-- Behind a buffer that reads without error, bytes are read as they are
by themselves, with each place counted from the start of that buffer: the
two together read without error if those bytes do. Behind any buffer at
all, they change nothing about its elements. -/
theorem items_append (p : Policy) (bytes behind : Bytes) :
    (∀ es, (View.mk p bytes).Reads es →
        (View.mk p (bytes ++ behind)).items.answer
            = (View.mk p bytes).items.answer
              ++ (View.mk p behind).items.answer.map
                (Item.shift bytes.length)
          ∧ ((View.mk p (bytes ++ behind)).isValid.answer = true
            ↔ (View.mk p behind).isValid.answer = true))
      ∧ (Item.elements (View.mk p bytes).items.answer).map .ok
        <+: (View.mk p (bytes ++ behind)).items.answer := by
  obtain ⟨xs, tail, htiling⟩ := exists_tiling p bytes
  refine ⟨fun es hreads => ?_, ?_⟩
  · obtain ⟨htail, rfl⟩ := htiling.reads_iff.1 hreads
    have hbytes : bytes = p.encodeAll xs := by
      rw [htiling.bytes_eq, htail, List.append_nil]
    have hitems : (View.mk p (bytes ++ behind)).items.answer
        = (View.mk p bytes).items.answer
          ++ (View.mk p behind).items.answer.map
            (Item.shift bytes.length) := by
      have hshift := traverse_shift p 0 bytes.length behind
      rw [Nat.zero_add] at hshift
      rw [htiling.items_followed, htail, List.nil_append, ← hbytes, hshift,
        hreads, View.answer_items]
    refine ⟨hitems, ?_⟩
    have hall : ∀ es : List Element,
        (es.map (Except.ok (ε := DecodeError))).all Except.toBool
          = true := by
      simp [Except.toBool]
    -- the elements in front are all valid, so the rest decides
    rw [View.answer_isValid, View.answer_isValid, hitems, hreads,
      List.all_append, hall, Bool.true_and, List.all_map]
    simp only [Function.comp_def, Item.toBool_shift]
  · have helements : Item.elements (View.mk p bytes).items.answer
        = p.layout 0 xs := htiling.filterMap_items
    rw [helements, htiling.items_followed]
    exact List.prefix_append ..

/-- A row of one element in front of a torn frame. -/
theorem items_append_torn :
    let bytes : Bytes := [0, 1, 2]
    let behind : Bytes := [2, 3, 0, 1]
    (View.mk default bytes).Reads [{ tag := 0, offset := 2, payload := [2] }]
      ∧ (View.mk default behind).items.answer
        = [.error (.truncatedPayload 2 3 2)]
      ∧ (View.mk default (bytes ++ behind)).items.answer
        = [.ok { tag := 0, offset := 2, payload := [2] },
          .error (.truncatedPayload 5 3 2)] := by
  intro bytes behind
  have hreads : (View.mk default bytes).Reads
      [{ tag := 0, offset := 2, payload := [2] }] := by
    unfold View.Reads
    decide +kernel
  have hbehind : (View.mk default behind).items.answer
      = [.error (.truncatedPayload 2 3 2)] := by decide +kernel
  have hitems := ((items_append default bytes behind).1 _ hreads).1
  rw [hreads, hbehind] at hitems
  exact ⟨hreads, hbehind, hitems⟩

end Policy

end Tlv
