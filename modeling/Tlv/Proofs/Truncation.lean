/-
What is left of a buffer that has been cut off. The elements that end
before the cut are still read, as they were, and the place where the
last of them ends is the only cut that a traversal does not notice:
anywhere else it ends with an error that says how far the bytes behind
that place go (`items_take`). So no damage at the end of a buffer is
taken for the end of its elements, unless it removes whole elements.

This holds of every buffer, also of one that does not traverse cleanly
itself. The reason is that a cut makes a new tiling out of the old one:
the frames before it stay, and what remains of the frame it hits is torn
(`Tiling.take`).
-/
import Tlv.Proofs.Traversal

namespace Tlv

-- ========================================================== boundaries

/-- Where the last of some elements ends, or zero. -/
def Element.lastFinish (es : List Element) : Nat :=
  (es.map Element.finish).foldr max 0

/-- The elements among some items. -/
def Item.elements (items : List Item) : List Element :=
  items.filterMap Except.toOption

namespace Policy

variable {p : Policy} {bytes tail : Bytes} {xs : List Entry} {k : Nat}

/-- The last element of a layout ends where its frames do. -/
theorem max_lastFinish_layout (p : Policy) (offset : Nat)
    (xs : List Entry) :
    max offset (Element.lastFinish (p.layout offset xs))
      = offset + (p.encodeAll xs).length := by
  induction xs generalizing offset with
  | nil => simp [layout, Element.lastFinish]
  | cons x xs ih =>
      have hcons : Element.lastFinish (p.layout offset (x :: xs))
          = max (offset + (p.encode x).length)
              (Element.lastFinish
                (p.layout (offset + (p.encode x).length) xs)) := by
        rw [layout, ← finish_placed]
        rfl
      rw [hcons, ih, encodeAll_cons, List.length_append]
      omega

/-- The last element of a row of frames ends where the row does. -/
theorem lastFinish_layout (p : Policy) (xs : List Entry) :
    Element.lastFinish (p.layout 0 xs) = (p.encodeAll xs).length := by
  have := max_lastFinish_layout p 0 xs
  omega

-- ============================================================= the cut

/-- Cutting bytes off behind their header does not change what it
declares. -/
theorem declared_take (hk : p.headerLen ≤ k) :
    p.declared (bytes.take k) = p.declared bytes := by
  have hwidth : p.lengthWidth.bytes ≤ k - p.typeWidth.bytes := by
    unfold headerLen at hk
    omega
  rw [declared, declared, List.drop_take, List.take_take,
    Nat.min_eq_left hwidth]

/-- Bytes that are cut off before their first frame ends are torn. -/
theorem torn_take (h : k < p.headerLen + p.declared bytes) :
    p.Torn (bytes.take k) := by
  have hlen : (bytes.take k).length ≤ k := List.length_take_le ..
  unfold Torn
  by_cases hheader : p.headerLen ≤ k
  · rw [declared_take hheader]
    omega
  · omega

/-- What a tail says that has been cut off. -/
theorem stop_take (hk : k ≤ bytes.length) (offset : Nat) :
    p.stop offset (bytes.take k)
      = if k = 0 then []
        else if k < p.headerLen then
          [.error (.truncatedHeader offset k p.headerLen)]
        else
          [.error (.truncatedPayload (offset + p.headerLen)
            (p.declared bytes) (k - p.headerLen))] := by
  rw [stop, List.length_take_of_le hk]
  by_cases hheader : p.headerLen ≤ k
  · rw [declared_take hheader]
  · have hlt : k < p.headerLen := Nat.lt_of_not_le hheader
    rw [if_pos hlt, if_pos hlt]

/-- A cut keeps the frames that end before it and tears what it hits. -/
theorem Tiling.take (h : p.Tiling bytes xs tail) (hk : k ≤ bytes.length) :
    ∃ ys zs, xs = ys ++ zs ∧ (p.encodeAll ys).length ≤ k
      ∧ k < (p.encodeAll ys).length + p.headerLen
          + p.declared (bytes.drop (p.encodeAll ys).length)
      ∧ p.Tiling (bytes.take k) ys
          ((bytes.drop (p.encodeAll ys).length).take
            (k - (p.encodeAll ys).length)) := by
  induction xs generalizing bytes k with
  | nil =>
      have htail : bytes = tail := h.bytes_eq
      have htorn : k < p.headerLen + p.declared bytes :=
        Nat.lt_of_le_of_lt hk (htail ▸ h.torn)
      exact ⟨[], [], rfl, Nat.zero_le _, by simpa using htorn,
        Tiling.nil (torn_take htorn)⟩
  | cons x xs ih =>
      obtain ⟨hfits, hcarried, rest, rfl, hrest⟩ := h.of_cons
      by_cases hcut : k < (p.encode x).length
      · -- the cut hits the first frame
        have htorn : k < p.headerLen + p.declared (p.encode x ++ rest) := by
          rwa [declared_encode_append hfits, ← length_encode]
        exact ⟨[], x :: xs, rfl, Nat.zero_le _, by simpa using htorn,
          Tiling.nil (torn_take htorn)⟩
      · -- the cut is behind the first frame
        rw [List.length_append] at hk
        obtain ⟨ys, zs, rfl, hle, hlt, hys⟩ :=
          ih hrest (k := k - (p.encode x).length) (by omega)
        have hlen : (p.encodeAll (x :: ys)).length
            = (p.encode x).length + (p.encodeAll ys).length := by
          rw [encodeAll_cons, List.length_append]
        have hdrop : (p.encode x ++ rest).drop (p.encodeAll (x :: ys)).length
            = rest.drop (p.encodeAll ys).length := by
          rw [hlen, ← List.drop_drop, List.drop_left]
        have htake : (p.encode x ++ rest).take k
            = p.encode x ++ rest.take (k - (p.encode x).length) := by
          rw [List.take_append, List.take_of_length_le (by omega)]
        refine ⟨x :: ys, zs, rfl, by omega, ?_, ?_⟩
        · rw [hdrop, hlen]
          omega
        · rw [hdrop, htake, hlen, Nat.sub_add_eq]
          exact Tiling.cons hfits hcarried hys

/-- The elements that end before a cut are those of the frames it
keeps. -/
theorem filter_layout {ys zs : List Entry}
    (h : p.Tiling bytes (ys ++ zs) tail)
    (hle : (p.encodeAll ys).length ≤ k)
    (hlt : k < (p.encodeAll ys).length + p.headerLen
      + p.declared (bytes.drop (p.encodeAll ys).length)) :
    (p.layout 0 (ys ++ zs)).filter (fun e => e.finish ≤ k)
      = p.layout 0 ys := by
  have hkept : (p.layout 0 ys).filter (fun e => e.finish ≤ k)
      = p.layout 0 ys := by
    refine List.filter_eq_self.2 fun e he => decide_eq_true ?_
    obtain ⟨us, x, vs, rfl, rfl⟩ := mem_layout_iff.1 he
    rw [finish_placed]
    simp only [encodeAll_append, encodeAll_cons, List.length_append] at hle
    omega
  have hlost : (p.layout (0 + (p.encodeAll ys).length) zs).filter
      (fun e => e.finish ≤ k) = [] := by
    refine List.filter_eq_nil_iff.2 fun e he => ?_
    cases zs with
    | nil => cases he
    | cons z zs =>
        have hz : p.Fits z := h.fits z (by simp)
        have hend := le_finish_of_mem_layout he
        rw [h.bytes_eq, encodeAll_append, List.append_assoc, List.drop_left,
          encodeAll_cons, List.append_assoc, declared_encode_append hz] at hlt
        rw [length_encode] at hend
        simp only [decide_eq_true_eq]
        omega
  rw [layout_append, List.filter_append, hkept, hlost, List.append_nil]

-- ==================================================== clean cuts

/-- A header of one byte is a length of one byte without a tag. -/
theorem headerLen_eq_one_iff (p : Policy) :
    p.headerLen = 1 ↔ p.typeWidth = .absent ∧ p.lengthWidth = .one := by
  obtain ⟨typeWidth, lengthWidth⟩ := p
  cases typeWidth <;> cases lengthWidth <;> decide

/-- A cut is clean if it falls between two frames of the row or at one
of its ends. -/
theorem Tiling.isValid_take_iff (h : p.Tiling bytes xs tail)
    (hk : k ≤ bytes.length) :
    (View.mk p (bytes.take k)).isValid.answer = true
      ↔ ∃ ys zs, xs = ys ++ zs ∧ k = (p.encodeAll ys).length := by
  constructor
  · intro hvalid
    obtain ⟨ys, zs, rfl, hle, -, hcut⟩ := h.take hk
    refine ⟨ys, zs, rfl, ?_⟩
    have hlen := congrArg List.length (hcut.isValid_iff.1 hvalid)
    rw [List.length_take, List.length_drop, List.length_nil] at hlen
    omega
  · rintro ⟨ys, zs, rfl, rfl⟩
    have htorn : p.Torn [] := Nat.lt_of_lt_of_le p.headerLen_pos
      (Nat.le_add_right ..)
    have hfits : ∀ y ∈ ys, p.Fits y := fun y hy =>
      h.fits y (List.mem_append_left _ hy)
    have hcarried : ∀ y ∈ ys, p.carried y = y := fun y hy =>
      h.carried y (List.mem_append_left _ hy)
    have hcut : p.Tiling (bytes.take (p.encodeAll ys).length) ys [] := by
      refine ⟨?_, hfits, hcarried, htorn⟩
      rw [h.bytes_eq, encodeAll_append, List.append_assoc, List.take_left,
        List.append_nil]
    exact hcut.isValid_iff.2 rfl

/-- The ends of the row and of its elements are the places between its
frames. -/
theorem exists_append_iff_finish (p : Policy) (xs : List Entry) (k : Nat) :
    (∃ ys zs, xs = ys ++ zs ∧ k = (p.encodeAll ys).length)
      ↔ k = 0 ∨ ∃ e ∈ p.layout 0 xs, e.finish = k := by
  constructor
  · rintro ⟨ys, zs, rfl, rfl⟩
    rcases List.eq_nil_or_concat ys with rfl | ⟨us, x, rfl⟩
    · exact Or.inl rfl
    · refine Or.inr ⟨p.placed (0 + (p.encodeAll us).length) x, ?_, ?_⟩
      · exact mem_layout_iff.2 ⟨us, x, zs, by simp, rfl⟩
      · simp [finish_placed]
  · rintro (rfl | ⟨e, he, rfl⟩)
    · exact ⟨[], xs, rfl, rfl⟩
    · obtain ⟨us, x, vs, rfl, rfl⟩ := mem_layout_iff.1 he
      refine ⟨us ++ [x], vs, by simp, ?_⟩
      simp [finish_placed]

/-- The place one byte before the end of a row is between two of its
frames if the last of them is that byte. -/
theorem exists_append_iff_getLast (p : Policy) {xs : List Entry} {k : Nat}
    (hk : k + 1 = (p.encodeAll xs).length) :
    (∃ ys zs, xs = ys ++ zs ∧ k = (p.encodeAll ys).length)
      ↔ ∃ e, (p.layout 0 xs).getLast? = some e
          ∧ p.headerLen = 1 ∧ e.payload = [] := by
  have hpos := p.headerLen_pos
  -- a cut one byte before the end is between two frames only if it is in
  -- front of the last, which then is that byte
  rcases List.eq_nil_or_concat xs with rfl | ⟨us, x, rfl⟩
  · cases hk
  have hlast : (p.layout 0 (us.concat x)).getLast?
      = some (p.placed (p.encodeAll us).length x) := by
    rw [List.concat_eq_append, layout_append, Nat.zero_add]
    exact List.getLast?_concat
  have hsize : k + 1
      = (p.encodeAll us).length + (p.headerLen + x.payload.length) := by
    rw [hk, List.concat_eq_append, encodeAll_append, List.length_append,
      encodeAll_cons, encodeAll_nil, List.append_nil, length_encode]
  rw [hlast]
  constructor
  · rintro ⟨ys, zs, hsplit, hys⟩
    rcases List.eq_nil_or_concat zs with rfl | ⟨vs, z, rfl⟩
    · rw [hsplit, List.append_nil] at hk
      omega
    · have hus : us = ys ++ vs := by
        rw [List.concat_eq_append, List.concat_eq_append,
          ← List.append_assoc] at hsplit
        exact (List.append_inj' hsplit rfl).1
      rw [hus, encodeAll_append, List.length_append, ← hys] at hsize
      exact ⟨_, rfl, by omega, List.length_eq_zero_iff.1
        (show x.payload.length = 0 by omega)⟩
  · rintro ⟨e, he, hheader, hpayload⟩
    cases he
    have hempty : x.payload.length = 0 := congrArg List.length hpayload
    exact ⟨us, [x], List.concat_eq_append, by omega⟩

-- ======================================================== the cut, read

/-- A traversal of a buffer that has been cut off at `k` yields the
elements that end before the cut, unchanged. It goes on as if nothing
were missing only if the cut is where they end; otherwise it fails with
the error that names this place and counts the bytes behind it. -/
theorem items_take (p : Policy) (data : Bytes) {k : Nat}
    (hk : k ≤ data.length) :
    let cut : View := { policy := p, bytes := data.take k }
    let es := Item.elements (View.mk p data).items.answer
    let kept := es.filter fun e => e.finish ≤ k
    let b := Element.lastFinish kept
    View.ofBuffer p data k = .ok cut
      ∧ b ≤ k
      ∧ cut.items.answer
        = kept.map .ok
          ++ (if k = b then []
            else if k - b < p.headerLen then
              [.error (.truncatedHeader b (k - b) p.headerLen)]
            else
              [.error (.truncatedPayload (b + p.headerLen)
                (p.declared (data.drop b)) (k - b - p.headerLen))])
      ∧ (cut.isValid.answer = true ↔ k = 0 ∨ ∃ e ∈ es, e.finish = k)
      ∧ ((View.mk p data).isValid.answer = true → k + 1 = data.length →
          (cut.isValid.answer = true
            ↔ ∃ e, es.getLast? = some e ∧ p.typeWidth = .absent
                ∧ p.lengthWidth = .one ∧ e.payload = [])) := by
  obtain ⟨xs, tail, htiling⟩ := exists_tiling p data
  have hfound : Item.elements (View.mk p data).items.answer
      = p.layout 0 xs := htiling.filterMap_items
  obtain ⟨ys, zs, rfl, hle, hlt, hcut⟩ := htiling.take hk
  dsimp only
  rw [hfound, filter_layout htiling hle hlt, lastFinish_layout]
  refine ⟨?_, hle, ?_, ?_, ?_⟩
  · rw [View.ofBuffer, Bytes.split?_eq, if_pos hk]
  · have hend : k - (p.encodeAll ys).length = 0
        ↔ k = (p.encodeAll ys).length := by omega
    rw [hcut.items_eq, stop_take (by rw [List.length_drop]; omega)]
    simp only [hend]
  · rw [htiling.isValid_take_iff hk, exists_append_iff_finish]
  -- one byte less is valid only if the last frame was one byte
  · intro hvalid hlast
    have htail : tail = [] := htiling.isValid_iff.1 hvalid
    have hsize : k + 1 = (p.encodeAll (ys ++ zs)).length := by
      rw [hlast, htiling.bytes_eq, htail, List.append_nil]
    rw [htiling.isValid_take_iff hk, exists_append_iff_getLast p hsize,
      headerLen_eq_one_iff]
    simp only [and_assoc]

/-- Nine bytes, cut off inside the payload of their second element, and
four bytes, cut off before the last, which is an element of its own. -/
theorem items_take_inside_payload_and_before_last_byte :
    let data : Bytes := [0, 1, 2, 2, 3, 0, 1, 2, 9]
    let short : Bytes := [2, 7, 7, 0]
    let bare : Policy := { typeWidth := .absent, lengthWidth := .one }
    7 ≤ data.length
      ∧ (View.mk default (data.take 7)).items.answer
        = [.ok { tag := 0, offset := 2, payload := [2] },
          .error (.truncatedPayload 5 3 2)]
      ∧ 3 ≤ short.length
      ∧ (View.mk bare short).isValid.answer = true
      ∧ (View.mk bare (short.take 3)).isValid.answer = true := by
  intro data short bare
  have hdata : (View.mk default data).items.answer
      = [.ok { tag := 0, offset := 2, payload := [2] },
        .ok { tag := 2, offset := 5, payload := [0, 1, 2] },
        .error (.truncatedHeader 8 1 2)] := by decide +kernel
  have hshort : (View.mk bare short).items.answer
      = [.ok { tag := 0, offset := 1, payload := [7, 7] },
        .ok { tag := 0, offset := 4, payload := [] }] := by decide +kernel
  have hvalid : (View.mk bare short).isValid.answer = true := by decide +kernel
  have hinside := (items_take default data (k := 7) (by decide)).2.2.1
  have hbefore := (items_take bare short (k := 3) (by decide)).2.2.2.2
    hvalid rfl
  rw [hdata] at hinside
  rw [hshort] at hbefore
  exact ⟨by decide, hinside, by decide, hvalid,
    hbefore.2 ⟨_, rfl, rfl, rfl, rfl⟩⟩

end Policy

end Tlv
