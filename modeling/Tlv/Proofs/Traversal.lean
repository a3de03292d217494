/-
What a traversal yields, for any bytes at all. Every byte string is a
row of whole frames and a torn tail (`exists_tiling`), and a traversal
yields the elements of the row, each where its frame begins, and then
what the tail says: nothing if it is empty, and otherwise the one error
that names it (`Tiling.traverse_eq`).

So the items of a view are a matter of the tiling of its bytes: they are
the elements of the row, with one error behind them unless the tail is
empty (`Tiling.items_cases`).
-/
import Tlv.Cursor.Items
import Tlv.View
import Tlv.Proofs.Frame
import Tlv.Proofs.Outcome

namespace Tlv

namespace Policy

variable {p : Policy}

-- ======================================================= the traversal

/-- What a traversal of some bytes yields when their first header begins
at `offset`. -/
def traverse (p : Policy) (offset : Nat) (bytes : Bytes) : List Item :=
  Cursor.toList { policy := p, offset, rest := bytes, failed := false }

/-- The elements of a row of frames, the first of which begins at
`offset`. -/
def layout (p : Policy) : Nat → List Entry → List Element
  | _, [] => []
  | offset, x :: xs =>
      p.placed offset x :: p.layout (offset + (p.encode x).length) xs

/-- What a traversal yields when it meets a torn tail. -/
def stop (p : Policy) (offset : Nat) (tail : Bytes) : List Item :=
  if tail.length = 0 then []
  else if tail.length < p.headerLen then
    [.error (.truncatedHeader offset tail.length p.headerLen)]
  else
    [.error (.truncatedPayload (offset + p.headerLen) (p.declared tail)
      (tail.length - p.headerLen))]

theorem traverse_of_readFrame_error {offset : Nat} {bytes : Bytes}
    {error : DecodeError} (hne : bytes ≠ [])
    (h : p.readFrame offset bytes = .error error) :
    p.traverse offset bytes = [.error error] := by
  have hstep : Cursor.step { policy := p, offset, rest := bytes, failed := false }
      = some (.error error,
          { policy := p, offset, rest := bytes, failed := true }) := by
    simp [Cursor.step, hne, h]
  exact Cursor.toList_of_step_eq_error hstep

/-- A frame that can be read is one element, and the traversal goes on
behind it. -/
theorem traverse_of_readFrame_ok {offset : Nat} {bytes rest : Bytes}
    {e : Element} (hne : bytes ≠ [])
    (h : p.readFrame offset bytes = .ok (e, rest)) :
    p.traverse offset bytes = .ok e :: p.traverse e.finish rest := by
  have hstep : Cursor.step { policy := p, offset, rest := bytes, failed := false }
      = some (.ok e,
          { policy := p, offset := e.finish, rest, failed := false }) := by
    simp [Cursor.step, hne, h]
  exact Cursor.toList_of_step_eq_some hstep

theorem traverse_nil (p : Policy) (offset : Nat) :
    p.traverse offset [] = [] :=
  Cursor.toList_of_step_eq_none rfl

/-- A torn tail yields its one error, or nothing. -/
theorem traverse_of_torn {bytes : Bytes} (h : p.Torn bytes)
    (offset : Nat) : p.traverse offset bytes = p.stop offset bytes := by
  unfold Torn at h
  unfold stop
  by_cases hempty : bytes.length = 0
  · rw [if_pos hempty, List.length_eq_zero_iff.1 hempty, traverse_nil]
  · have hne : bytes ≠ [] := fun hnil => hempty (by rw [hnil]; rfl)
    rw [if_neg hempty]
    by_cases hheader : bytes.length < p.headerLen
    · rw [if_pos hheader]
      exact traverse_of_readFrame_error hne
        (by rw [readFrame_eq, if_pos hheader])
    · rw [if_neg hheader]
      exact traverse_of_readFrame_error hne
        (by rw [readFrame_eq, if_neg hheader, if_pos h])

/-- A traversal of an encoding yields its entry and goes on behind it. -/
theorem traverse_encode_append {x : Entry} (h : p.Fits x) (offset : Nat)
    (rest : Bytes) :
    p.traverse offset (p.encode x ++ rest)
      = .ok (p.placed offset x)
        :: p.traverse (offset + (p.encode x).length) rest := by
  have hpos := p.headerLen_pos
  have hne : p.encode x ++ rest ≠ [] := by
    intro hnil
    have := congrArg List.length hnil
    simp at this
    omega
  rw [traverse_of_readFrame_ok hne (readFrame_encode_append h offset rest),
    length_encode, ← Nat.add_assoc]
  rfl

/-- A traversal of a row of encodings yields their elements and goes on
behind them. -/
theorem traverse_encodeAll_append {xs : List Entry}
    (h : ∀ x ∈ xs, p.Fits x) (offset : Nat) (rest : Bytes) :
    p.traverse offset (p.encodeAll xs ++ rest)
      = (p.layout offset xs).map .ok
        ++ p.traverse (offset + (p.encodeAll xs).length) rest := by
  induction xs generalizing offset with
  | nil => rfl
  | cons x xs ih =>
      have hx := h x (List.mem_cons_self ..)
      have hxs := ih fun y hy => h y (List.mem_cons_of_mem _ hy)
      rw [encodeAll_cons, List.append_assoc, traverse_encode_append hx, hxs,
        List.length_append, ← Nat.add_assoc]
      rfl

-- ============================================================= tilings

/-- Bytes as a row of whole frames and a torn tail. The frames are given
by the entries that are read from them. -/
structure Tiling (p : Policy) (bytes : Bytes) (xs : List Entry)
    (tail : Bytes) : Prop where
  bytes_eq : bytes = p.encodeAll xs ++ tail
  fits : ∀ x ∈ xs, p.Fits x
  carried : ∀ x ∈ xs, p.carried x = x
  torn : p.Torn tail

theorem Tiling.nil {tail : Bytes} (h : p.Torn tail) :
    p.Tiling tail [] tail :=
  ⟨rfl, by simp, by simp, h⟩

/-- A frame in front of what is tiled is one tile more. -/
theorem Tiling.cons {bytes tail : Bytes} {x : Entry} {xs : List Entry}
    (hfits : p.Fits x) (hcarried : p.carried x = x)
    (h : p.Tiling bytes xs tail) :
    p.Tiling (p.encode x ++ bytes) (x :: xs) tail := by
  refine ⟨?_, ?_, ?_, h.torn⟩
  · rw [encodeAll_cons, List.append_assoc, ← h.bytes_eq]
  · exact List.forall_mem_cons.2 ⟨hfits, h.fits⟩
  · exact List.forall_mem_cons.2 ⟨hcarried, h.carried⟩

/-- A tiling that is not empty has a frame in front of another tiling. -/
theorem Tiling.of_cons {bytes tail : Bytes} {x : Entry} {xs : List Entry}
    (h : p.Tiling bytes (x :: xs) tail) :
    p.Fits x ∧ p.carried x = x
      ∧ ∃ rest, bytes = p.encode x ++ rest ∧ p.Tiling rest xs tail := by
  obtain ⟨hfits, hfits'⟩ := List.forall_mem_cons.1 h.fits
  obtain ⟨hcarried, hcarried'⟩ := List.forall_mem_cons.1 h.carried
  refine ⟨hfits, hcarried, p.encodeAll xs ++ tail, ?_, rfl, hfits',
    hcarried', h.torn⟩
  rw [h.bytes_eq, encodeAll_cons, List.append_assoc]

/-- Every byte string is a row of whole frames and a torn tail. -/
theorem exists_tiling (p : Policy) (bytes : Bytes) :
    ∃ xs tail, p.Tiling bytes xs tail := by
  -- on the size, since a frame is cut off the front as a whole
  induction hn : bytes.length using Nat.strongRecOn generalizing bytes with
  | ind n ih =>
      by_cases htorn : p.Torn bytes
      · exact ⟨[], bytes, Tiling.nil htorn⟩
      · have hpos := p.headerLen_pos
        have hfront := encode_front_append htorn
        have hlen := congrArg List.length hfront
        rw [List.length_append, length_encode] at hlen
        obtain ⟨xs, tail, hrest⟩ :=
          ih (bytes.drop (p.headerLen + p.declared bytes)).length
            (by omega) _ rfl
        have hcons := Tiling.cons (fits_front htorn) (carried_front p bytes)
          hrest
        rw [hfront] at hcons
        exact ⟨_, _, hcons⟩

/-- A traversal yields the elements of the row and then what the tail
says. -/
theorem Tiling.traverse_eq {bytes tail : Bytes} {xs : List Entry}
    (h : p.Tiling bytes xs tail) (offset : Nat) :
    p.traverse offset bytes
      = (p.layout offset xs).map .ok
        ++ p.stop (offset + (p.encodeAll xs).length) tail := by
  rw [h.bytes_eq, traverse_encodeAll_append h.fits, traverse_of_torn h.torn]

-- ============================================================= layouts

/-- A row of frames goes on where another ends. -/
theorem layout_append (p : Policy) (offset : Nat) (xs ys : List Entry) :
    p.layout offset (xs ++ ys)
      = p.layout offset xs
        ++ p.layout (offset + (p.encodeAll xs).length) ys := by
  induction xs generalizing offset with
  | nil => rfl
  | cons x xs ih =>
      rw [encodeAll_cons, List.length_append, ← Nat.add_assoc,
        List.cons_append, layout, layout, ih, List.cons_append]

/-- In a layout each element comes behind the frames of those before
it. -/
theorem layout_eq_mapIdx (p : Policy) (offset : Nat) (xs : List Entry) :
    p.layout offset xs
      = xs.mapIdx fun i x =>
          p.placed (offset + (p.encodeAll (xs.take i)).length) x := by
  induction xs generalizing offset with
  | nil => rfl
  | cons x xs ih =>
      rw [List.mapIdx_cons, layout, ih]
      simp only [List.take_zero, encodeAll_nil, List.length_nil,
        List.take_succ_cons, encodeAll_cons, List.length_append,
        Nat.add_zero, Nat.add_assoc]

/-- A layout forgets only the tags that headers do not carry. -/
theorem map_entry_layout (p : Policy) (offset : Nat) (xs : List Entry) :
    (p.layout offset xs).map Element.entry = xs.map p.carried := by
  induction xs generalizing offset with
  | nil => rfl
  | cons x xs ih =>
      rw [layout, List.map_cons, List.map_cons, ih]
      rfl

/-- A frame ends where its payload does. -/
theorem finish_placed (p : Policy) (offset : Nat) (x : Entry) :
    (p.placed offset x).finish = offset + (p.encode x).length := by
  rw [length_encode, ← Nat.add_assoc]
  rfl

/-- An element of a layout is an entry, placed behind those before it. -/
theorem mem_layout_iff {offset : Nat} {xs : List Entry} {e : Element} :
    e ∈ p.layout offset xs
      ↔ ∃ ys x zs, xs = ys ++ x :: zs
          ∧ e = p.placed (offset + (p.encodeAll ys).length) x := by
  constructor
  · intro he
    induction xs generalizing offset with
    | nil => cases he
    | cons x xs ih =>
        rcases List.mem_cons.1 he with rfl | he
        · exact ⟨[], x, xs, rfl, rfl⟩
        · obtain ⟨ys, y, zs, rfl, rfl⟩ := ih he
          refine ⟨x :: ys, y, zs, rfl, ?_⟩
          rw [encodeAll_cons, List.length_append, Nat.add_assoc]
  · rintro ⟨ys, x, zs, rfl, rfl⟩
    rw [layout_append, layout]
    exact List.mem_append_right _ (List.mem_cons_self ..)

/-- No element of a layout ends before its first frame does. -/
theorem le_finish_of_mem_layout {offset : Nat} {x : Entry}
    {xs : List Entry} {e : Element} (he : e ∈ p.layout offset (x :: xs)) :
    offset + (p.encode x).length ≤ e.finish := by
  obtain ⟨ys, y, zs, hsplit, rfl⟩ := mem_layout_iff.1 he
  rw [finish_placed]
  cases ys with
  | nil =>
      cases hsplit
      exact Nat.le_refl _
  | cons y' ys =>
      cases hsplit
      rw [encodeAll_cons, List.length_append]
      omega

end Policy

-- =============================================================== views

namespace View

/-- The items of a view are those of a traversal from the start. -/
theorem answer_items (v : View) :
    v.items.answer = v.policy.traverse 0 v.bytes := by
  show (v.start.collect.run #[]).1.1 = _
  rw [Cursor.collect, Cursor.run_collectFrom]
  rfl

/-- A view is valid if all its items are elements. -/
theorem answer_isValid (v : View) :
    v.isValid.answer = v.items.answer.all Except.toBool := by
  rw [answer_items]
  show (v.start.allElements.run #[]).1 = _
  rw [Cursor.run_allElements]
  rfl

-- Each way of going through a view answers from its items and logs all
-- of their errors, also where it stops at the first.

section Runs

variable (v : View)

theorem toList_start : v.start.toList = v.items.answer :=
  v.answer_items.symm

/-- Listing answers the items and says what there is to say of them. -/
theorem run_items (log : Array Record) :
    v.items.run log
      = (v.items.answer,
          log ++ (v.items.answer.flatMap Item.records).toArray) := by
  rw [← toList_start, items, Logged.run_bind, Cursor.collect,
    Cursor.run_collectFrom]
  rfl

/-- Checking says the same as listing. -/
theorem run_isValid (log : Array Record) :
    v.isValid.run log
      = (v.items.answer.all Except.toBool,
          log ++ (v.items.answer.flatMap Item.records).toArray) := by
  rw [← toList_start]
  exact Cursor.run_allElements _ _

theorem run_elements (log : Array Record) :
    v.elements.run log
      = (v.items.answer.mapM id,
          log ++ (v.items.answer.flatMap Item.records).toArray) := by
  rw [← toList_start, elements, Cursor.run_elementsFrom]
  cases v.start.toList.mapM id <;> rfl

theorem run_render (log : Array Record) :
    v.render.run log
      = ("[" ++ ",".intercalate (v.items.answer.map Item.render) ++ "]",
          log ++ (v.items.answer.flatMap Item.records).toArray) := by
  rw [← toList_start, render, Logged.run_bind, Cursor.run_renderFrom]
  simp
  rfl

end Runs

/-- A traversal of the view yields these elements and no error. -/
def Reads (v : View) (es : List Element) : Prop :=
  v.items.answer = es.map .ok

/-- The elements of a list of items, if there is no error among them. -/
theorem mapM_id_eq_ok_iff {items : List Item} {es : List Element} :
    items.mapM id = .ok es ↔ items = es.map .ok := by
  induction items generalizing es with
  | nil =>
      rw [List.mapM_nil, eq_comm (a := []), List.map_eq_nil_iff]
      constructor
      · intro h
        cases h
        rfl
      · rintro rfl
        rfl
  | cons item items ih =>
      rw [List.mapM_cons]
      simp only [bind_eq_ok_iff, ih, id]
      constructor
      · rintro ⟨e, rfl, es', rfl, h⟩
        cases h
        rfl
      · intro h
        cases es with
        | nil => cases h
        | cons e es =>
            cases h
            exact ⟨e, rfl, es, rfl, rfl⟩

/-- A view reads as one row of elements at most. -/
theorem Reads.unique {v : View} {es es' : List Element}
    (h : v.Reads es) (h' : v.Reads es') : es = es' :=
  (List.map_inj_right fun _ _ => Except.ok.inj).1 (h.symm.trans h')

end View

namespace Policy

variable {p : Policy} {bytes tail : Bytes} {xs : List Entry}

/-- The items of a view, by the tiling of its bytes. -/
theorem Tiling.items_eq (h : p.Tiling bytes xs tail) :
    (View.mk p bytes).items.answer
      = (p.layout 0 xs).map .ok
        ++ p.stop (p.encodeAll xs).length tail := by
  rw [View.answer_items, h.traverse_eq, Nat.zero_add]

/-- An empty tail says nothing, and any other says one error. -/
theorem stop_cases (p : Policy) (offset : Nat) (tail : Bytes) :
    (tail = [] ∧ p.stop offset tail = [])
      ∨ (tail ≠ [] ∧ ∃ error, p.stop offset tail = [.error error]) := by
  unfold stop
  by_cases hempty : tail.length = 0
  · exact Or.inl ⟨List.length_eq_zero_iff.1 hempty, if_pos hempty⟩
  · refine Or.inr ⟨fun hnil => hempty (congrArg List.length hnil), ?_⟩
    rw [if_neg hempty]
    by_cases hheader : tail.length < p.headerLen
    · exact ⟨_, if_pos hheader⟩
    · exact ⟨_, if_neg hheader⟩

/-- There are two errors that a tail can say. -/
theorem stop_eq_or (p : Policy) (offset : Nat) (tail : Bytes) :
    p.stop offset tail = []
      ∨ p.stop offset tail
        = [.error (.truncatedHeader offset tail.length p.headerLen)]
      ∨ p.stop offset tail
        = [.error (.truncatedPayload (offset + p.headerLen)
            (p.declared tail) (tail.length - p.headerLen))] := by
  unfold stop
  by_cases hempty : tail.length = 0
  · exact Or.inl (if_pos hempty)
  · rw [if_neg hempty]
    by_cases hheader : tail.length < p.headerLen
    · exact Or.inr (Or.inl (if_pos hheader))
    · exact Or.inr (Or.inr (if_neg hheader))

/-- The items of a view are the elements of its row and, unless the tail
is empty, one error behind them. -/
theorem Tiling.items_cases (h : p.Tiling bytes xs tail) :
    (tail = [] ∧ (View.mk p bytes).items.answer = (p.layout 0 xs).map .ok)
      ∨ (tail ≠ [] ∧ ∃ error, (View.mk p bytes).items.answer
          = (p.layout 0 xs).map .ok ++ [.error error]) := by
  rw [h.items_eq]
  rcases stop_cases p (p.encodeAll xs).length tail with
    ⟨htail, hstop⟩ | ⟨htail, error, hstop⟩
  · exact Or.inl ⟨htail, by rw [hstop, List.append_nil]⟩
  · exact Or.inr ⟨htail, error, by rw [hstop]⟩

/-- The elements among the items are those of the row. -/
theorem Tiling.filterMap_items (h : p.Tiling bytes xs tail) :
    (View.mk p bytes).items.answer.filterMap Except.toOption
      = p.layout 0 xs := by
  have hrow : ((p.layout 0 xs).map (Except.ok (ε := DecodeError))).filterMap
      Except.toOption = p.layout 0 xs := by
    rw [List.filterMap_map]
    exact List.filterMap_some
  rcases h.items_cases with ⟨-, hitems⟩ | ⟨-, error, hitems⟩
  · rw [hitems, hrow]
  · rw [hitems, List.filterMap_append, hrow]
    exact List.append_nil _

/-- A view is valid if its tail is empty. -/
theorem Tiling.isValid_iff (h : p.Tiling bytes xs tail) :
    (View.mk p bytes).isValid.answer = true ↔ tail = [] := by
  rw [View.answer_isValid]
  rcases h.items_cases with ⟨htail, hitems⟩ | ⟨htail, error, hitems⟩
  · simp [hitems, htail, Except.toBool]
  · simp [hitems, htail, Except.toBool]

/-- A view reads without error if its tail is empty, and then as its
row. -/
theorem Tiling.reads_iff (h : p.Tiling bytes xs tail)
    {es : List Element} :
    (View.mk p bytes).Reads es ↔ tail = [] ∧ es = p.layout 0 xs := by
  unfold View.Reads
  rcases h.items_cases with ⟨htail, hitems⟩ | ⟨htail, error, hitems⟩
  · rw [hitems, List.map_inj_right fun _ _ => Except.ok.inj]
    constructor
    · intro heq
      exact ⟨htail, heq.symm⟩
    · intro ⟨_, heq⟩
      exact heq.symm
  · constructor
    · intro heq
      have herror : .error error
          ∈ es.map (Except.ok (ε := DecodeError)) := by
        rw [← heq, hitems]
        exact List.mem_append_right _ (List.mem_singleton_self _)
      simp at herror
    · intro ⟨hempty, _⟩
      exact absurd hempty htail

/-- A view is valid if it reads as some elements. -/
theorem isValid_iff_exists_reads {data : Bytes} :
    (View.mk p data).isValid.answer = true
      ↔ ∃ es, (View.mk p data).Reads es := by
  obtain ⟨xs, tail, htiling⟩ := exists_tiling p data
  rw [htiling.isValid_iff]
  constructor
  · intro htail
    exact ⟨_, htiling.reads_iff.2 ⟨htail, rfl⟩⟩
  · intro ⟨es, hreads⟩
    exact (htiling.reads_iff.1 hreads).1

/-- A view that reads without error consists of the encodings of what it
reads as, and these fit. -/
theorem encodeAll_of_reads {data : Bytes} {es : List Element}
    (h : (View.mk p data).Reads es) :
    (∀ x ∈ es.map Element.entry, p.Fits x)
      ∧ p.encodeAll (es.map Element.entry) = data := by
  obtain ⟨xs, tail, htiling⟩ := exists_tiling p data
  obtain ⟨htail, rfl⟩ := htiling.reads_iff.1 h
  have hentries : (p.layout 0 xs).map Element.entry = xs := by
    rw [map_entry_layout, List.map_congr_left htiling.carried,
      List.map_id']
  rw [hentries, htiling.bytes_eq, htail, List.append_nil]
  exact ⟨htiling.fits, rfl⟩

/-- Encodings are read as their elements. -/
theorem reads_encodeAll (h : ∀ x ∈ xs, p.Fits x) :
    (View.mk p (p.encodeAll xs)).Reads (p.layout 0 xs) := by
  have hrow := traverse_encodeAll_append h 0 []
  rw [List.append_nil, traverse_nil, List.append_nil] at hrow
  rw [View.Reads, View.answer_items, hrow]

end Policy

end Tlv
