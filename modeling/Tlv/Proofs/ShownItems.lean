/-
What can be told of a view from what it is shown as. The text is a row of
items with commas between them, and there are commas inside of items too.
It can be taken apart all the same: an item is settled, together with the
place where it ends, by the text that begins with it
(`Item.render_append_inj`), since numbers end where their digits do, a
payload before the next comma or bracket, and the message of an error at
the first angle bracket. So a row of items is settled by its text, up to
the places of the elements (`Item.map_shown_of_intercalate`).

The places are not shown. They follow from the policy and from the sizes
of the elements before (`Policy.items_eq_of_map_shown`).
-/
import Tlv.Proofs.Readings

namespace Tlv

-- ============================================================ messages

namespace DecodeError

/-- The message of a length beyond the capacity, as texts and numbers in
turn. -/
theorem toList_message_invalidLength (length capacity : Nat) :
    (invalidLength length capacity).message.toList
      = "actual length ".toList ++ (length.repr.toList
        ++ ' ' :: ("exceeds buffer capacity ".toList
        ++ capacity.repr.toList)) := by
  show ("actual length " ++ length.repr ++ " exceeds buffer capacity "
    ++ capacity.repr).toList = _
  simp only [String.toList_append, List.append_assoc]
  rfl

theorem toList_message_truncatedHeader (offset available need : Nat) :
    (truncatedHeader offset available need).message.toList
      = "truncated header at offset ".toList ++ (offset.repr.toList
        ++ ':' :: (" have ".toList ++ (available.repr.toList
        ++ ',' :: (" need ".toList ++ need.repr.toList)))) := by
  show ("truncated header at offset " ++ offset.repr ++ ": have "
    ++ available.repr ++ ", need " ++ need.repr).toList = _
  simp only [String.toList_append, List.append_assoc]
  rfl

theorem toList_message_truncatedPayload (offset declared available : Nat) :
    (truncatedPayload offset declared available).message.toList
      = "truncated payload at offset ".toList ++ (offset.repr.toList
        ++ ':' :: (" declared ".toList ++ (declared.repr.toList
        ++ ',' :: (" have ".toList ++ available.repr.toList)))) := by
  show ("truncated payload at offset " ++ offset.repr ++ ": declared "
    ++ declared.repr ++ ", have " ++ available.repr).toList = _
  simp only [String.toList_append, List.append_assoc]
  rfl

/-- No message holds the bracket that closes it. -/
theorem not_mem_message (error : DecodeError) :
    '>' ∉ error.message.toList := by
  have hnumber (n : Nat) : '>' ∉ n.repr.toList :=
    Decimal.not_mem_toList_repr (by decide) n
  cases error with
  | invalidLength length capacity =>
      rw [toList_message_invalidLength]
      simp [-Nat.toList_repr, hnumber]
  | truncatedHeader offset available need =>
      rw [toList_message_truncatedHeader]
      simp [-Nat.toList_repr, hnumber]
  | truncatedPayload offset declared available =>
      rw [toList_message_truncatedPayload]
      simp [-Nat.toList_repr, hnumber]

/-- Three numbers can be read off a text if a colon stands behind the
first and a comma behind the second. -/
theorem numbers_inj {lead mid mid' : List Char} {a b c a' b' c' : Nat}
    (h : lead ++ (a.repr.toList ++ ':' :: (mid ++ (b.repr.toList
        ++ ',' :: (mid' ++ c.repr.toList))))
      = lead ++ (a'.repr.toList ++ ':' :: (mid ++ (b'.repr.toList
        ++ ',' :: (mid' ++ c'.repr.toList))))) :
    a = a' ∧ b = b' ∧ c = c' := by
  obtain ⟨ha, h⟩ := Decimal.repr_append_inj (by decide) (by decide)
    (List.append_cancel_left h)
  obtain ⟨hb, h⟩ := Decimal.repr_append_inj (by decide) (by decide)
    (List.append_cancel_left (List.cons.inj h).2)
  exact ⟨ha, hb,
    Decimal.repr_inj (List.append_cancel_left (List.cons.inj h).2)⟩

/-- No two errors have the same message. -/
theorem message_injective {error error' : DecodeError}
    (h : error.message = error'.message) : error = error' := by
  have hlists := congrArg String.toList h
  -- messages of two kinds differ in their first words, those of one kind in
  -- their numbers
  cases error with
  | invalidLength length capacity =>
      rw [toList_message_invalidLength] at hlists
      cases error' with
      | invalidLength length' capacity' =>
          rw [toList_message_invalidLength] at hlists
          obtain ⟨hlength, hbehind⟩ := Decimal.repr_append_inj (by decide)
            (by decide) (List.append_cancel_left hlists)
          have hcapacity := Decimal.repr_inj
            (List.append_cancel_left (List.cons.inj hbehind).2)
          rw [hlength, hcapacity]
      | truncatedHeader =>
          rw [toList_message_truncatedHeader] at hlists
          simp at hlists
      | truncatedPayload =>
          rw [toList_message_truncatedPayload] at hlists
          simp at hlists
  | truncatedHeader offset available need =>
      rw [toList_message_truncatedHeader] at hlists
      cases error' with
      | invalidLength =>
          rw [toList_message_invalidLength] at hlists
          simp at hlists
      | truncatedHeader offset' available' need' =>
          rw [toList_message_truncatedHeader] at hlists
          obtain ⟨rfl, rfl, rfl⟩ := numbers_inj hlists
          rfl
      | truncatedPayload =>
          rw [toList_message_truncatedPayload] at hlists
          simp at hlists
  | truncatedPayload offset declared available =>
      rw [toList_message_truncatedPayload] at hlists
      cases error' with
      | invalidLength =>
          rw [toList_message_invalidLength] at hlists
          simp at hlists
      | truncatedHeader =>
          rw [toList_message_truncatedHeader] at hlists
          simp at hlists
      | truncatedPayload offset' declared' available' =>
          rw [toList_message_truncatedPayload] at hlists
          obtain ⟨rfl, rfl, rfl⟩ := numbers_inj hlists
          rfl

end DecodeError

-- =============================================================== items

/-- What comes behind an item: a comma or a bracket. -/
def Closes (cs : List Char) : Prop :=
  ∃ c rest, cs = c :: rest ∧ (c = ',' ∨ c = ']')

namespace Element

/-- Where an element closes, its payload can be told from what follows. -/
theorem shownPayload_append_inj {e e' : Element} {rest rest' : List Char}
    (hrest : Closes rest) (hrest' : Closes rest')
    (h : e.shownPayload ++ rest = e'.shownPayload ++ rest') :
    e.payload = e'.payload ∧ rest = rest' := by
  obtain ⟨c, cs, rfl, hc⟩ := hrest
  obtain ⟨c', cs', rfl, hc'⟩ := hrest'
  unfold shownPayload at h
  split at h
  · next hpayload =>
    split at h
    · next hpayload' => exact ⟨hpayload.trans hpayload'.symm, h⟩
    · rcases hc with rfl | rfl <;> cases h
  · split at h
    · rcases hc' with rfl | rfl <;> cases h
    · have hmark : ∀ n < 16, (Nat.digitChar n != ','
          && Nat.digitChar n != ']') = true := by decide
      have hdigit (bytes : Bytes) : ∀ d ∈ (Hex.encode bytes).toList,
          (d != ',' && d != ']') = true := by
        intro d hd
        obtain ⟨n, hn, rfl⟩ := Hex.mem_toList_encode hd
        exact hmark n hn
      simp only [List.cons_append, List.cons.injEq, true_and] at h
      have hparts := append_cons_inj_of_forall (hdigit _) (hdigit _)
        (by rcases hc with rfl | rfl <;> rfl)
        (by rcases hc' with rfl | rfl <;> rfl) h
      exact ⟨Hex.encode_injective (String.toList_inj.1 hparts.1), hparts.2⟩

/-- Where an element closes, all that is shown of it can be told from
what follows. -/
theorem render_append_inj {e e' : Element} {rest rest' : List Char}
    (hrest : Closes rest) (hrest' : Closes rest')
    (h : e.render.toList ++ rest = e'.render.toList ++ rest') :
    e.entry = e'.entry ∧ rest = rest' := by
  simp only [toList_render, List.cons_append, List.append_assoc,
    List.cons.injEq, true_and] at h
  obtain ⟨htag, h⟩ := Decimal.repr_append_inj (by decide) (by decide) h
  simp only [List.cons.injEq, true_and] at h
  obtain ⟨-, h⟩ := Decimal.repr_append_inj (by decide) (by decide) h
  simp only [List.cons.injEq, true_and] at h
  obtain ⟨hpayload, hrests⟩ := shownPayload_append_inj hrest hrest' h
  refine ⟨?_, hrests⟩
  rw [entry, entry, UInt32.toNat_inj.1 htag, hpayload]

end Element

namespace Item

/-- What can be told of an item from what it is shown as: all of an
error, and all of an element but its place. -/
def shown (item : Item) : Except DecodeError Entry :=
  item.map Element.entry

theorem filterMap_map_shown (items : List Item) :
    (items.map shown).filterMap Except.toOption
      = (items.filterMap Except.toOption).map Element.entry := by
  rw [List.filterMap_map, List.map_filterMap]
  refine List.filterMap_congr fun item _ => ?_
  cases item <;> rfl

theorem toList_render_error (error : DecodeError) :
    (Item.render (.error error)).toList
      = '<' :: (error.message.toList ++ ['>']) := by
  simp [render]

/-- Where an item closes, what is shown of it can be told from what
follows. -/
theorem render_append_inj {item item' : Item} {rest rest' : List Char}
    (hrest : Closes rest) (hrest' : Closes rest')
    (h : item.render.toList ++ rest = item'.render.toList ++ rest') :
    item.shown = item'.shown ∧ rest = rest' := by
  cases item with
  | ok e =>
      cases item' with
      | ok e' =>
          obtain ⟨hentry, hrests⟩ :=
            Element.render_append_inj hrest hrest' h
          exact ⟨congrArg Except.ok hentry, hrests⟩
      | error error' =>
          change e.render.toList ++ rest = _ at h
          rw [Element.toList_render, toList_render_error] at h
          simp at h
  | error error =>
      rw [toList_render_error] at h
      cases item' with
      | ok e' =>
          change _ = e'.render.toList ++ rest' at h
          rw [Element.toList_render] at h
          simp at h
      | error error' =>
          rw [toList_render_error] at h
          simp only [List.cons_append, List.append_assoc, List.nil_append,
            List.cons.injEq, true_and] at h
          obtain ⟨hmessage, hrests⟩ := append_cons_inj_of_front
            error.not_mem_message error'.not_mem_message h
          have herror := DecodeError.message_injective
            (String.toList_inj.1 hmessage)
          exact ⟨by rw [herror], hrests⟩

-- ================================================================ rows

/-- What comes behind an item and before others, up to the closing
bracket. -/
def shownBehind : List Item → List Char
  | [] => [']']
  | item :: items => ',' :: (item.render.toList ++ shownBehind items)

theorem closes_shownBehind (items : List Item) :
    Closes (shownBehind items) := by
  cases items with
  | nil => exact ⟨']', [], rfl, Or.inr rfl⟩
  | cons item items => exact ⟨',', _, rfl, Or.inl rfl⟩

/-- The first of some items is shown in front of the others. -/
theorem toList_intercalate_cons (item : Item) (items : List Item) :
    (",".intercalate ((item :: items).map render) ++ "]").toList
      = item.render.toList ++ shownBehind items := by
  induction items generalizing item with
  | nil => simp [shownBehind]
  | cons item' items ih =>
      have hrest := ih item'
      rw [List.map_cons, List.map_cons, String.intercalate_cons_cons]
      rw [List.map_cons] at hrest
      simp only [String.append_assoc, String.toList_append, shownBehind]
        at hrest ⊢
      rw [hrest]
      simp

/-- Where the texts behind an item are the same, the same is shown of the
items there. -/
theorem map_shown_of_shownBehind {items items' : List Item}
    (h : shownBehind items = shownBehind items') :
    items.map shown = items'.map shown := by
  induction items generalizing items' with
  | nil =>
      cases items' with
      | nil => rfl
      | cons item' items' => simp [shownBehind] at h
  | cons item items ih =>
      cases items' with
      | nil => simp [shownBehind] at h
      | cons item' items' =>
          simp only [shownBehind, List.cons.injEq, true_and] at h
          obtain ⟨hitem, hitems⟩ := render_append_inj
            (closes_shownBehind items) (closes_shownBehind items') h
          rw [List.map_cons, List.map_cons, hitem, ih hitems]

/-- No item is shown as what closes a row. -/
theorem render_append_ne (item : Item) (rest : List Char) :
    item.render.toList ++ rest ≠ [']'] := by
  intro h
  cases item with
  | ok e =>
      change e.render.toList ++ rest = _ at h
      rw [Element.toList_render] at h
      simp at h
  | error error =>
      rw [toList_render_error] at h
      simp at h

/-- A row of items in a text can be told apart from any other, up to the
places of its elements. -/
theorem map_shown_of_intercalate {items items' : List Item}
    (h : ",".intercalate (items.map render) ++ "]"
      = ",".intercalate (items'.map render) ++ "]") :
    items.map shown = items'.map shown := by
  have hlists := congrArg String.toList h
  cases items with
  | nil =>
      cases items' with
      | nil => rfl
      | cons item' items' =>
          rw [toList_intercalate_cons] at hlists
          exact absurd hlists.symm (render_append_ne item' _)
  | cons item items =>
      rw [toList_intercalate_cons] at hlists
      cases items' with
      | nil => exact absurd hlists (render_append_ne item _)
      | cons item' items' =>
          rw [toList_intercalate_cons] at hlists
          exact map_shown_of_shownBehind (congrArg (',' :: ·) hlists)

end Item

-- =============================================================== views

namespace Policy

variable {p : Policy}

/-- Under one policy the places of elements follow from what comes before
them. -/
theorem items_eq_of_map_shown {data data' : Bytes}
    (h : (View.mk p data).items.answer.map Item.shown
      = (View.mk p data').items.answer.map Item.shown) :
    (View.mk p data).items.answer = (View.mk p data').items.answer := by
  obtain ⟨xs, tail, htiling⟩ := p.exists_tiling data
  obtain ⟨ys, tail', htiling'⟩ := p.exists_tiling data'
  have hentries {data tail : Bytes} {xs : List Entry}
      (htiling : p.Tiling data xs tail) :
      ((View.mk p data).items.answer.map Item.shown).filterMap
        Except.toOption = xs := by
    rw [Item.filterMap_map_shown, htiling.filterMap_items, map_entry_layout,
      List.map_congr_left htiling.carried, List.map_id']
  obtain rfl : xs = ys := by
    rw [← hentries htiling, h, hentries htiling']
  have hitems := htiling.items_eq
  have hitems' := htiling'.items_eq
  rw [hitems, hitems', List.map_append, List.map_append,
    List.append_right_inj] at h
  rw [hitems, hitems', List.append_right_inj]
  -- what is left on either side is nothing or one error
  rcases stop_cases p (p.encodeAll xs).length tail with
    ⟨-, hstop⟩ | ⟨-, error, hstop⟩
  · rw [hstop] at h ⊢
    exact (List.map_eq_nil_iff.1 h.symm).symm
  · rcases stop_cases p (p.encodeAll xs).length tail' with
      ⟨-, hstop'⟩ | ⟨-, error', hstop'⟩
    · rw [hstop, hstop'] at h
      cases h
    · rw [hstop, hstop'] at h ⊢
      cases h
      rfl

end Policy

/-- Two byte strings are shown alike under a policy exactly if traversals
of them yield the same: elements with the same tags, places and payloads,
and then the same error or none. If one of them is valid, they are the
same bytes. -/
theorem View.render_eq_render_iff (p : Policy) (data data' : Bytes) :
    let v : View := { policy := p, bytes := data }
    let v' : View := { policy := p, bytes := data' }
    (v.render.answer = v'.render.answer
        ↔ v.items.answer = v'.items.answer)
      ∧ (v.isValid.answer = true →
          v.render.answer = v'.render.answer → data = data') := by
  intro v v'
  have hitems : v.render.answer = v'.render.answer
      ↔ v.items.answer = v'.items.answer := by
    constructor
    · intro h
      rw [answer_render, answer_render, String.append_assoc,
        String.append_assoc, String.append_right_inj] at h
      exact Policy.items_eq_of_map_shown (Item.map_shown_of_intercalate h)
    · intro h
      rw [answer_render, answer_render, h]
  refine ⟨hitems, fun hvalid h => ?_⟩
  obtain ⟨es, hreads⟩ := Policy.isValid_iff_exists_reads.1 hvalid
  have hreads' : v'.Reads es := (hitems.1 h).symm.trans hreads
  exact (Policy.encodeAll_of_reads hreads).2.symm.trans
    (Policy.encodeAll_of_reads hreads').2

/-- Two torn headers are shown alike whatever is in them, so that neither
byte string is valid. -/
theorem View.render_eq_render_iff_torn_headers :
    let v : View := { policy := default, bytes := [0, 1, 2, 7] }
    let v' : View := { policy := default, bytes := [0, 1, 2, 9] }
    v.render.answer
        = "[(T=0,L=1) 0x02,<truncated header at offset 3: have 1, need 2>]"
      ∧ v.render.answer = v'.render.answer
      ∧ v.items.answer = v'.items.answer
      ∧ v.isValid.answer ≠ true := by
  intro v v'
  have hrender : v.render.answer
      = "[(T=0,L=1) 0x02,<truncated header at offset 3: have 1, need 2>]" := by
    decide +kernel
  have halike : v.render.answer = v'.render.answer := by decide +kernel
  obtain ⟨hitems, hbytes⟩ :=
    render_eq_render_iff default [0, 1, 2, 7] [0, 1, 2, 9]
  refine ⟨hrender, halike, hitems.1 halike, fun hvalid => ?_⟩
  exact absurd (hbytes hvalid halike) (by decide)

end Tlv
