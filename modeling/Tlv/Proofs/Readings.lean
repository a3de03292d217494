/-
All ways of reading a buffer agree. Each of them goes through the same
items, and these are some elements and then perhaps one error
(`View.items_cases`). Reading one item after the other yields them;
`isValid` asks whether the error is there; `elements` and the decoding
command answer the elements, or the error if it is there; and `render`
shows them all, so that an error can be told by its bracket, which no
element is shown with (`Item.mem_render_iff`).

The decoding command is given text. A text spells some bytes if it has
two digits of either case for each of them and nothing but blanks around
(`Hex.Spells`), and it is read as these bytes (`Hex.Spells.decode_trim`).
-/
import Mathlib.Data.List.TakeWhile
import Tlv.Proofs.Advance
import Tlv.Proofs.Commands
import Tlv.Proofs.Lines

namespace Tlv

-- =========================================================== spellings

namespace Blank

/-- Neither case of a letter is blank. -/
theorem isBlank_toLower (c : Char) : isBlank c.toLower = isBlank c := by
  unfold isBlank
  rw [Hex.toNat_toLower]
  split
  · next hletter =>
    rw [Bool.eq_iff_iff]
    simp
    omega
  · rfl

/-- More blanks around a text are cut off with its own. -/
theorem trim_append {before after : String}
    (hblank : ∀ c ∈ before.toList ++ after.toList, isBlank c = true)
    (text : String) : trim (before ++ text ++ after) = trim text := by
  obtain ⟨hbefore, hafter⟩ := List.forall_mem_append.1 hblank
  have hreverse : ∀ c ∈ after.toList.reverse, isBlank c = true :=
    fun c hc => hafter c (List.mem_reverse.1 hc)
  unfold trim
  rw [String.toList_append, String.toList_append, List.append_assoc,
    List.dropWhile_append_of_pos hbefore, List.dropWhile_append]
  cases text.toList.dropWhile isBlank with
  | nil =>
      -- then all is blank, and the front takes what is behind too
      rw [List.isEmpty_nil, if_pos rfl, List.dropWhile_eq_nil_iff.2 hafter]
  | cons c cs =>
      rw [List.isEmpty_cons, if_neg Bool.false_ne_true, List.reverse_append,
        List.dropWhile_append_of_pos hreverse]

end Blank

namespace Hex

/-- Two digits of either case for each of these bytes, with blanks
around them. -/
def Spells (text : String) (bytes : Bytes) : Prop :=
  ∃ before digits after : String, text = before ++ digits ++ after
    ∧ (∀ c ∈ before.toList ++ after.toList, Blank.isBlank c = true)
    ∧ digits.toLower = encode bytes

/-- What a text spells is read from it, whatever blanks there are
around. -/
theorem Spells.decode_trim {text : String} {bytes : Bytes}
    (h : Spells text bytes) : decode (Blank.trim text) = .ok bytes := by
  obtain ⟨before, digits, after, rfl, hblank, hdigits⟩ := h
  have hdigit : ∀ n < 16, Blank.isBlank (Nat.digitChar n) = false := by
    decide
  have htext : ∀ c ∈ digits.toList, Blank.isBlank c = false := by
    intro c hc
    have hlower := List.mem_map_of_mem (f := Char.toLower) hc
    rw [← toList_toLower, hdigits] at hlower
    obtain ⟨n, hn, heq⟩ := mem_toList_encode hlower
    rw [← Blank.isBlank_toLower, heq, hdigit n hn]
  rw [Blank.trim_append hblank, Blank.trim_of_forall htext]
  exact decode_eq_ok_iff.2 hdigits

end Hex

-- =============================================================== shown

/-- A character that is no part of the separator stands in joined texts
if it stands in one of them. -/
theorem mem_toList_intercalate {c : Char} {separator : String}
    (h : c ∉ separator.toList) (texts : List String) :
    c ∈ (separator.intercalate texts).toList
      ↔ ∃ text ∈ texts, c ∈ text.toList := by
  induction texts with
  | nil => simp
  | cons text texts ih =>
      cases texts with
      | nil => simp
      | cons text' texts =>
          rw [String.intercalate_cons_cons, String.toList_append,
            String.toList_append, List.mem_append, List.mem_append, ih,
            or_iff_left h]
          simp

namespace Element

/-- The payload as an element is shown with it. -/
def shownPayload (e : Element) : List Char :=
  if e.payload = [] then []
  else ' ' :: '0' :: 'x' :: (Hex.encode e.payload).toList

/-- A shown element is its tag and its length in parentheses, with the
payload behind them. -/
theorem toList_render (e : Element) :
    e.render.toList
      = '(' :: 'T' :: '=' :: (e.tag.toNat.repr.toList
        ++ ',' :: 'L' :: '=' :: (e.length.repr.toList
        ++ ')' :: e.shownPayload)) := by
  unfold render shownPayload
  by_cases hpayload : e.payload = []
  · simp [hpayload]
    rfl
  · simp [hpayload]
    rfl

/-- No element is shown with an angle bracket. -/
theorem not_mem_render (e : Element) : '<' ∉ e.render.toList := by
  have htag := Decimal.not_mem_toList_repr (c := '<') (by decide)
    e.tag.toNat
  have hlength := Decimal.not_mem_toList_repr (c := '<') (by decide)
    e.length
  have hpayload := Hex.not_mem_toList_encode (c := '<') (by decide)
    e.payload
  rw [toList_render, shownPayload]
  split <;> simp_all

end Element

/-- An error is shown with an angle bracket, an element is not. -/
theorem Item.mem_render_iff (item : Item) :
    '<' ∈ item.render.toList ↔ item.toBool = false := by
  cases item with
  | ok e => exact iff_of_false e.not_mem_render (by simp [Except.toBool])
  | error error => simp [render, Except.toBool]

-- =============================================================== items

/-- What a tail says is nothing or an error that blames the bytes. -/
theorem Policy.stop_eq_nil_or (p : Policy) (offset : Nat) (tail : Bytes) :
    p.stop offset tail = []
      ∨ ∃ error, p.stop offset tail = [.error error]
        ∧ (Error.decode error).isMalformedInput = true := by
  rcases p.stop_eq_or offset tail with hstop | hstop | hstop
  · exact Or.inl hstop
  · exact Or.inr ⟨_, hstop, rfl⟩
  · exact Or.inr ⟨_, hstop, rfl⟩

namespace View

/-- The items are some elements and then perhaps one error, which blames
the bytes. -/
theorem items_cases (v : View) :
    let items := v.items.answer
    let es := Item.elements items
    items = es.map .ok
      ∨ ∃ error, items = es.map .ok ++ [.error error]
        ∧ (Error.decode error).isMalformedInput = true := by
  obtain ⟨xs, tail, htiling⟩ := v.policy.exists_tiling v.bytes
  have hes : Item.elements v.items.answer = v.policy.layout 0 xs :=
    htiling.filterMap_items
  have hitems := htiling.items_eq
  dsimp only
  rw [hes]
  rcases v.policy.stop_eq_nil_or (v.policy.encodeAll xs).length tail with
    hstop | ⟨error, hstop, hmalformed⟩
  · rw [hstop, List.append_nil] at hitems
    exact Or.inl hitems
  · rw [hstop] at hitems
    exact Or.inr ⟨error, hitems, hmalformed⟩

/-- Elements with an error behind them are no list of elements, and the
error says why. -/
theorem mapM_id_append_error (es : List Element) (error : DecodeError) :
    (es.map (Except.ok (ε := DecodeError)) ++ [Except.error error]).mapM id
      = .error error := by
  induction es with
  | nil => rfl
  | cons e es ih =>
      rw [List.map_cons, List.cons_append, List.mapM_cons, ih]
      rfl

theorem answer_elements (v : View) :
    v.elements.answer = v.items.answer.mapM id :=
  congrArg Prod.fst (v.run_elements #[])

/-- The items are shown in brackets, with commas between them. -/
theorem answer_render (v : View) :
    v.render.answer
      = "[" ++ ",".intercalate (v.items.answer.map Item.render) ++ "]" :=
  congrArg Prod.fst (v.run_render #[])

theorem isValid_iff (v : View) :
    v.isValid.answer = true ↔ ∀ error, .error error ∉ v.items.answer := by
  rw [answer_isValid, List.all_eq_true]
  constructor
  · intro hall error herror
    cases hall _ herror
  · intro hnone item hitem
    cases item with
    | ok e => rfl
    | error error => exact absurd hitem (hnone error)

/-- The brackets and commas around the items are none of an error. -/
theorem mem_render_iff (v : View) :
    '<' ∈ v.render.answer.toList ↔ v.isValid.answer = false := by
  rw [answer_render, answer_isValid, List.all_eq_false,
    String.toList_append, String.toList_append, List.mem_append,
    List.mem_append, mem_toList_intercalate (by decide)]
  simp [Item.mem_render_iff]

end View

-- ========================================================= the command

/-- The widths of a policy make this policy. -/
theorem Policy.ofWidths_bytes (p : Policy) :
    ofWidths p.typeWidth.bytes p.lengthWidth.bytes = .ok p := by
  obtain ⟨w, w'⟩ := p
  cases w <;> cases w' <;> rfl

/-- Decoding answers from the items of the bytes that its text spells. -/
theorem Invocation.answer_run_decode (p : Policy) {buffer : String}
    {bytes : Bytes} (h : Hex.Spells buffer bytes) :
    (mk p.typeWidth.bytes p.lengthWidth.bytes (.decode buffer)).run.answer
      = match (View.mk p bytes).items.answer.mapM id with
        | .error cause => .error (.codec (.decode cause))
        | .ok es => .ok ("\n".intercalate (es.map Command.line)) := by
  have hread := Command.answer_runDecode p buffer
  rw [h.decode_trim] at hread
  unfold run
  dsimp only
  rw [p.ofWidths_bytes]
  exact hread

-- ========================================================= all readings

/-- All ways of reading a buffer agree on its items. These are what
comes one by one, wherever one skips to, and what is collected. They are
elements, with one error behind them unless the buffer is valid; the
error then is the answer that is given instead of the elements, and also
of the command that decodes a text which spells the buffer, with the
buffer to blame. Otherwise the command answers one line for each element.
What is shown has an angle bracket in it exactly if there is an error. -/
theorem View.readings_agree (p : Policy) (bytes : Bytes) :
    let v : View := { policy := p, bytes }
    let items := v.start.toList
    let es := Item.elements items
    let decode := fun buffer : String =>
      (Invocation.mk p.typeWidth.bytes p.lengthWidth.bytes
        (.decode buffer)).run.answer
    (∀ n, (v.start.nth n).answer.1 = items[n]?)
      ∧ v.start.collect.answer.1 = items
      ∧ v.items.answer = items
      ∧ (v.isValid.answer = true ↔ ∀ error, .error error ∉ items)
      ∧ v.render.answer
        = "[" ++ ",".intercalate (items.map Item.render) ++ "]"
      ∧ (∀ error : DecodeError,
          Item.render (.error error) = "<" ++ error.message ++ ">")
      ∧ ('<' ∈ v.render.answer.toList ↔ v.isValid.answer = false)
      ∧ ((items = es.map .ok ∧ v.isValid.answer = true
          ∧ v.elements.answer = .ok es
          ∧ ∀ buffer, Hex.Spells buffer bytes →
            ∃ out, decode buffer = .ok out
              ∧ Command.lines out = es.map Command.line)
        ∨ ∃ error, items = es.map .ok ++ [.error error]
          ∧ v.isValid.answer = false ∧ v.elements.answer = .error error
          ∧ (Error.decode error).isMalformedInput = true
          ∧ ∀ buffer, Hex.Spells buffer bytes →
            decode buffer = .error (.codec (.decode error))) := by
  intro v items es decode
  have hitems : v.items.answer = items := v.toList_start.symm
  have hvalid := v.isValid_iff
  have helements := v.answer_elements
  have hrender := v.answer_render
  have hcases := v.items_cases
  rw [hitems] at hvalid helements hrender hcases
  have hdecode : ∀ buffer, Hex.Spells buffer bytes → decode buffer
      = match items.mapM id with
        | .error cause => .error (.codec (.decode cause))
        | .ok es => .ok ("\n".intercalate (es.map Command.line)) := by
    intro buffer hspells
    rw [← hitems]
    exact Invocation.answer_run_decode p hspells
  refine ⟨fun n => ?_, ?_, hitems, hvalid, hrender, fun _ => rfl,
    v.mem_render_iff, ?_⟩
  · rw [Cursor.answer_nth]
  · rw [Cursor.answer_collect]
  -- either all items are elements, or there is one error behind them
  · rcases hcases with hall | ⟨error, hsplit, hmalformed⟩
    · have hread : items.mapM id = .ok es := mapM_id_eq_ok_iff.2 hall
      refine Or.inl ⟨hall, hvalid.2 ?_, helements.trans hread, ?_⟩
      · intro error herror
        rw [hall] at herror
        simp at herror
      · intro buffer hspells
        refine ⟨_, ?_, Command.lines_intercalate_map_line es⟩
        rw [hdecode buffer hspells, hread]
    · have hread : items.mapM id = .error error := by
        rw [hsplit]
        exact mapM_id_append_error es error
      have herror : .error error ∈ items := by
        rw [hsplit]
        exact List.mem_append_right _ (List.mem_singleton_self _)
      refine Or.inr ⟨error, hsplit, ?_, helements.trans hread, hmalformed,
        ?_⟩
      · exact Bool.eq_false_iff.2 fun htrue => hvalid.1 htrue error herror
      · intro buffer hspells
        rw [hdecode buffer hspells, hread]

/-- A buffer with a torn payload, spelled with blanks and in both
cases. -/
theorem View.readings_agree_torn_payload :
    let v : View :=
      { policy := default, bytes := [0, 1, 10, 2, 3, 0, 11] }
    let buffer := " 00010a0203000B\n"
    let error : DecodeError := .truncatedPayload 5 3 2
    Hex.Spells buffer v.bytes
      ∧ v.start.toList
        = [.ok { tag := 0, offset := 2, payload := [10] }, .error error]
      ∧ v.isValid.answer = false
      ∧ v.elements.answer = .error error
      ∧ v.render.answer
        = "[(T=0,L=1) 0x0a,"
          ++ "<truncated payload at offset 5: declared 3, have 2>]"
      ∧ (Invocation.mk 1 1 (.decode buffer)).run.answer
        = .error (.codec (.decode error)) := by
  intro v buffer error
  have hblank : ∀ c ∈ " ".toList ++ "\n".toList,
      Blank.isBlank c = true := by
    simp [Blank.isBlank]
  have hspells : Hex.Spells buffer v.bytes :=
    ⟨" ", "00010a0203000B", "\n", by decide +kernel, hblank,
      by decide +kernel⟩
  have hitems : v.start.toList
      = [.ok { tag := 0, offset := 2, payload := [10] }, .error error] := by
    decide +kernel
  obtain ⟨-, -, -, hvalid, hrender, -, -, hcases⟩ :=
    readings_agree v.policy v.bytes
  have hmem : .error error ∈ v.start.toList := by
    rw [hitems]
    simp
  rcases hcases with ⟨-, htrue, -⟩ | ⟨error', hsplit, hfalse, helements, -,
    hdecode⟩
  · exact absurd hmem (hvalid.1 htrue error)
  · have heq : error' = error := by
      have hlast := congrArg List.getLast? (hsplit.symm.trans hitems)
      simpa using hlast
    subst heq
    refine ⟨hspells, hitems, hfalse, helements, ?_, hdecode buffer hspells⟩
    refine hrender.trans ?_
    rw [hitems]
    decide +kernel

end Tlv
