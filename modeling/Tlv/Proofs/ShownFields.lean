/-
Fields and what they are shown as. A field is shown as a text of the
grammar, with its kind in lowercase, its tag without a sign or zeros in
front, and the last colon only if there is a value behind it
(`Field.hasParts_render`). So the text is read as the field again
(`Field.parse_render_eq_ok_iff`), and among the ways to write a field it
is the one that stands for all of them.

A run that fails for the value of a field quotes this text. The quote
can be told apart from the rest of the message although the value may
hold the marks that end it, since the reason behind it has none
(`Failure.eq_render_of_message_eq`).
-/
import Tlv.Proofs.Grammar
import Tlv.Proofs.Refusals

namespace Tlv

namespace Field

-- ============================================================ one field

/-- The value that a field is shown with. An empty one is left out. -/
def shownValue (f : Field) : Option (List Char) :=
  if f.value = "" then none else some f.value.toList

/-- A value that is left out is the empty one. -/
theorem getD_shownValue (f : Field) :
    f.shownValue.getD [] = f.value.toList := by
  unfold shownValue
  split
  · next hvalue =>
    rw [hvalue]
    rfl
  · rfl

/-- A shown field falls into its kind, its tag and its value. -/
theorem hasParts_render (f : Field) :
    HasParts f.render f.kind.name.toList f.tag.toNat.repr.toList
      f.shownValue := by
  refine ⟨?_, ?_, Decimal.not_mem_toList_repr (by decide) _⟩
  · unfold render shownValue
    by_cases hvalue : f.value = ""
    · simp [hvalue, behind]
      rfl
    · simp [hvalue, behind]
      rfl
  · cases f.kind <;> decide

/-- What a field is shown as is a way to write it, unless it has a value
that its kind may not have. -/
theorem parse_render_eq_ok_iff (f : Field) :
    parse f.render = .ok f ↔ (f.kind = .empty → f.value = "") := by
  rw [parse_eq_ok_iff]
  constructor
  · intro h
    obtain ⟨-, -, -, -, -, -, -, hempty⟩ := h
    exact hempty
  · intro hempty
    exact ⟨_, _, _, hasParts_render f, f.kind.named_name,
      Decimal.numeral_repr _, f.getD_shownValue.symm, hempty⟩

/-- A field that has been read is read again from what it is shown as. -/
theorem parse_render_of_parse {text : String} {f : Field}
    (h : parse text = .ok f) : parse f.render = .ok f := by
  obtain ⟨-, -, -, -, -, -, -, hempty⟩ := parse_eq_ok_iff.1 h
  exact (parse_render_eq_ok_iff f).2 hempty

end Field

-- ========================================================= failing runs

theorem Failure.message_value (f : Field) (fault : Decimal.Fault) :
    (Failure.value f fault).message
      = "invalid value for `" ++ f.render ++ "`: " ++ fault.message := rfl

/-- What is said of a number holds no quotation mark, so that the quoted
field ends where it seems to. -/
theorem Decimal.Fault.not_mem_message (fault : Decimal.Fault) :
    '`' ∉ fault.message.toList := by
  cases fault <;> decide

/-- The name that a message about a value quotes is the text of the
field, wherever one takes the quote to end. -/
theorem Failure.eq_render_of_message_eq {f : Field}
    {fault reason : Decimal.Fault} {name : String}
    (h : (Failure.value f fault).message
      = "invalid value for `" ++ name ++ "`: " ++ reason.message) :
    name = f.render := by
  have hrest (reason : Decimal.Fault) :
      '`' ∉ ": ".toList ++ reason.message.toList := by
    have := reason.not_mem_message
    simp_all
  rw [message_value] at h
  simp only [String.append_assoc, String.append_right_inj] at h
  have hlists : f.render.toList
        ++ '`' :: (": ".toList ++ fault.message.toList)
      = name.toList ++ '`' :: (": ".toList ++ reason.message.toList) := by
    have hlists := congrArg String.toList h
    simp only [String.toList_append] at hlists
    exact hlists
  have hparts := append_cons_inj_of_rest (hrest fault) (hrest reason) hlists
  exact String.toList_inj.1 hparts.1.symm

/-- A run that fails for the value of a field has written the fields
before it, and has found no number in its value. -/
theorem Invocation.of_answer_run_eq_value {typeWidth lengthWidth : Int}
    {capacity : Nat} {fields : List Field} {f : Field}
    {fault : Decimal.Fault}
    (h : (mk typeWidth lengthWidth (.encode capacity fields)).run.answer
      = .error (.value f fault)) :
    ∃ p before after xs, Policy.ofWidths typeWidth lengthWidth = .ok p
      ∧ fields = before ++ f :: after ∧ p.Holds capacity before xs
      ∧ f.Misvalued (.value f fault) := by
  unfold run at h
  cases hpolicy : Policy.ofWidths typeWidth lengthWidth with
  | error cause =>
      rw [hpolicy] at h
      cases h
  | ok p =>
      rw [hpolicy] at h
      change (Command.runEncode p capacity fields).answer = _ at h
      rw [Command.answer_runEncode, map_eq_error_iff,
        Command.pushFields_eq_error_iff] at h
      obtain ⟨before, g, after, e, hsplit, hbefore, hg⟩ := h
      obtain ⟨-, xs, hxs, -⟩ := Command.of_pushFields_eq_ok hbefore
      cases Command.pushField_eq_error_iff.1 hg with
      | value hvalue =>
          cases hvalue with
          | number hkind hread =>
              exact ⟨p, before, after, xs, rfl, hsplit, hxs,
                .number hkind hread⟩

namespace Field

-- ======================================================= canonical texts

/-- What a field is shown as is read as that field, unless it has a value
that its kind may not have. So a field that has been read is read again
from what it is shown as, and two fields that have been read are shown
alike only if they are the same. A run that fails for the value of a
field does so for the first field that cannot be written, and whatever
can be taken for the name quoted in its message is read as that field. -/
theorem render_canonical :
    (∀ f : Field, parse f.render = .ok f
        ↔ (f.kind = .empty → f.value = ""))
      ∧ (∀ text f, parse text = .ok f → parse f.render = .ok f)
      ∧ (∀ text text' f f', parse text = .ok f → parse text' = .ok f' →
          (f.render = f'.render ↔ f = f'))
      ∧ ∀ typeWidth lengthWidth capacity fields f fault,
        (Invocation.mk typeWidth lengthWidth
          (.encode capacity fields)).run.answer = .error (.value f fault) →
        (∃ p before after xs, Policy.ofWidths typeWidth lengthWidth = .ok p
            ∧ fields = before ++ f :: after ∧ p.Holds capacity before xs
            ∧ f.Misvalued (.value f fault))
          ∧ (Failure.value f fault).message
            = "invalid value for `" ++ f.render ++ "`: " ++ fault.message
          ∧ ∀ (name : String) (reason : Decimal.Fault),
            (Failure.value f fault).message
              = "invalid value for `" ++ name ++ "`: " ++ reason.message →
            parse name = .ok f := by
  refine ⟨parse_render_eq_ok_iff, fun _ _ => parse_render_of_parse, ?_, ?_⟩
  · intro text text' f f' h h'
    constructor
    · intro hrender
      have hread := parse_render_of_parse h
      rw [hrender, parse_render_of_parse h'] at hread
      cases hread
      rfl
    · intro heq
      rw [heq]
  · intro typeWidth lengthWidth capacity fields f fault h
    have hrun := Invocation.of_answer_run_eq_value h
    refine ⟨hrun, Failure.message_value f fault, ?_⟩
    intro name reason hmessage
    obtain ⟨-, -, -, -, -, -, -, hvalue⟩ := hrun
    rw [Failure.eq_render_of_message_eq hmessage, parse_render_eq_ok_iff]
    intro hempty
    -- a field of the empty kind is not refused for its value
    cases hvalue with
    | number hkind _ =>
        rw [hempty] at hkind
        cases hkind

/-- A value that begins with a colon, and one that holds what ends a
quote. -/
theorem render_canonical_colon_and_quote :
    let f : Field := { kind := .string, tag := 7, value := ":a" }
    let f' : Field := { kind := .byte, tag := 0, value := "3`: 0" }
    let run := (Invocation.mk 1 1 (.encode 9 [f, f'])).run.answer
    parse "STRING:+007::a" = .ok f ∧ f.render = "string:7::a"
      ∧ parse "string:7::a" = .ok f
      ∧ run = .error (.value f' .invalidDigit)
      ∧ (Failure.value f' .invalidDigit).message
        = "invalid value for `byte:0:3`: 0`: invalid digit found in string"
      ∧ parse "byte:0:3`: 0" = .ok f' := by
  intro f f' run
  have hparse : parse "STRING:+007::a" = .ok f := by decide +kernel
  have hrender : f.render = "string:7::a" := by decide +kernel
  have hrun : run = .error (.value f' .invalidDigit) := by decide +kernel
  have hmessage : (Failure.value f' .invalidDigit).message
      = "invalid value for `byte:0:3`: 0`: invalid digit found in string" := by
    decide +kernel
  obtain ⟨-, hagain, -, hfails⟩ := render_canonical
  obtain ⟨-, -, hname⟩ := hfails 1 1 9 [f, f'] f' .invalidDigit hrun
  refine ⟨hparse, hrender, ?_, hrun, hmessage, ?_⟩
  · rw [← hrender]
    exact hagain _ _ hparse
  · refine hname "byte:0:3`: 0" .invalidDigit (hmessage.trans ?_)
    decide +kernel

end Field

end Tlv
