/-
What the encoding command answers, whether it has an output or not. A
field is refused for the first of four checks that it fails, which are
those of its value, its tag, its payload length and the room that is left
(`Command.Refused`); the guards of each case say that the checks before
it have been passed. The command has an output if a buffer of this size
holds the entries of all fields (`Policy.Holds`), and otherwise it fails
as the first field does that is refused in the room which those before it
leave (`Command.answer_runEncode_refusal`).

The loop is taken apart at the field that fails
(`Command.pushFields_eq_error_iff`): the fields before it have been
written, which tells what is left (`Command.of_pushFields_eq_ok`).
-/
import Tlv.Proofs.Spellings
import Tlv.Proofs.Writes

namespace Tlv

/-- The range of the numbers of a kind. -/
def FieldKind.range? : FieldKind → Option Decimal.Range
  | byte => some .uint8
  | short => some .int16
  | int => some .int32
  | bytes | string | empty => none

namespace Field

variable {f : Field} {failure : Failure}

-- ============================================================== values

/-- The value is of the form that its kind asks for: a number of the
range, digits in pairs, or any text. -/
def WellFormed (f : Field) : Prop :=
  match f.kind with
  | .byte => ∃ n, Decimal.Spells .uint8 f.value n
  | .short => ∃ n, Decimal.Spells .int16 f.value n
  | .int => ∃ n, Decimal.Spells .int32 f.value n
  | .bytes => (Utf8.encode f.value).length % 2 = 0
      ∧ ∀ b ∈ Utf8.encode f.value, Hex.IsDigit b
  | .string | .empty => True

/-- What is wrong with the value of a field. -/
inductive Misvalued (f : Field) : Failure → Prop
  | number {range : Decimal.Range} {fault : Decimal.Fault}
      (hkind : f.kind.range? = some range)
      (hvalue : Decimal.read range f.value = .error fault) :
      Misvalued f (.value f fault)
  | hex {fault : Hex.Fault} (hkind : f.kind = .bytes)
      (hvalue : Hex.Faulty (Utf8.encode f.value) fault) :
      Misvalued f (.hex fault)

/-- The field stands for the entry with its tag and the bytes that its
value denotes. -/
def StandsFor (f : Field) (x : Entry) : Prop :=
  x.tag = f.tag ∧ f.Denotes x.payload

/-- A number is refused for what its value is blamed for. -/
theorem number_eq_error_iff {range : Decimal.Range}
    (hkind : f.kind.range? = some range) :
    f.number range = .error failure ↔ f.Misvalued failure := by
  rw [number, mapError_eq_error_iff]
  constructor
  · intro h
    obtain ⟨fault, hread, rfl⟩ := h
    exact .number hkind hread
  · intro h
    cases h with
    | number hkind' hread =>
        rw [hkind] at hkind'
        cases hkind'
        exact ⟨_, hread, rfl⟩
    | hex hkind' _ =>
        rw [hkind'] at hkind
        cases hkind

/-- A field stands for no entry if something is wrong with its value. -/
theorem toEntry_eq_error_iff :
    f.toEntry = .error failure ↔ f.Misvalued failure := by
  rw [toEntry, map_eq_error_iff, toValue]
  cases hkind : f.kind with
  | byte | short | int =>
      rw [map_eq_error_iff]
      exact number_eq_error_iff (congrArg FieldKind.range? hkind)
  | bytes =>
      rw [map_eq_error_iff, mapError_eq_error_iff]
      constructor
      · intro h
        obtain ⟨fault, hfault, rfl⟩ := h
        exact .hex hkind (Hex.decode_eq_error_iff.1 hfault)
      · intro h
        cases h with
        | number hkind' _ =>
            rw [hkind] at hkind'
            cases hkind'
        | hex _ hfault =>
            exact ⟨_, Hex.decode_eq_error_iff.2 hfault, rfl⟩
  | string | empty =>
      constructor
      · intro h
        cases h
      · intro h
        cases h with
        | number hkind' _ =>
            rw [hkind] at hkind'
            cases hkind'
        | hex hkind' _ =>
            rw [hkind] at hkind'
            cases hkind'

/-- A text is written as a number if it spells one of the range. -/
theorem exists_isNumeral_iff {range : Decimal.Range} {width : Nat}
    {text : String} (hleast : range.least ≤ 0)
    (hgreatest : 0 ≤ range.greatest) :
    (∃ payload, IsNumeral range width text payload)
      ↔ ∃ n, Decimal.Spells range text n := by
  simp only [isNumeral_iff, Decimal.read_eq_ok_iff hleast hgreatest]
  constructor
  · intro ⟨_, n, hn, _⟩
    exact ⟨n, hn⟩
  · intro ⟨n, hn⟩
    exact ⟨_, n, hn, rfl⟩

/-- A value denotes bytes if it is of the form that its kind asks for. -/
theorem exists_denotes_iff (f : Field) :
    (∃ payload, f.Denotes payload) ↔ f.WellFormed := by
  unfold Denotes WellFormed
  cases f.kind with
  | byte => exact exists_isNumeral_iff (by decide) (by decide)
  | short => exact exists_isNumeral_iff (by decide) (by decide)
  | int => exact exists_isNumeral_iff (by decide) (by decide)
  | bytes => exact Hex.exists_decode_eq_ok_iff
  | string => exact ⟨fun _ => trivial, fun _ => ⟨_, rfl⟩⟩
  | empty => exact ⟨fun _ => trivial, fun _ => ⟨_, rfl⟩⟩

end Field

namespace Encoder

variable {e : Encoder}

-- =========================================================== one entry

/-- The three reasons to refuse an entry. Each of them rules out those
before it. -/
theorem push_eq_error_iff {x : Entry} {cause : EncodeError} :
    e.push x.tag x.payload = .error cause
      ↔ (e.policy.typeWidth.bytes ≠ 0
          ∧ 256 ^ e.policy.typeWidth.bytes ≤ x.tag.toNat
          ∧ cause = .tagOutOfRange x.tag e.policy.typeWidth.bytes)
        ∨ ((e.policy.typeWidth.bytes ≠ 0 →
            x.tag.toNat < 256 ^ e.policy.typeWidth.bytes)
          ∧ 256 ^ e.policy.lengthWidth.bytes ≤ x.payload.length
          ∧ cause = .payloadTooLarge x.payload.length
            e.policy.lengthWidth.bytes)
        ∨ (e.policy.Fits x
          ∧ e.remaining < e.policy.headerLen + x.payload.length
          ∧ cause = .bufferOverflow
            (e.policy.headerLen + x.payload.length) e.remaining) := by
  have hverdict : e.push x.tag x.payload = .error cause
      ↔ e.verdict x.tag x.payload.length = .error cause := by
    rw [← e.map_push, map_eq_error_iff]
  have hleft : e.capacity - e.actualLength = e.remaining := rfl
  rw [hverdict, Policy.Fits, verdict, hleft]
  -- one split for each check of the verdict, in its order
  by_cases htag : e.policy.typeWidth.bytes ≠ 0
      ∧ 256 ^ e.policy.typeWidth.bytes ≤ x.tag.toNat
  · rw [if_pos htag]
    grind
  rw [if_neg htag]
  by_cases hlength : 256 ^ e.policy.lengthWidth.bytes ≤ x.payload.length
  · rw [if_pos hlength]
    grind
  rw [if_neg hlength]
  by_cases hroom : e.remaining < e.policy.headerLen + x.payload.length
  · rw [if_pos hroom]
    grind
  · rw [if_neg hroom]
    grind

end Encoder

namespace Command

variable {p : Policy} {e : Encoder} {f : Field} {failure : Failure}

-- =========================================================== one field

/-- Why a field is refused when this many bytes are left: the first check
that it fails. -/
inductive Refused (p : Policy) (left : Nat) (f : Field) : Failure → Prop
  | value {failure : Failure} (hvalue : f.Misvalued failure) :
      Refused p left f failure
  | tag {payload : Bytes} (hvalue : f.Denotes payload)
      (hcarried : p.typeWidth.bytes ≠ 0)
      (htag : 256 ^ p.typeWidth.bytes ≤ f.tag.toNat) :
      Refused p left f
        (.codec (.encode (.tagOutOfRange f.tag p.typeWidth.bytes)))
  | length {payload : Bytes} (hvalue : f.Denotes payload)
      (htag : p.typeWidth.bytes ≠ 0 →
        f.tag.toNat < 256 ^ p.typeWidth.bytes)
      (hlength : 256 ^ p.lengthWidth.bytes ≤ payload.length) :
      Refused p left f (.codec (.encode
        (.payloadTooLarge payload.length p.lengthWidth.bytes)))
  | room {payload : Bytes} (hvalue : f.Denotes payload)
      (hfits : p.Fits { tag := f.tag, payload })
      (hroom : left < p.headerLen + payload.length) :
      Refused p left f (.codec (.encode
        (.bufferOverflow (p.headerLen + payload.length) left)))

/-- A field is first made an entry and then pushed. -/
theorem pushField_eq (e : Encoder) (f : Field) :
    pushField e f
      = f.toEntry >>= fun x =>
          (e.push x.tag x.payload).mapError fun cause =>
            .codec (.encode cause) := by
  rw [pushField, Field.toEntry]
  cases f.toValue <;> rfl

/-- A field is refused for the first check that it fails. -/
theorem pushField_eq_error_iff :
    pushField e f = .error failure
      ↔ Refused e.policy e.remaining f failure := by
  rw [pushField_eq, bind_eq_error_iff, Field.toEntry_eq_error_iff]
  simp only [Field.toEntry_eq_ok_iff, mapError_eq_error_iff]
  constructor
  · intro h
    rcases h with hvalue | ⟨⟨_, payload⟩, ⟨rfl, hvalue⟩, cause, hpush, rfl⟩
    · exact .value hvalue
    · rcases Encoder.push_eq_error_iff.1 hpush with
        ⟨hcarried, htag, rfl⟩ | ⟨htag, hlength, rfl⟩ | ⟨hfits, hroom, rfl⟩
      · exact .tag hvalue hcarried htag
      · exact .length hvalue htag hlength
      · exact .room hvalue hfits hroom
  · intro h
    cases h with
    | value hvalue => exact Or.inl hvalue
    | @tag payload hvalue hcarried htag =>
        exact Or.inr ⟨⟨f.tag, payload⟩, ⟨rfl, hvalue⟩, _,
          Encoder.push_eq_error_iff.2 (Or.inl ⟨hcarried, htag, rfl⟩), rfl⟩
    | @length payload hvalue htag hlength =>
        exact Or.inr ⟨⟨f.tag, payload⟩, ⟨rfl, hvalue⟩, _,
          Encoder.push_eq_error_iff.2
            (Or.inr (Or.inl ⟨htag, hlength, rfl⟩)), rfl⟩
    | @room payload hvalue hfits hroom =>
        exact Or.inr ⟨⟨f.tag, payload⟩, ⟨rfl, hvalue⟩, _,
          Encoder.push_eq_error_iff.2
            (Or.inr (Or.inr ⟨hfits, hroom, rfl⟩)), rfl⟩

-- ========================================================== the fields

/-- Fields fail as the first of them does that fails behind those before
it. -/
theorem pushFields_eq_error_iff {fields : List Field} :
    pushFields e fields = .error failure
      ↔ ∃ before f after e', fields = before ++ f :: after
        ∧ pushFields e before = .ok e'
        ∧ pushField e' f = .error failure := by
  induction fields generalizing e with
  | nil =>
      constructor
      · intro h
        cases h
      · intro h
        obtain ⟨before, f, after, e', hsplit, -⟩ := h
        cases before <;> cases hsplit
  | cons f fields ih =>
      rw [pushFields, bind_eq_error_iff]
      constructor
      · intro h
        -- the first field is the one that fails, or it is among the others
        rcases h with h | ⟨e₁, hfirst, hrest⟩
        · exact ⟨[], f, fields, e, rfl, rfl, h⟩
        · obtain ⟨before, f', after, e', rfl, hbefore, hf'⟩ := ih.1 hrest
          exact ⟨f :: before, f', after, e', rfl,
            Encoder.pushFields_cons_eq_ok_iff.2 ⟨e₁, hfirst, hbefore⟩, hf'⟩
      · intro h
        obtain ⟨before, f', after, e', hsplit, hbefore, hf'⟩ := h
        cases before with
        | nil =>
            cases hsplit
            cases hbefore
            exact Or.inl hf'
        | cons g before =>
            cases hsplit
            obtain ⟨e₁, hfirst, hrest⟩ :=
              Encoder.pushFields_cons_eq_ok_iff.1 hbefore
            exact Or.inr ⟨e₁, hfirst,
              ih.2 ⟨before, f', after, e', rfl, hrest, hf'⟩⟩

end Command

-- ======================================================== all the fields

/-- A buffer of this size holds the entries that these fields stand for:
headers have room for each of them, and the buffer for all. -/
structure Policy.Holds (p : Policy) (capacity : Nat) (fields : List Field)
    (xs : List Entry) : Prop where
  stand : List.Forall₂ Field.StandsFor fields xs
  fits : ∀ x ∈ xs, p.Fits x
  room : (xs.map fun x => p.headerLen + x.payload.length).sum ≤ capacity

namespace Command

open Encoder (Stand ofStorage)

variable {p : Policy} {capacity : Nat} {fields : List Field}

theorem stand_iff {xs : List Entry} :
    Stand fields xs ↔ List.Forall₂ Field.StandsFor fields xs := by
  unfold Stand
  simp only [Field.toEntry_eq_ok_iff]
  exact Iff.rfl

/-- A buffer holds fields if they stand for entries that fit and all of
them have room. -/
theorem holds_iff {xs : List Entry} :
    p.Holds capacity fields xs
      ↔ Stand fields xs ∧ (∀ x ∈ xs, p.Fits x)
        ∧ (p.encodeAll xs).length ≤ capacity := by
  rw [stand_iff, Policy.length_encodeAll]
  constructor
  · intro ⟨hstand, hfits, hroom⟩
    exact ⟨hstand, hfits, hroom⟩
  · intro ⟨hstand, hfits, hroom⟩
    exact ⟨hstand, hfits, hroom⟩

theorem answer_runEncode (p : Policy) (capacity : Nat)
    (fields : List Field) :
    (runEncode p capacity fields).answer
      = (pushFields (ofStorage p (List.replicate capacity 0)) fields).map
          fun e => Hex.encode e.bytes := rfl

/-- The fields that are written into a new buffer are those whose entries
it holds, and these take their room of it. -/
theorem of_pushFields_eq_ok {e : Encoder}
    (h : pushFields (ofStorage p (List.replicate capacity 0)) fields
      = .ok e) :
    e.policy = p ∧ ∃ xs, p.Holds capacity fields xs
      ∧ e.remaining = capacity
        - (xs.map fun x => p.headerLen + x.payload.length).sum := by
  obtain ⟨xs, hxs, hfits, hle, -, hpolicy, hremaining⟩ :=
    Encoder.of_pushFields_ofStorage_eq_ok h
  rw [Policy.length_encodeAll] at hremaining
  exact ⟨hpolicy, xs, holds_iff.2 ⟨hxs, hfits, hle⟩, hremaining⟩

/-- Fields that a buffer holds are accepted, all of them. -/
theorem exists_pushFields_eq_ok {xs : List Entry}
    (h : p.Holds capacity fields xs) :
    ∃ e, pushFields (ofStorage p (List.replicate capacity 0)) fields
      = .ok e := by
  obtain ⟨hxs, hfits, hle⟩ := holds_iff.1 h
  have hanswer := answer_runEncode_eq_ok_iff.2 ⟨xs, hxs, hfits, hle, rfl⟩
  rw [answer_runEncode, map_eq_ok_iff] at hanswer
  obtain ⟨e, he, -⟩ := hanswer
  exact ⟨e, he⟩

/-- Encoding shows the entries of its fields if a buffer of this size
holds them. Otherwise some field is refused, though the buffer holds the
entries of those before it: because of its value, its tag, its payload
length or the room that those leave, whichever is the first. A value is
refused for its form alone. -/
theorem answer_runEncode_refusal (p : Policy) (capacity : Nat)
    (fields : List Field) :
    let answer := (runEncode p capacity fields).answer
    (∀ text, answer = .ok text
        ↔ ∃ xs, p.Holds capacity fields xs
          ∧ text = Hex.encode (p.encodeAll xs))
      ∧ (∀ failure, answer = .error failure
          ↔ ∃ before f after xs, fields = before ++ f :: after
            ∧ p.Holds capacity before xs
            ∧ Refused p (capacity
                - (xs.map fun x => p.headerLen + x.payload.length).sum)
              f failure)
      ∧ ∀ f : Field, (∃ payload, f.Denotes payload) ↔ f.WellFormed := by
  intro answer
  refine ⟨fun text => ?_, fun failure => ?_, Field.exists_denotes_iff⟩
  · simp only [holds_iff, and_assoc]
    exact answer_runEncode_eq_ok_iff
  · show (runEncode p capacity fields).answer = .error failure ↔ _
    rw [answer_runEncode, map_eq_error_iff, pushFields_eq_error_iff]
    constructor
    · intro ⟨before, f, after, e, hsplit, hbefore, hf⟩
      obtain ⟨hpolicy, xs, hxs, hremaining⟩ := of_pushFields_eq_ok hbefore
      rw [pushField_eq_error_iff, hpolicy, hremaining] at hf
      exact ⟨before, f, after, xs, hsplit, hxs, hf⟩
    · intro ⟨before, f, after, xs, hsplit, hxs, hf⟩
      obtain ⟨e, hbefore⟩ := exists_pushFields_eq_ok hxs
      obtain ⟨hpolicy, ys, hys, hremaining⟩ := of_pushFields_eq_ok hbefore
      rw [(holds_iff.1 hxs).1.unique (holds_iff.1 hys).1] at hf
      refine ⟨before, f, after, e, hsplit, hbefore, ?_⟩
      rw [pushField_eq_error_iff, hpolicy, hremaining]
      exact hf

/-- The digits of a field come before its tag, and its tag before a field
that is no number. -/
example :
    (runEncode default 9 [⟨.byte, 0, "2"⟩, ⟨.bytes, 300, "0g"⟩,
        ⟨.int, 1, "x"⟩]).answer
      = .error (.hex (.invalidCharacter 0x67 1)) := by
  decide +kernel

end Command

end Tlv
