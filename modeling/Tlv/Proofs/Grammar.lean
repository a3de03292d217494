/-
The grammar of fields. The text of a field is a kind and a tag, with a
colon between them, and perhaps a value behind another colon
(`Field.HasParts`). The kind is named in either case
(`FieldKind.Named`), the tag is a decimal numeral that may have a plus
sign (`Decimal.Numeral`), and the value is whatever is left, colons
included. `Field.Spells` puts these together.

Of any other text `Field.Refused` says what is wrong with it. Its cases
are in the order in which the parts stand in the text, and the guards of
each say that the parts before it are as they should be. Every text is
in the grammar or has a fault (`Field.spells_or_refused`), and the reader
does what either says (`Field.parse_of_spells`,
`Field.parse_of_refused`), so it does nothing else.
-/
import Mathlib.Data.List.Forall2
import Tlv.Proofs.Fields
import Tlv.Proofs.Hexadecimal

namespace Tlv

-- =============================================================== names

namespace FieldKind

/-- A text is the name of a kind, each letter in either case. -/
def Named (kind : FieldKind) (text : List Char) : Prop :=
  List.Forall₂ (fun c d => c = d ∨ c = d.toUpper) text kind.name.toList

/-- Kinds are named in small letters, each with its capital 32 places in
front of it. -/
theorem letter_of_mem_name {kind : FieldKind} {d : Char}
    (h : d ∈ kind.name.toList) :
    97 ≤ d.toNat ∧ d.toNat ≤ 122 ∧ d.toUpper.toNat = d.toNat - 32 := by
  have hall : (kind.name.toList.all fun d => decide
      (97 ≤ d.toNat ∧ d.toNat ≤ 122 ∧ d.toUpper.toNat = d.toNat - 32))
      = true := by
    cases kind <;> decide
  exact of_decide_eq_true (List.all_eq_true.1 hall d h)

/-- Two characters become a letter of a name: itself and its capital. -/
theorem toLower_eq_iff {kind : FieldKind} {c d : Char}
    (h : d ∈ kind.name.toList) :
    c.toLower = d ↔ c = d ∨ c = d.toUpper := by
  obtain ⟨hle, hge, hupper⟩ := letter_of_mem_name h
  rw [← Char.toNat_inj, ← Char.toNat_inj, ← Char.toNat_inj, hupper,
    Hex.toNat_toLower]
  split <;> omega

/-- Texts that agree with a name letter by letter are those that a
function takes to it, if it does so with each letter. -/
theorem forall₂_iff_eq_map {R : Char → Char → Prop} {f : Char → Char}
    {text name : List Char} (h : ∀ d ∈ name, ∀ c, R c d ↔ f c = d) :
    List.Forall₂ R text name ↔ name = text.map f := by
  induction name generalizing text with
  | nil => simp [eq_comm]
  | cons d name ih =>
      obtain ⟨hd, hname⟩ := List.forall_mem_cons.1 h
      cases text with
      | nil => simp
      | cons c text =>
          rw [List.forall₂_cons, hd, ih hname, List.map_cons,
            List.cons.injEq, eq_comm (a := d)]

/-- The name of a kind in either case becomes the name when it is put into
small letters. -/
theorem named_iff {kind : FieldKind} {text : List Char} :
    kind.Named text ↔ kind.name.toList = text.map Char.toLower :=
  forall₂_iff_eq_map fun _ hd _ => (toLower_eq_iff hd).symm

theorem named_name (kind : FieldKind) : kind.Named kind.name.toList :=
  List.forall₂_same.2 fun _ _ => Or.inl rfl

/-- The kinds have different names. -/
theorem ofName?_eq_some_iff {text : List Char} {kind : FieldKind} :
    ofName? text = some kind ↔ kind.Named text := by
  rw [named_iff]
  constructor
  · intro h
    simpa using List.find?_some h
  · intro h
    rw [ofName?, ← h]
    cases kind <;> decide

theorem ofName?_eq_none_iff {text : List Char} :
    ofName? text = none ↔ ∀ kind : FieldKind, ¬ kind.Named text := by
  rw [Option.eq_none_iff_forall_ne_some]
  exact forall_congr' fun kind => not_congr ofName?_eq_some_iff

end FieldKind

-- ============================================================== grammar

namespace Field

/-- The text is a kind and, behind a colon, what follows it. -/
structure HasKind (text : String) (kindText : List Char)
    (rest? : Option (List Char)) : Prop where
  text_eq : text.toList = kindText ++ behind ':' rest?
  not_mem : ':' ∉ kindText

/-- The text is a kind, a colon, a tag and, behind another colon if there
is one, a value. -/
structure HasParts (text : String) (kindText tagText : List Char)
    (value? : Option (List Char)) : Prop where
  text_eq : text.toList = kindText ++ ':' :: (tagText ++ behind ':' value?)
  not_mem_kind : ':' ∉ kindText
  not_mem_tag : ':' ∉ tagText

/-- The text is a way to write the field. -/
def Spells (text : String) (f : Field) : Prop :=
  ∃ kindText tagText value?, HasParts text kindText tagText value?
    ∧ f.kind.Named kindText ∧ Decimal.Numeral tagText f.tag.toNat
    ∧ f.value.toList = value?.getD []
    ∧ (f.kind = .empty → f.value = "")

/-- The first thing that keeps a text from being a field. -/
inductive Refused (text : String) : FieldError → Prop
  | kind {kindText : List Char} {rest? : Option (List Char)}
      (hfront : HasKind text kindText rest?)
      (hkind : ∀ kind : FieldKind, ¬ kind.Named kindText) :
      Refused text (.unknownKind (String.ofList kindText))
  | noTag {kind : FieldKind} (hfront : ':' ∉ text.toList)
      (hkind : kind.Named text.toList) : Refused text (.missingTag text)
  | tag {kindText tagText : List Char} {value? : Option (List Char)}
      {kind : FieldKind} {fault : Decimal.Fault}
      (hparts : HasParts text kindText tagText value?)
      (hkind : kind.Named kindText)
      (htag : Decimal.Faulty (2 ^ 32 - 1) tagText fault) :
      Refused text (.invalidTag text fault)
  | value {kindText tagText value : List Char} {n : Nat}
      (hparts : HasParts text kindText tagText (some value))
      (hkind : FieldKind.empty.Named kindText)
      (htag : Decimal.Numeral tagText n) (hn : n < 2 ^ 32)
      (hvalue : value ≠ []) : Refused text (.unexpectedValue text)

-- =========================================================== the reader

section Parts

variable {text : String} {kindText tagText : List Char}
  {rest? value? : Option (List Char)} {kind : FieldKind}

theorem HasParts.hasKind (h : HasParts text kindText tagText value?) :
    HasKind text kindText (some (tagText ++ behind ':' value?)) :=
  ⟨h.text_eq, h.not_mem_kind⟩

/-- A kind without that name is the first thing to be blamed. -/
theorem parse_of_not_named (h : HasKind text kindText rest?)
    (hkind : ∀ kind : FieldKind, ¬ kind.Named kindText) :
    parse text = .error (.unknownKind (String.ofList kindText)) := by
  rw [← FieldKind.ofName?_eq_none_iff] at hkind
  unfold parse
  rw [h.text_eq, cut_append_behind h.not_mem]
  dsimp only
  rw [hkind]

/-- Behind the name of a kind the lack of a tag is blamed. -/
theorem parse_of_no_tag (h : HasKind text kindText none)
    (hkind : kind.Named kindText) :
    parse text = .error (.missingTag text) := by
  rw [← FieldKind.ofName?_eq_some_iff] at hkind
  unfold parse
  rw [h.text_eq, cut_append_behind h.not_mem]
  dsimp only
  rw [hkind]

/-- Behind the kind the tag decides, and then whether there may be a
value. -/
theorem parse_of_hasParts (h : HasParts text kindText tagText value?)
    (hkind : kind.Named kindText) :
    parse text
      = match Decimal.read .uint32 (String.ofList tagText) with
        | .error fault => .error (.invalidTag text fault)
        | .ok tag =>
          let value := String.ofList (value?.getD [])
          if kind = .empty ∧ value ≠ "" then .error (.unexpectedValue text)
          else .ok { kind, tag := UInt32.ofNat tag.toNat, value } := by
  rw [← FieldKind.ofName?_eq_some_iff] at hkind
  unfold parse
  rw [h.hasKind.text_eq, cut_append_behind h.not_mem_kind]
  dsimp only
  rw [hkind]
  dsimp only
  generalize hcut : cut ':' (tagText ++ behind ':' value?) = parts
  obtain rfl := hcut.symm.trans (cut_append_behind h.not_mem_tag value?)
  rfl

end Parts

/-- A tag is a numeral with the value of a word. -/
theorem read_tag_eq_ok_iff {tagText : List Char} {n : Int} :
    Decimal.read .uint32 (String.ofList tagText) = .ok n
      ↔ ∃ m : Nat, n = m ∧ m < 2 ^ 32 ∧ Decimal.Numeral tagText m := by
  rw [Decimal.read_eq_ok_iff_numeral rfl (by decide),
    String.toList_ofList]
  refine exists_congr fun m => and_congr_right fun _ =>
    and_congr_left fun _ => ?_
  show (m : Int) ≤ 4294967295 ↔ m < 4294967296
  omega

/-- Any other tag is refused for what makes it no such numeral. -/
theorem read_tag_eq_error_iff {tagText : List Char}
    {fault : Decimal.Fault} :
    Decimal.read .uint32 (String.ofList tagText) = .error fault
      ↔ Decimal.Faulty (2 ^ 32 - 1) tagText fault := by
  rw [Decimal.read_eq_error_iff rfl, String.toList_ofList]
  rfl

variable {text : String}

theorem parse_of_spells {f : Field} (h : Spells text f) :
    parse text = .ok f := by
  obtain ⟨kindText, tagText, value?, hparts, hkind, htag, hvalue, hempty⟩ :=
    h
  have hread := read_tag_eq_ok_iff.2 ⟨_, rfl, f.tag.toNat_lt, htag⟩
  have hallowed : ¬ (f.kind = .empty ∧ f.value ≠ "") :=
    fun h => h.2 (hempty h.1)
  rw [parse_of_hasParts hparts hkind, hread, ← hvalue, String.ofList_toList]
  dsimp only
  rw [if_neg hallowed, Int.toNat_natCast, UInt32.ofNat_toNat]

/-- What keeps a text from being a field is what is reported. -/
theorem parse_of_refused {error : FieldError} (h : Refused text error) :
    parse text = .error error := by
  cases h with
  | kind hfront hkind => exact parse_of_not_named hfront hkind
  | noTag hfront hkind =>
      exact parse_of_no_tag ⟨(List.append_nil _).symm, hfront⟩ hkind
  | tag hparts hkind htag =>
      rw [parse_of_hasParts hparts hkind, read_tag_eq_error_iff.2 htag]
  | @value kindText tagText value n hparts hkind htag hn hvalue =>
      have hread := read_tag_eq_ok_iff.2 ⟨n, rfl, hn, htag⟩
      have hne : String.ofList value ≠ "" := by
        intro hnil
        exact hvalue (String.ofList_eq_empty_iff.1 hnil)
      rw [parse_of_hasParts hparts hkind, hread, Option.getD_some]
      dsimp only
      rw [if_pos ⟨rfl, hne⟩]

/-- Every text is either written for a field or has something that keeps
it from being one. -/
theorem spells_or_refused (text : String) :
    (∃ f, Spells text f) ∨ ∃ error, Refused text error := by
  obtain ⟨kindText, rest?, htext, hkindText⟩ :=
    exists_append_behind ':' text.toList
  -- the checks in the order in which they are made: kind, tag, value
  by_cases hnamed : ∀ kind : FieldKind, ¬ kind.Named kindText
  · exact Or.inr ⟨_, .kind ⟨htext, hkindText⟩ hnamed⟩
  obtain ⟨kind, hkind⟩ := not_forall_not.1 hnamed
  cases rest? with
  | none =>
      rw [behind, List.append_nil] at htext
      subst htext
      exact Or.inr ⟨_, .noTag hkindText hkind⟩
  | some rest =>
  obtain ⟨tagText, value?, rfl, htagText⟩ := exists_append_behind ':' rest
  have hparts : HasParts text kindText tagText value? :=
    ⟨htext, hkindText, htagText⟩
  cases hread : Decimal.read .uint32 (String.ofList tagText) with
  | error fault =>
      exact Or.inr ⟨_, .tag hparts hkind (read_tag_eq_error_iff.1 hread)⟩
  | ok n =>
      obtain ⟨n, rfl, hn, htag⟩ := read_tag_eq_ok_iff.1 hread
      by_cases hvalue : kind = .empty ∧ value?.getD [] ≠ []
      · obtain ⟨rfl, hne⟩ := hvalue
        cases value? with
        | none => exact absurd rfl hne
        | some value =>
            exact Or.inr ⟨_, .value hparts hkind htag hn hne⟩
      · -- nothing is wrong with a value that is empty or may be there
        have hempty : kind = .empty →
            String.ofList (value?.getD []) = "" := by
          rintro rfl
          by_contra hne
          refine hvalue ⟨rfl, fun hnil => hne ?_⟩
          rw [hnil]
        refine Or.inl ⟨⟨kind, UInt32.ofNat n,
          String.ofList (value?.getD [])⟩, kindText, tagText, value?,
          hparts, hkind, ?_, String.toList_ofList, hempty⟩
        show Decimal.Numeral tagText (UInt32.ofNat n).toNat
        rw [UInt32.toNat_ofNat_of_lt' hn]
        exact htag

/-- The texts that are read as a field are those written for it. -/
theorem parse_eq_ok_iff {f : Field} :
    parse text = .ok f ↔ Spells text f := by
  constructor
  · intro h
    rcases spells_or_refused text with ⟨f', hf'⟩ | ⟨error, herror⟩
    · rw [parse_of_spells hf'] at h
      cases h
      exact hf'
    · rw [parse_of_refused herror] at h
      cases h
  · exact parse_of_spells

/-- A text is refused for the first thing that keeps it from being a
field, and for nothing else. -/
theorem parse_eq_error_iff {error : FieldError} :
    parse text = .error error ↔ Refused text error := by
  constructor
  · intro h
    rcases spells_or_refused text with ⟨f, hf⟩ | ⟨error', herror'⟩
    · rw [parse_of_spells hf] at h
      cases h
    · rw [parse_of_refused herror'] at h
      cases h
      exact herror'
  · exact parse_of_refused

/-- A text is read as a field exactly if it is written for that field: a
kind, a colon and a tag, or these and, behind another colon, a value,
which is empty for the empty kind. Every other text is refused for the
first of its parts that is not as it should be: the kind, the tag if
there is one and what it says, and the value of an empty field. -/
theorem parse_eq_iff (text : String) :
    (∀ f, parse text = .ok f ↔ Spells text f)
      ∧ ∀ error, parse text = .error error ↔ Refused text error :=
  ⟨fun _ => parse_eq_ok_iff, fun _ => parse_eq_error_iff⟩

/-- A bad tag comes before a value that may not be there. -/
example : parse "Empty:4294967296:x"
    = .error (.invalidTag "Empty:4294967296:x" .tooLarge) := by
  decide +kernel

end Field

end Tlv
