/-
The output of decoding as a text that can be taken apart again. No line
is empty or has a line break in it, so the output is cut into the lines
it was put together from (`lines_intercalate`). A line consists of three
words with no blanks or equals signs but those that the format writes,
so what it says of an element can be turned into an argument that asks
for the element to be written, and the argument is a field
(`exists_argument_line`).
-/
import Tlv.Proofs.Fields
import Tlv.Proofs.Hexadecimal

namespace Tlv

/-- The field that asks for an element to be written as it is. -/
def Element.field (e : Element) : Field :=
  { kind := .bytes, tag := e.tag, value := Hex.encode e.payload }

/-- An element asks to be written as the entry it was read from. -/
theorem Element.toEntry_field (e : Element) :
    e.field.toEntry = .ok e.entry :=
  Field.toEntry_eq_ok_iff.2 ⟨rfl, Hex.decode_encode e.payload⟩

namespace Command

-- =============================================================== lines

/-- The lines of an output. An empty output has none. -/
def lines (output : String) : List String :=
  if output = "" then []
  else (output.toList.splitOn '\n').map String.ofList

/-- Lines joined with line breaks are the lines of the whole. -/
theorem lines_intercalate {texts : List String}
    (h : ∀ text ∈ texts, text ≠ "" ∧ '\n' ∉ text.toList) :
    lines ("\n".intercalate texts) = texts := by
  cases texts with
  | nil => rfl
  | cons text texts =>
      obtain ⟨⟨hfirst, -⟩, -⟩ := List.forall_mem_cons.1 h
      have hjoined : ("\n".intercalate (text :: texts)).toList
          = ['\n'].intercalate ((text :: texts).map String.toList) :=
        String.toList_intercalate
      -- an empty text would be no line at all, and not one empty line
      have hne : "\n".intercalate (text :: texts) ≠ "" := by
        intro hempty
        rw [hempty] at hjoined
        apply hfirst
        cases texts with
        | nil => exact String.toList_inj.1 (by simpa using hjoined.symm)
        | cons text' texts =>
            rw [List.map_cons, List.map_cons, List.intercalate_cons_cons]
              at hjoined
            exact String.toList_inj.1 (by simpa using hjoined.symm)
      have hbreaks : ∀ cs ∈ (text :: texts).map String.toList,
          '\n' ∉ cs := by
        intro cs hcs
        obtain ⟨text', hmem, rfl⟩ := List.mem_map.1 hcs
        exact (h text' hmem).2
      rw [lines, if_neg hne, hjoined,
        List.splitOn_intercalate _ hbreaks (by simp), List.map_map]
      exact (List.map_congr_left fun _ _ => String.ofList_toList).trans
        (List.map_id _)

-- =============================================================== words

/-- What stands behind the equals sign in a word such as `key=value`. -/
def value? (key : String) (word : List Char) : Option (List Char) :=
  match cut '=' word with
  | (name, some value) => if name = key.toList then some value else none
  | (_, none) => none

/-- What a line says of an element, as an argument that asks for the
element to be written: `type=T length=L payload=P` becomes
`bytes:T:P`. -/
def argument? (text : String) : Option String :=
  match text.toList.splitOn ' ' with
  | [typeWord, lengthWord, payloadWord] => do
    let tag ← value? "type" typeWord
    let _ ← value? "length" lengthWord
    let payload ← value? "payload" payloadWord
    return String.ofList
      ("bytes".toList ++ ':' :: (tag ++ ':' :: payload))
  | _ => none

theorem value?_append {key : String} (h : '=' ∉ key.toList)
    (value : List Char) :
    value? key (key.toList ++ '=' :: value) = some value := by
  rw [value?, cut_append_cons h]
  exact if_pos rfl

/-- The words of the line of an element. -/
def words (e : Element) : List (List Char) :=
  ["type".toList ++ '=' :: e.tag.toNat.repr.toList,
    "length".toList ++ '=' :: e.length.repr.toList,
    "payload".toList ++ '=' :: (Hex.encode e.payload).toList]

/-- A line is made of words with blanks between them. -/
theorem toList_line (e : Element) :
    (line e).toList = [' '].intercalate (words e) := by
  simp [line, words]
  rfl

/-- The words of a line hold digits and what the format writes. -/
theorem not_mem_words {c : Char} (hdecimal : c.isDigit = false)
    (hhex : ∀ n < 16, c ≠ Nat.digitChar n)
    (hformat : c ∉ "type=length=payload=".toList) (e : Element) :
    ∀ word ∈ words e, c ∉ word := by
  have := Decimal.not_mem_toList_repr hdecimal e.tag.toNat
  have := Decimal.not_mem_toList_repr hdecimal e.length
  have := Hex.not_mem_toList_encode hhex e.payload
  simp_all [words]

/-- A line can stand among others. -/
theorem line_ne_empty_and_unbroken (e : Element) :
    line e ≠ "" ∧ '\n' ∉ (line e).toList := by
  have hwords : ∀ word ∈ words e, '\n' ∉ word :=
    not_mem_words (by decide) (by decide) (by decide) e
  constructor
  · intro hempty
    have hnil := toList_line e
    rw [hempty] at hnil
    simp [words] at hnil
  · rw [toList_line]
    simp_all [words]

/-- The lines of elements come apart as they were put together. -/
theorem lines_intercalate_map_line (es : List Element) :
    lines ("\n".intercalate (es.map line)) = es.map line := by
  refine lines_intercalate fun text htext => ?_
  obtain ⟨e, -, rfl⟩ := List.mem_map.1 htext
  exact line_ne_empty_and_unbroken e

-- =========================================================== arguments

/-- The line of an element turns into an argument that is read as a field
for that element. -/
theorem exists_argument_line (e : Element) :
    ∃ argument, argument? (line e) = some argument
      ∧ Field.parse argument = .ok e.field := by
  have hblanks : ∀ word ∈ words e, ' ' ∉ word :=
    not_mem_words (by decide) (by decide) (by decide) e
  have htag : (e.tag.toNat : Int) ≤ Decimal.Range.uint32.greatest := by
    have := e.tag.toNat_lt
    show (e.tag.toNat : Int) ≤ 4294967295
    omega
  have hkind : FieldKind.ofName? "bytes".toList = some .bytes := by decide
  have hread : Decimal.read .uint32
      (String.ofList e.tag.toNat.repr.toList) = .ok e.tag.toNat := by
    rw [String.ofList_toList, Decimal.read_repr htag]
  have hcolon : ':' ∉ e.tag.toNat.repr.toList := by
    intro hc
    exact absurd (Decimal.isDigit_of_mem_repr hc) (by decide)
  refine ⟨String.ofList ("bytes".toList ++ ':' ::
    (e.tag.toNat.repr.toList ++ ':' :: (Hex.encode e.payload).toList)),
    ?_, ?_⟩
  · rw [argument?, toList_line,
      List.splitOn_intercalate _ hblanks (by simp [words])]
    dsimp only [words]
    rw [value?_append (by decide), value?_append (by decide),
      value?_append (by decide)]
    rfl
  · rw [Field.parse_of_parts (by decide) hcolon hkind hread
      (fun h => by cases h), String.ofList_toList]
    rfl

/-- So does each line of an output. -/
theorem exists_arguments (es : List Element) :
    ∃ arguments, (es.map line).mapM argument? = some arguments
      ∧ arguments.mapM Field.parse = .ok (es.map Element.field) := by
  induction es with
  | nil => exact ⟨[], rfl, rfl⟩
  | cons e es ih =>
      obtain ⟨argument, hargument, hparse⟩ := exists_argument_line e
      obtain ⟨arguments, harguments, hparses⟩ := ih
      refine ⟨argument :: arguments, ?_, ?_⟩
      · rw [List.map_cons, List.mapM_cons, hargument, harguments]
        rfl
      · rw [List.map_cons, List.mapM_cons, hparse, hparses]
        rfl

end Command

end Tlv
