/-
Fields as entries. A field that can be written stands for one entry: its
tag, and the payload that its value denotes (`Field.Denotes`), which is
told by the text of the value alone, without the typed values that come
between (`toEntry_eq_ok_iff`). For numbers it is the big-endian
two's-complement form of what the text says in decimal.

Of the texts of fields this has what is needed to write elements as
fields again: three parts with colons between them, of which the last
may hold further colons, are read as a field (`parse_of_parts`).
-/
import Mathlib.Algebra.Ring.Int.Defs
import Tlv.Command
import Tlv.Proofs.Decimal
import Tlv.Proofs.Frame

namespace Tlv.Field

-- ============================================================= entries

/-- What a field is written as. -/
def toEntry (f : Field) : Except Failure Entry :=
  f.toValue.map fun value => { tag := f.tag, payload := value.payload }

/-- The bytes are the big-endian two's-complement form, in this width, of
the number of the range that the text denotes. -/
def IsNumeral (range : Decimal.Range) (width : Nat) (text : String)
    (payload : Bytes) : Prop :=
  ∃ n, Decimal.read range text = .ok n ∧ payload.length = width
    ∧ (BigEndian.value payload : Int) = n % 256 ^ width

/-- The bytes that the value of a field denotes. -/
def Denotes (f : Field) (payload : Bytes) : Prop :=
  match f.kind with
  | .byte => IsNumeral .uint8 1 f.value payload
  | .short => IsNumeral .int16 2 f.value payload
  | .int => IsNumeral .int32 4 f.value payload
  | .bytes => Hex.decode f.value = .ok payload
  | .string => payload = Utf8.encode f.value
  | .empty => payload = []

/-- The form of a number has its digits, and no other bytes do. -/
theorem isNumeral_iff {range : Decimal.Range} {width : Nat}
    {text : String} {payload : Bytes} :
    IsNumeral range width text payload
      ↔ ∃ n, Decimal.read range text = .ok n
        ∧ payload = BigEndian.digits width (n % 256 ^ width).toNat := by
  have hpos : (0 : Int) < 256 ^ width := Int.pow_pos (by decide)
  have hmod (n : Int) := Int.emod_nonneg n (Int.ne_of_gt hpos)
  have hlt (n : Int) := Int.emod_lt_of_pos n hpos
  constructor
  · rintro ⟨n, hread, rfl, hvalue⟩
    refine ⟨n, hread, ?_⟩
    rw [← hvalue, Int.toNat_natCast, BigEndian.digits_value]
  · rintro ⟨n, hread, rfl⟩
    refine ⟨n, hread, BigEndian.length_digits .., ?_⟩
    have hcast : ((256 ^ width : Nat) : Int) = 256 ^ width := by simp
    have hdigits : (n % 256 ^ width).toNat < 256 ^ width := by
      have := hmod n
      have := hlt n
      omega
    rw [BigEndian.value_digits_of_lt hdigits, Int.toNat_of_nonneg (hmod n)]

section Numbers

variable {n : Int}

theorem payload_byte (hle : 0 ≤ n) (hlt : n ≤ 255) :
    (Value.byte (UInt8.ofNat n.toNat)).payload
      = BigEndian.digits 1 (n % 256 ^ 1).toNat := by
  have hmod : n % 256 ^ 1 = n := Int.emod_eq_of_lt hle (by omega)
  rw [hmod]
  rfl

/-- A number of 16 bits is written in two bytes, as the remainder that its
two's complement is. -/
theorem payload_short :
    (Value.short (Int16.ofInt n)).payload
      = BigEndian.digits 2 (n % 256 ^ 2).toNat := by
  show BigEndian.digits 2 (BitVec.ofInt 16 n).toNat = _
  rw [BitVec.toNat_ofInt]
  rfl

theorem payload_int :
    (Value.int (Int32.ofInt n)).payload
      = BigEndian.digits 4 (n % 256 ^ 4).toNat := by
  show BigEndian.digits 4 (BitVec.ofInt 32 n).toNat = _
  rw [BitVec.toNat_ofInt]
  rfl

end Numbers

/-- A number of the range is written if the text denotes one, and then in
the form of that number. -/
theorem map_number_eq_ok_iff {f : Field} {range : Decimal.Range}
    {width : Nat} {value : Int → Value} {x : Entry}
    (hvalue : ∀ n, Decimal.read range f.value = .ok n →
      (value n).payload = BigEndian.digits width (n % 256 ^ width).toNat) :
    ((f.number range).map value).map
        (fun v => ({ tag := f.tag, payload := v.payload } : Entry)) = .ok x
      ↔ x.tag = f.tag ∧ IsNumeral range width f.value x.payload := by
  rw [isNumeral_iff, number]
  simp only [map_eq_ok_iff, mapError_eq_ok_iff]
  constructor
  · rintro ⟨_, ⟨n, hread, rfl⟩, rfl⟩
    exact ⟨rfl, n, hread, hvalue n hread⟩
  · obtain ⟨tag, payload⟩ := x
    rintro ⟨rfl, n, hread, rfl⟩
    refine ⟨_, ⟨n, hread, rfl⟩, ?_⟩
    rw [hvalue n hread]

/-- A field is written as its tag and the bytes its value denotes, and
not at all if there are none. -/
theorem toEntry_eq_ok_iff {f : Field} {x : Entry} :
    f.toEntry = .ok x ↔ x.tag = f.tag ∧ f.Denotes x.payload := by
  obtain ⟨kind, tag, text⟩ := f
  unfold toEntry toValue Denotes
  cases kind with
  | byte =>
      refine map_number_eq_ok_iff fun n hn => ?_
      have hrange := Decimal.of_read_eq_ok (by decide) (by decide) hn
      exact payload_byte hrange.1 hrange.2
  | short => exact map_number_eq_ok_iff fun n _ => payload_short
  | int => exact map_number_eq_ok_iff fun n _ => payload_int
  | bytes =>
      simp only [map_eq_ok_iff, mapError_eq_ok_iff]
      constructor
      · rintro ⟨_, ⟨bytes, hdecode, rfl⟩, rfl⟩
        exact ⟨rfl, hdecode⟩
      · obtain ⟨tag', payload⟩ := x
        rintro ⟨rfl, hdecode⟩
        exact ⟨_, ⟨payload, hdecode, rfl⟩, rfl⟩
  | string | empty =>
      constructor
      · intro h
        cases h
        exact ⟨rfl, rfl⟩
      · obtain ⟨tag', payload⟩ := x
        dsimp only
        rintro ⟨rfl, rfl⟩
        rfl

-- =============================================================== texts

/-- A kind, a tag and a value with colons between them are read as a
field, unless the value is one that its kind may not have. -/
theorem parse_of_parts {kindText tagText value : List Char}
    {kind : FieldKind} {tag : UInt32} (hkindText : ':' ∉ kindText)
    (htagText : ':' ∉ tagText)
    (hkind : FieldKind.ofName? kindText = some kind)
    (htag : Decimal.read .uint32 (String.ofList tagText)
      = .ok tag.toNat)
    (hvalue : kind = .empty → value = []) :
    parse (String.ofList
        (kindText ++ ':' :: (tagText ++ ':' :: value)))
      = .ok { kind, tag, value := String.ofList value } := by
  unfold parse
  rw [String.toList_ofList, cut_append_cons hkindText]
  dsimp only
  rw [hkind]
  dsimp only
  rw [cut_append_cons htagText]
  dsimp only
  rw [htag]
  dsimp only
  have hallowed : ¬ (kind = .empty ∧ String.ofList value ≠ "") := by
    intro ⟨hempty, hne⟩
    exact hne (by rw [hvalue hempty])
  rw [Option.getD_some, if_neg hallowed, Int.toNat_natCast,
    UInt32.ofNat_toNat]

end Tlv.Field
