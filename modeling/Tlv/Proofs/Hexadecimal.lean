/-
Hexadecimal text has one spelling up to case. A text is read as some
bytes exactly if its lowercase form is what those bytes are written as
(`decode_eq_ok_iff`). So reading undoes writing (`decode_encode`), and
writing what was read gives the text back in lowercase.

The reader works on the bytes of a text and the writer on its characters.
They agree because a digit is a character of one byte: of a text with
only such characters the bytes are its characters, one by one
(`Utf8.map_encode_of_lt`), and a text with any other has a byte that is
no digit (`Utf8.toNat_lt_of_mem`).
-/
import Tlv.Proofs.Characters
import Tlv.Text.Blank
import Tlv.Text.Hex

namespace Tlv

namespace Hex

-- ============================================================== digits

/-- The character of a byte, in lowercase. -/
def lower (b : UInt8) : Char :=
  (Char.ofNat b.toNat).toLower

/-- Only the ASCII capitals have another small letter, 32 places behind
them. -/
theorem toNat_toLower (c : Char) :
    c.toLower.toNat
      = if 65 ≤ c.toNat ∧ c.toNat ≤ 90 then c.toNat + 32 else c.toNat := by
  have hletter : (c.val ≥ 'A'.val ∧ c.val ≤ 'Z'.val)
      ↔ 65 ≤ c.toNat ∧ c.toNat ≤ 90 := by
    rw [ge_iff_le, UInt32.le_iff_toNat_le, UInt32.le_iff_toNat_le]
    rfl
  unfold Char.toLower
  split
  · next h =>
    have hz := hletter.1 h
    rw [if_pos hz]
    show (c.val + 32).toNat = c.val.toNat + 32
    have hle : c.val.toNat ≤ 90 := hz.2
    have hoffset : (32 : UInt32).toNat = 32 := rfl
    rw [UInt32.toNat_add, hoffset, Nat.mod_eq_of_lt (by omega)]
  · next h => rw [if_neg fun hz => h (hletter.2 hz)]

/-- The digits of a base up to sixteen stand in two rows of ASCII. -/
theorem toNat_digitChar {n : Nat} (h : n < 16) :
    (Nat.digitChar n).toNat = if n < 10 then 48 + n else 87 + n := by
  revert h
  revert n
  decide

theorem toNat_lower (b : UInt8) :
    (lower b).toNat
      = if 65 ≤ b.toNat ∧ b.toNat ≤ 90 then b.toNat + 32 else b.toNat := by
  have hlt := b.toNat_lt
  rw [lower, toNat_toLower, Utf8.toNat_charOfNat (Or.inl (by omega))]

/-- A byte has a value if its character is the digit for that value, up
to case. -/
theorem value?_eq_some_iff {b : UInt8} {n : Nat} :
    value? b = some n ↔ n < 16 ∧ lower b = Nat.digitChar n := by
  have hchar (hn : n < 16) : lower b = Nat.digitChar n
      ↔ (lower b).toNat = (Nat.digitChar n).toNat := Char.toNat_inj.symm
  constructor
  · intro h
    have hn : n < 16 := by
      unfold value? at h
      grind
    rw [hchar hn, toNat_lower, toNat_digitChar hn]
    refine ⟨hn, ?_⟩
    unfold value? at h
    grind
  · intro ⟨hn, h⟩
    rw [hchar hn, toNat_lower, toNat_digitChar hn] at h
    unfold value?
    grind

/-- A byte is written in digits below sixteen. -/
theorem mem_digits {b : UInt8} {c : Char} (h : c ∈ digits b) :
    ∃ n < 16, c = Nat.digitChar n := by
  have := b.toNat_lt
  rcases List.mem_cons.1 h with rfl | h
  · exact ⟨b.toNat / 16, by omega, rfl⟩
  · exact ⟨b.toNat % 16, by omega, List.mem_singleton.1 h⟩

/-- Every byte is written in two digits. -/
theorem length_flatMap_digits (bytes : Bytes) :
    (bytes.flatMap digits).length = 2 * bytes.length := by
  induction bytes with
  | nil => rfl
  | cons b bytes ih =>
      rw [List.flatMap_cons, List.length_append, ih, List.length_cons]
      show 2 + 2 * bytes.length = _
      omega

/-- Two digits make the byte that they are written for. -/
theorem digits_ofNat {h l : Nat} (hh : h < 16) (hl : l < 16) :
    digits (UInt8.ofNat (16 * h + l))
      = [Nat.digitChar h, Nat.digitChar l] := by
  have hbyte : (UInt8.ofNat (16 * h + l)).toNat = 16 * h + l := by
    rw [UInt8.toNat_ofNat']
    omega
  have hhigh : (16 * h + l) / 16 = h := by omega
  have hlow : (16 * h + l) % 16 = l := by omega
  rw [digits, hbyte, hhigh, hlow]

-- ============================================================ the reader

/-- What is read from an even number of bytes is written as they are, up
to case. -/
theorem of_decodeFrom_eq_ok {index : Nat} {read raw out : Bytes}
    (heven : raw.length % 2 = 0)
    (h : decodeFrom index read raw = .ok out) :
    ∃ bytes, out = read.reverse ++ bytes
      ∧ raw.map lower = bytes.flatMap digits := by
  fun_induction decodeFrom index read raw with
  | case1 index read high low rest x y hy hx ih =>
      have heven' : rest.length % 2 = 0 := by
        simp only [List.length_cons] at heven
        omega
      obtain ⟨hx, hhigh⟩ := value?_eq_some_iff.1 hx
      obtain ⟨hy, hlow⟩ := value?_eq_some_iff.1 hy
      obtain ⟨bytes, rfl, hbytes⟩ := ih heven' h
      refine ⟨UInt8.ofNat (16 * x + y) :: bytes, by simp, ?_⟩
      rw [List.map_cons, List.map_cons, hbytes, List.flatMap_cons,
        digits_ofNat hx hy, hhigh, hlow]
      rfl
  | case2 => cases h
  | case3 => cases h
  | case4 raw index read hshort =>
      cases h
      match raw with
      | [] => exact ⟨[], by simp, rfl⟩
      | [_] => cases heven
      | high :: low :: rest => exact (hshort high low rest rfl).elim

/-- Bytes that are the digits of others, up to case, are read as
those. -/
theorem decodeFrom_eq_ok {bytes raw : Bytes}
    (h : raw.map lower = bytes.flatMap digits) (index : Nat)
    (read : Bytes) :
    decodeFrom index read raw = .ok (read.reverse ++ bytes) := by
  induction bytes generalizing raw index read with
  | nil =>
      obtain rfl := List.map_eq_nil_iff.1 h
      simp [decodeFrom]
  | cons b bytes ih =>
      have hb := b.toNat_lt
      match raw with
      | [] => cases h
      | [_] => simp [digits] at h
      | high :: low :: rest =>
          simp only [List.map_cons, List.flatMap_cons, digits,
            List.cons_append, List.nil_append, List.cons.injEq] at h
          obtain ⟨hhigh, hlow, hrest⟩ := h
          have hx := value?_eq_some_iff.2
            ⟨(by omega : b.toNat / 16 < 16), hhigh⟩
          have hy := value?_eq_some_iff.2
            ⟨(by omega : b.toNat % 16 < 16), hlow⟩
          -- the two digits are the quotient and the remainder of the byte
          have hbyte : UInt8.ofNat (16 * (b.toNat / 16) + b.toNat % 16)
              = b := by
            rw [Nat.div_add_mod, UInt8.ofNat_toNat]
          simp only [decodeFrom, hx, hy]
          rw [ih hrest, hbyte]
          simp

-- ================================================================ texts

theorem toList_encode (bytes : Bytes) :
    (encode bytes).toList = bytes.flatMap digits :=
  String.toList_ofList

/-- A written form is twice as long as the bytes. -/
theorem length_encode (bytes : Bytes) :
    (encode bytes).length = 2 * bytes.length := by
  rw [← String.length_toList, toList_encode, length_flatMap_digits]

theorem mem_toList_encode {bytes : Bytes} {c : Char}
    (h : c ∈ (encode bytes).toList) : ∃ n < 16, c = Nat.digitChar n := by
  rw [toList_encode] at h
  obtain ⟨b, -, hc⟩ := List.mem_flatMap.1 h
  exact mem_digits hc

/-- What is no such digit does not occur in a written form. -/
theorem not_mem_toList_encode {c : Char}
    (h : ∀ n < 16, c ≠ Nat.digitChar n) (bytes : Bytes) :
    c ∉ (encode bytes).toList := by
  intro hc
  obtain ⟨n, hn, heq⟩ := mem_toList_encode hc
  exact h n hn heq

theorem toList_toLower (text : String) :
    text.toLower.toList = text.toList.map Char.toLower :=
  String.toList_map

theorem length_toLower (text : String) :
    text.toLower.length = text.length :=
  String.length_map

theorem toNat_digitChar_lt {n : Nat} (h : n < 16) :
    (Nat.digitChar n).toNat < 128 := by
  rw [toNat_digitChar h]
  split <;> omega

/-- A text whose bytes are digits, up to case, has characters of one byte
only. -/
theorem toNat_lt_of_map_lower_eq {text : String} {bytes : Bytes}
    (h : (Utf8.encode text).map lower = bytes.flatMap digits) {c : Char}
    (hc : c ∈ text.toList) : c.toNat < 128 := by
  refine Utf8.toNat_lt_of_mem (fun b hb => ?_) hc
  have hmem := List.mem_map_of_mem (f := lower) hb
  rw [h] at hmem
  obtain ⟨b', -, hdigit⟩ := List.mem_flatMap.1 hmem
  obtain ⟨n, hn, heq⟩ := mem_digits hdigit
  have hlower := congrArg Char.toNat heq
  rw [toNat_lower] at hlower
  have := toNat_digitChar_lt hn
  split at hlower <;> omega

/-- And so has a text whose characters are. -/
theorem toNat_lt_of_toLower_eq_encode {text : String} {bytes : Bytes}
    (h : text.toLower = encode bytes) {c : Char} (hc : c ∈ text.toList) :
    c.toNat < 128 := by
  have hmem := List.mem_map_of_mem (f := Char.toLower) hc
  rw [← toList_toLower, h] at hmem
  obtain ⟨n, hn, heq⟩ := mem_toList_encode hmem
  have hlower := congrArg Char.toNat heq
  rw [toNat_toLower] at hlower
  have := toNat_digitChar_lt hn
  split at hlower <;> omega

/-- The bytes of such a text are its characters, in lowercase too. -/
theorem map_lower_encode {text : String}
    (h : ∀ c ∈ text.toList, c.toNat < 128) :
    (Utf8.encode text).map lower = text.toLower.toList := by
  have hmap := congrArg (List.map Char.toLower) (Utf8.map_encode_of_lt h)
  rw [List.map_map] at hmap
  rw [toList_toLower]
  exact hmap

/-- A text is read as some bytes if, in lowercase, it is what they are
written as. -/
theorem decode_eq_ok_iff {text : String} {bytes : Bytes} :
    decode text = .ok bytes ↔ text.toLower = encode bytes := by
  constructor
  · intro h
    unfold decode at h
    dsimp only at h
    split at h
    · next heven =>
      obtain ⟨bytes', rfl, hlower⟩ := of_decodeFrom_eq_ok heven h
      rw [map_lower_encode fun c hc => toNat_lt_of_map_lower_eq hlower hc,
        ← toList_encode] at hlower
      exact String.toList_inj.1 hlower
    · cases h
  · intro h
    have hlower := map_lower_encode
      fun c hc => toNat_lt_of_toLower_eq_encode h hc
    rw [h, toList_encode] at hlower
    have hlen := congrArg List.length hlower
    rw [List.length_map, length_flatMap_digits] at hlen
    unfold decode
    dsimp only
    rw [if_pos (by omega), decodeFrom_eq_ok hlower]
    rfl

/-- What is written is in small letters already. -/
theorem toLower_encode (bytes : Bytes) :
    (encode bytes).toLower = encode bytes := by
  have hlower : ∀ n < 16, (Nat.digitChar n).toLower = Nat.digitChar n := by
    decide
  apply String.toList_inj.1
  rw [toList_toLower]
  refine (List.map_congr_left fun c hc => ?_).trans (List.map_id _)
  obtain ⟨n, hn, rfl⟩ := mem_toList_encode hc
  exact hlower n hn

/-- Bytes are read back from their written form. -/
theorem decode_encode (bytes : Bytes) :
    decode (encode bytes) = .ok bytes :=
  decode_eq_ok_iff.2 (toLower_encode bytes)

/-- No two byte strings are written alike. -/
theorem encode_injective {bytes bytes' : Bytes}
    (h : encode bytes = encode bytes') : bytes = bytes' := by
  have hread := decode_encode bytes
  rw [h, decode_encode] at hread
  cases hread
  rfl

end Hex

namespace Blank

/-- A text without blanks has none to lose. -/
theorem trim_of_forall {text : String}
    (h : ∀ c ∈ text.toList, isBlank c = false) : trim text = text := by
  have hdrop : ∀ cs : List Char, (∀ c ∈ cs, isBlank c = false) →
      cs.dropWhile isBlank = cs := by
    intro cs hcs
    cases cs with
    | nil => rfl
    | cons c cs =>
        exact List.dropWhile_cons_of_neg
          (by simp [hcs c (List.mem_cons_self ..)])
  rw [trim, hdrop _ h, hdrop _ fun c hc => h c (List.mem_reverse.1 hc),
    List.reverse_reverse, String.ofList_toList]

/-- No digit is blank. -/
theorem trim_encode (bytes : Bytes) :
    trim (Hex.encode bytes) = Hex.encode bytes := by
  have hdigit : ∀ n < 16, isBlank (Nat.digitChar n) = false := by decide
  refine trim_of_forall fun c hc => ?_
  obtain ⟨n, hn, rfl⟩ := Hex.mem_toList_encode hc
  exact hdigit n hn

end Blank

end Tlv
