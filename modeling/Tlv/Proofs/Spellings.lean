/-
Which texts spell a buffer, and what the decoding command makes of all
others. A text is read if it has digits in pairs and nothing else. For
any other text the reader blames the number of its bytes, if that is odd,
or else the first of them that is no digit (`Hex.decode_eq_error_iff`);
it takes two bytes at a time, so that this one may be either of a pair
(`Hex.decodeFrom_eq_error`).

A buffer has many spellings. The blanks around it are cut off, and of a
digit only its value is read, which is the same in both cases
(`Hex.decode_congr`). So the command answers one thing for all of them
(`Invocation.answer_run_decode_spelling`).
-/
import Mathlib.Data.List.DropRight
import Mathlib.Data.List.Forall2
import Tlv.Proofs.Readings

namespace Tlv

namespace Hex

-- ============================================================== digits

/-- The digits of both cases. -/
def digitChars : List Char :=
  ['0', '1', '2', '3', '4', '5', '6', '7', '8', '9', 'a', 'b', 'c', 'd',
    'e', 'f', 'A', 'B', 'C', 'D', 'E', 'F']

/-- The byte of a digit. -/
def IsDigit (b : UInt8) : Prop :=
  Char.ofNat b.toNat ∈ digitChars

instance : DecidablePred IsDigit := fun b =>
  inferInstanceAs (Decidable (Char.ofNat b.toNat ∈ digitChars))

/-- The same character, or the same digit in either case. -/
def SameDigit (c c' : Char) : Prop :=
  c = c' ∨ (c ∈ digitChars ∧ c' ∈ digitChars ∧ c.toLower = c'.toLower)

instance (c c' : Char) : Decidable (SameDigit c c') := by
  unfold SameDigit
  infer_instance

theorem isSome_value?_iff (b : UInt8) :
    (value? b).isSome = true ↔ IsDigit b := by
  have htable : ∀ n : Fin 256, (value? (UInt8.ofNat n)).isSome = true
      ↔ IsDigit (UInt8.ofNat n) := by decide +kernel
  have h := htable ⟨b.toNat, b.toNat_lt⟩
  rwa [UInt8.ofNat_toNat] at h

theorem exists_value?_eq_some {b : UInt8} (h : IsDigit b) :
    ∃ n, value? b = some n :=
  Option.isSome_iff_exists.1 ((isSome_value?_iff b).2 h)

theorem value?_eq_none {b : UInt8} (h : ¬ IsDigit b) : value? b = none := by
  rw [← isSome_value?_iff, Option.not_isSome_iff_eq_none] at h
  exact h

/-- Digits are characters of one byte, and none of them is blank. -/
theorem of_mem_digitChars {c : Char} (h : c ∈ digitChars) :
    c.toNat < 128 ∧ IsDigit (UInt8.ofNat c.toNat)
      ∧ Blank.isBlank c = false := by
  have hall : digitChars.all (fun c => c.toNat < 128
      ∧ IsDigit (UInt8.ofNat c.toNat) ∧ Blank.isBlank c = false) := by
    decide +kernel
  exact of_decide_eq_true (List.all_eq_true.1 hall c h)

/-- Both cases of a digit have the same value. -/
theorem value?_eq_of_toLower_eq {c c' : Char} (h : c ∈ digitChars)
    (h' : c' ∈ digitChars) (hlower : c.toLower = c'.toLower) :
    value? (UInt8.ofNat c.toNat) = value? (UInt8.ofNat c'.toNat) := by
  have hall : digitChars.all (fun c => digitChars.all fun c' =>
      c.toLower = c'.toLower →
        value? (UInt8.ofNat c.toNat) = value? (UInt8.ofNat c'.toNat)) := by
    decide +kernel
  exact of_decide_eq_true
    (List.all_eq_true.1 (List.all_eq_true.1 hall c h) c' h') hlower

-- ============================================================= reading

/-- What is wrong with bytes that are not digits in pairs. -/
def Faulty (raw : Bytes) : Fault → Prop
  | .oddLength => raw.length % 2 = 1
  | .invalidCharacter b index =>
      raw.length % 2 = 0 ∧ ¬ IsDigit b
        ∧ ∃ before after, raw = before ++ b :: after
          ∧ before.length = index ∧ ∀ d ∈ before, IsDigit d

/-- Digits in pairs are read. -/
theorem exists_decodeFrom_eq_ok {raw : Bytes}
    (h : ∀ b ∈ raw, IsDigit b) (index : Nat) (read : Bytes) :
    ∃ out, decodeFrom index read raw = .ok out := by
  fun_induction decodeFrom index read raw with
  | case1 index read high low rest x y hy hx ih =>
      exact ih fun b hb => h b (by simp [hb])
  | case2 index read high low rest x hlow hhigh =>
      obtain ⟨n, hn⟩ := exists_value?_eq_some (h low (by simp))
      rw [hlow] at hn
      cases hn
  | case3 index read high low rest hhigh =>
      obtain ⟨n, hn⟩ := exists_value?_eq_some (h high (by simp))
      rw [hhigh] at hn
      cases hn
  | case4 raw index read => exact ⟨_, rfl⟩

/-- The first byte that is no digit is to blame, whichever of its pair
it is. -/
theorem decodeFrom_eq_error {b : UInt8} {after : Bytes}
    (hb : ¬ IsDigit b) :
    ∀ (before : Bytes) (index : Nat) (read : Bytes),
      (before ++ b :: after).length % 2 = 0 → (∀ d ∈ before, IsDigit d) →
        decodeFrom index read (before ++ b :: after)
          = .error (.invalidCharacter b (index + before.length))
  | [], index, read, heven, _ => by
      match after with
      | [] => cases heven
      | low :: rest => simp [decodeFrom, value?_eq_none hb]
  | [d], index, read, _, hbefore => by
      obtain ⟨n, hn⟩ := exists_value?_eq_some (hbefore d (by simp))
      simp [decodeFrom, hn, value?_eq_none hb]
  | d :: d' :: before, index, read, heven, hbefore => by
      obtain ⟨n, hn⟩ := exists_value?_eq_some (hbefore d (by simp))
      obtain ⟨n', hn'⟩ := exists_value?_eq_some (hbefore d' (by simp))
      have heven' : (before ++ b :: after).length % 2 = 0 := by
        simp only [List.length_cons, List.cons_append] at heven
        omega
      have hrest := decodeFrom_eq_error hb before (index + 2)
        (UInt8.ofNat (16 * n + n') :: read) heven'
        fun c hc => hbefore c (by simp [hc])
      simp only [List.cons_append, decodeFrom, hn, hn', hrest,
        List.length_cons]
      congr 2
      omega

/-- Some bytes are all digits, or there is a first one that is none. -/
theorem forall_isDigit_or (raw : Bytes) :
    (∀ b ∈ raw, IsDigit b)
      ∨ ∃ before b after, raw = before ++ b :: after ∧ ¬ IsDigit b
        ∧ ∀ d ∈ before, IsDigit d := by
  cases hfind : raw.find? fun b => !decide (IsDigit b) with
  | none =>
      refine Or.inl fun b hb => ?_
      simpa using List.find?_eq_none.1 hfind b hb
  | some b =>
      obtain ⟨hb, before, after, hraw, hbefore⟩ :=
        List.find?_eq_some_iff_append.1 hfind
      exact Or.inr ⟨before, b, after, hraw, by simpa using hb,
        fun d hd => by simpa using hbefore d hd⟩

/-- An even number of digits is read as bytes. -/
theorem exists_decode_eq_ok {text : String}
    (heven : (Utf8.encode text).length % 2 = 0)
    (h : ∀ b ∈ Utf8.encode text, IsDigit b) :
    ∃ bytes, decode text = .ok bytes := by
  unfold decode
  dsimp only
  rw [if_pos heven]
  exact exists_decodeFrom_eq_ok h 0 []

/-- The first fault of a text is the one that is reported. -/
theorem decode_eq_error_of_faulty {text : String} {fault : Fault}
    (h : Faulty (Utf8.encode text) fault) : decode text = .error fault := by
  unfold decode
  dsimp only
  cases fault with
  | oddLength =>
      have hodd : (Utf8.encode text).length % 2 = 1 := h
      rw [if_neg (by omega)]
  | invalidCharacter b index =>
      obtain ⟨heven, hb, before, after, hraw, rfl, hbefore⟩ := h
      rw [if_pos heven, hraw, decodeFrom_eq_error hb before 0 []
        (by rwa [hraw] at heven) hbefore, Nat.zero_add]

/-- A text is digits in pairs, or something is wrong with it. -/
theorem faulty_cases (text : String) :
    ((Utf8.encode text).length % 2 = 0
        ∧ ∀ b ∈ Utf8.encode text, IsDigit b)
      ∨ ∃ fault, Faulty (Utf8.encode text) fault := by
  rcases Nat.mod_two_eq_zero_or_one (Utf8.encode text).length with
    heven | hodd
  · rcases forall_isDigit_or (Utf8.encode text) with
      hall | ⟨before, b, after, hraw, hb, hbefore⟩
    · exact Or.inl ⟨heven, hall⟩
    · exact Or.inr ⟨.invalidCharacter b before.length, heven, hb, before,
        after, hraw, rfl, hbefore⟩
  · exact Or.inr ⟨.oddLength, hodd⟩

/-- Reading a text fails for what is wrong with it. -/
theorem decode_eq_error_iff {text : String} {fault : Fault} :
    decode text = .error fault ↔ Faulty (Utf8.encode text) fault := by
  constructor
  · intro h
    rcases faulty_cases text with ⟨heven, hall⟩ | ⟨fault', hfault⟩
    · obtain ⟨bytes, hbytes⟩ := exists_decode_eq_ok heven hall
      rw [hbytes] at h
      cases h
    · rw [decode_eq_error_of_faulty hfault] at h
      cases h
      exact hfault
  · exact decode_eq_error_of_faulty

/-- The texts that are read are the digits in pairs. -/
theorem exists_decode_eq_ok_iff {text : String} :
    (∃ bytes, decode text = .ok bytes)
      ↔ (Utf8.encode text).length % 2 = 0
        ∧ ∀ b ∈ Utf8.encode text, IsDigit b := by
  constructor
  · intro ⟨bytes, h⟩
    rcases faulty_cases text with hdigits | ⟨fault, hfault⟩
    · exact hdigits
    · rw [decode_eq_error_of_faulty hfault] at h
      cases h
  · intro ⟨heven, hall⟩
    exact exists_decode_eq_ok heven hall

-- ===================================================== case of digits

/-- The same byte, or the same digit in either case. -/
def Alike (b b' : UInt8) : Prop :=
  b = b' ∨ ((value? b).isSome = true ∧ value? b' = value? b)

/-- Letters have the same value in either case. -/
theorem Alike.value?_eq {b b' : UInt8} (h : Alike b b') :
    value? b' = value? b := by
  rcases h with rfl | ⟨-, heq⟩
  · rfl
  · exact heq

/-- What is no digit is like itself alone. -/
theorem Alike.eq_of_value?_eq_none {b b' : UInt8} (h : Alike b b')
    (hb : value? b = none) : b' = b := by
  rcases h with rfl | ⟨hsome, -⟩
  · rfl
  · rw [hb] at hsome
    cases hsome

/-- Reading does not tell the cases of digits apart. -/
theorem decodeFrom_congr {raw raw' : Bytes}
    (h : List.Forall₂ Alike raw raw') (index : Nat) (read : Bytes) :
    decodeFrom index read raw' = decodeFrom index read raw := by
  fun_induction decodeFrom index read raw generalizing raw' with
  | case1 index read high low rest x y hy hx ih =>
      obtain _ | ⟨hhigh, _ | ⟨hlow, hrest⟩⟩ := h
      simp only [decodeFrom, hhigh.value?_eq, hlow.value?_eq, hx, hy]
      exact ih hrest
  | case2 index read high low rest x hy hx =>
      obtain _ | ⟨hhigh, _ | ⟨hlow, hrest⟩⟩ := h
      simp only [decodeFrom, hhigh.value?_eq, hx, hy,
        hlow.eq_of_value?_eq_none hy]
  | case3 index read high low rest hx =>
      obtain _ | ⟨hhigh, _ | ⟨hlow, hrest⟩⟩ := h
      simp only [decodeFrom, hx, hhigh.eq_of_value?_eq_none hx]
  | case4 raw index read hshort =>
      obtain _ | ⟨hhigh, _ | ⟨hlow, hrest⟩⟩ := h
      · rfl
      · rfl
      · exact (hshort _ _ _ rfl).elim

/-- The case of a letter does not make it a blank. -/
theorem SameDigit.isBlank_eq {c c' : Char} (h : SameDigit c c') :
    Blank.isBlank c = Blank.isBlank c' := by
  rcases h with rfl | ⟨hc, hc', -⟩
  · rfl
  · rw [(of_mem_digitChars hc).2.2, (of_mem_digitChars hc').2.2]

/-- The bytes of a character in either case. -/
theorem SameDigit.forall₂_alike {c c' : Char} (h : SameDigit c c') :
    List.Forall₂ Alike (String.utf8EncodeChar c)
      (String.utf8EncodeChar c') := by
  rcases h with rfl | ⟨hc, hc', hlower⟩
  · exact List.forall₂_same.2 fun b _ => Or.inl rfl
  · obtain ⟨hlt, hdigit, -⟩ := of_mem_digitChars hc
    rw [Utf8.utf8EncodeChar_of_lt hlt,
      Utf8.utf8EncodeChar_of_lt (of_mem_digitChars hc').1]
    exact .cons (Or.inr ⟨(isSome_value?_iff _).2 hdigit,
      (value?_eq_of_toLower_eq hc hc' hlower).symm⟩) .nil

/-- Texts that differ in the case of digits only are read alike. -/
theorem decode_congr {text text' : String}
    (h : List.Forall₂ SameDigit text.toList text'.toList) :
    decode text' = decode text := by
  have hbytes : List.Forall₂ Alike (Utf8.encode text)
      (Utf8.encode text') := by
    rw [Utf8.encode_eq_flatMap, Utf8.encode_eq_flatMap]
    exact List.rel_flatMap h fun _ _ hc => hc.forall₂_alike
  unfold decode
  dsimp only
  rw [hbytes.length_eq, decodeFrom_congr hbytes]

end Hex

namespace Blank

-- ============================================================== blanks

theorem toList_trim (text : String) :
    (trim text).toList
      = (text.toList.dropWhile isBlank).rdropWhile isBlank :=
  String.toList_ofList

/-- Where all blanks in front are gone, what is in front is none. -/
theorem isBlank_of_mem_head?_dropWhile {cs : List Char} {c : Char}
    (h : c ∈ (cs.dropWhile isBlank).head?) : isBlank c = false := by
  have hnot := List.head?_dropWhile_not isBlank cs
  rwa [Option.mem_def.1 h] at hnot

/-- What is cut off is the blanks at either end, as many as there are. -/
theorem exists_trim_eq (text : String) :
    ∃ before after : String, text = before ++ trim text ++ after
      ∧ (∀ c ∈ before.toList ++ after.toList, isBlank c = true)
      ∧ (∀ c ∈ (trim text).toList.head?, isBlank c = false)
      ∧ ∀ c ∈ (trim text).toList.getLast?, isBlank c = false := by
  let cs := text.toList.dropWhile isBlank
  refine ⟨String.ofList (text.toList.takeWhile isBlank),
    String.ofList (cs.rtakeWhile isBlank), ?_, ?_, ?_, ?_⟩
  · apply String.toList_inj.1
    rw [String.toList_append, String.toList_append, toList_trim,
      String.toList_ofList, String.toList_ofList, List.append_assoc,
      List.rdropWhile_append_rtakeWhile, List.takeWhile_append_dropWhile]
  · rw [String.toList_ofList, String.toList_ofList, List.forall_mem_append]
    exact ⟨fun _ => List.mem_takeWhile_imp, fun _ => List.mem_rtakeWhile_imp⟩
  · intro c hc
    -- what the cut at the end leaves begins like what it is given
    obtain ⟨tail, htail⟩ := List.rdropWhile_prefix isBlank (l := cs)
    rw [toList_trim, Option.mem_def] at hc
    have hhead : c ∈ cs.head? := by
      rw [← htail, List.head?_append, hc]
      rfl
    exact isBlank_of_mem_head?_dropWhile hhead
  · intro c hc
    rw [toList_trim, List.rdropWhile, List.getLast?_reverse] at hc
    exact isBlank_of_mem_head?_dropWhile hc

/-- The cut falls at the same places whichever case digits are in. -/
theorem forall₂_dropWhile {cs cs' : List Char}
    (h : List.Forall₂ Hex.SameDigit cs cs') :
    List.Forall₂ Hex.SameDigit (cs.dropWhile isBlank)
      (cs'.dropWhile isBlank) := by
  induction h with
  | nil => exact .nil
  | cons hc hcs ih =>
      rw [List.dropWhile_cons, List.dropWhile_cons, hc.isBlank_eq]
      split
      · exact ih
      · exact .cons hc hcs

/-- Texts that differ in the case of digits still do so without their
blanks. -/
theorem forall₂_trim {text text' : String}
    (h : List.Forall₂ Hex.SameDigit text.toList text'.toList) :
    List.Forall₂ Hex.SameDigit (trim text).toList (trim text').toList := by
  rw [toList_trim, toList_trim, List.rdropWhile, List.rdropWhile,
    List.forall₂_reverse_iff]
  exact forall₂_dropWhile
    (List.forall₂_reverse_iff.2 (forall₂_dropWhile h))

end Blank

-- ============================================================== widths

namespace Policy

variable {typeWidth lengthWidth : Int}

/-- A tag width that is none of the four is refused, whatever the other
is. -/
theorem ofWidths_of_type_not_mem (h : typeWidth ∉ [0, 1, 2, 4]) :
    ofWidths typeWidth lengthWidth
      = .error { field := .type, width := typeWidth } := by
  simp only [List.mem_cons, List.not_mem_nil, not_or] at h
  obtain ⟨hzero, hone, htwo, hfour, -⟩ := h
  have htype : TypeWidth.ofInt typeWidth
      = .error { field := .type, width := typeWidth } := by
    rw [TypeWidth.ofInt, if_neg hzero, if_neg hone, if_neg htwo,
      if_neg hfour]
  rw [ofWidths, htype]
  rfl

/-- Each of the four tag widths is accepted. -/
theorem exists_typeWidth (h : typeWidth ∈ [0, 1, 2, 4]) :
    ∃ w, TypeWidth.ofInt typeWidth = .ok w ∧ (w.bytes : Int) = typeWidth := by
  simp only [List.mem_cons, List.not_mem_nil, or_false] at h
  rcases h with rfl | rfl | rfl | rfl
  · exact ⟨.absent, rfl, rfl⟩
  · exact ⟨.one, rfl, rfl⟩
  · exact ⟨.two, rfl, rfl⟩
  · exact ⟨.four, rfl, rfl⟩

theorem exists_lengthWidth (h : lengthWidth ∈ [1, 2, 4]) :
    ∃ w, LengthWidth.ofInt lengthWidth = .ok w
      ∧ (w.bytes : Int) = lengthWidth := by
  simp only [List.mem_cons, List.not_mem_nil, or_false] at h
  rcases h with rfl | rfl | rfl
  · exact ⟨.one, rfl, rfl⟩
  · exact ⟨.two, rfl, rfl⟩
  · exact ⟨.four, rfl, rfl⟩

/-- The type width is judged first. -/
theorem ofWidths_of_length_not_mem (h : typeWidth ∈ [0, 1, 2, 4])
    (h' : lengthWidth ∉ [1, 2, 4]) :
    ofWidths typeWidth lengthWidth
      = .error { field := .length, width := lengthWidth } := by
  obtain ⟨w, hw, -⟩ := exists_typeWidth h
  simp only [List.mem_cons, List.not_mem_nil, not_or] at h'
  obtain ⟨hone, htwo, hfour, -⟩ := h'
  have hlength : LengthWidth.ofInt lengthWidth
      = .error { field := .length, width := lengthWidth } := by
    rw [LengthWidth.ofInt, if_neg hone, if_neg htwo, if_neg hfour]
  rw [ofWidths, hw, hlength]
  rfl

/-- A tag width and a length width that are accepted make a policy. -/
theorem exists_ofWidths_eq_ok (h : typeWidth ∈ [0, 1, 2, 4])
    (h' : lengthWidth ∈ [1, 2, 4]) :
    ∃ p, ofWidths typeWidth lengthWidth = .ok p
      ∧ (p.typeWidth.bytes : Int) = typeWidth
      ∧ (p.lengthWidth.bytes : Int) = lengthWidth := by
  obtain ⟨w, hw, hbytes⟩ := exists_typeWidth h
  obtain ⟨w', hw', hbytes'⟩ := exists_lengthWidth h'
  refine ⟨⟨w, w'⟩, ?_, hbytes, hbytes'⟩
  rw [ofWidths, hw, hw']
  rfl

end Policy

-- ========================================================= the command

namespace Command

variable {p : Policy} {buffer : String}

/-- Under a policy a text is refused for its spelling if it has a fault,
and then for the first. -/
theorem answer_runDecode_eq_hex_iff {fault : Hex.Fault} :
    (runDecode p buffer).answer = .error (.hex fault)
      ↔ Hex.Faulty (Utf8.encode (Blank.trim buffer)) fault := by
  rw [answer_runDecode, ← Hex.decode_eq_error_iff]
  cases Hex.decode (Blank.trim buffer) with
  | error fault' => simp
  | ok data =>
      dsimp only
      cases (View.mk p data).items.answer.mapM id with
      | error cause => simp
      | ok es => simp

/-- Bytes that have been read are shown as elements, or else their error
is answered. -/
theorem answer_runDecode_cases {data : Bytes}
    (h : Hex.decode (Blank.trim buffer) = .ok data) :
    (∃ es, (View.mk p data).Reads es
        ∧ (runDecode p buffer).answer
          = .ok ("\n".intercalate (es.map line)))
      ∨ ∃ (es : List Element) (error : DecodeError),
        (View.mk p data).items.answer = es.map .ok ++ [.error error]
          ∧ (runDecode p buffer).answer
            = .error (.codec (.decode error)) := by
  have hanswer := answer_runDecode p buffer
  rw [h] at hanswer
  dsimp only at hanswer
  rcases (View.mk p data).items_cases with hall | ⟨error, hsplit, -⟩
  · refine Or.inl ⟨_, hall, ?_⟩
    rw [hanswer, View.mapM_id_eq_ok_iff.2 hall]
  · refine Or.inr ⟨_, error, hsplit, ?_⟩
    rw [hanswer, hsplit, View.mapM_id_append_error]

end Command

namespace Invocation

variable {typeWidth lengthWidth : Int} {buffer buffer' : String}

/-- The widths are judged before the text. -/
theorem answer_run_decode_eq (typeWidth lengthWidth : Int)
    (buffer : String) :
    (mk typeWidth lengthWidth (.decode buffer)).run.answer
      = match Policy.ofWidths typeWidth lengthWidth with
        | .error cause => .error (.codec (.policy cause))
        | .ok p => (Command.runDecode p buffer).answer := by
  unfold run
  cases Policy.ofWidths typeWidth lengthWidth <;> rfl

/-- What is read from a text is all that the command makes of it. -/
theorem answer_run_decode_congr
    (h : Hex.decode (Blank.trim buffer')
      = Hex.decode (Blank.trim buffer)) :
    (mk typeWidth lengthWidth (.decode buffer')).run.answer
      = (mk typeWidth lengthWidth (.decode buffer)).run.answer := by
  rw [answer_run_decode_eq, answer_run_decode_eq]
  cases Policy.ofWidths typeWidth lengthWidth with
  | error cause => rfl
  | ok p =>
      dsimp only
      rw [Command.answer_runDecode, Command.answer_runDecode, h]

/-- The decoding command judges the type width first, then the length
width, and then the text without the blanks at its ends: there have to be
digits in pairs, and otherwise an odd number of bytes is to blame or else
the first byte that is no digit. What the digits denote is answered with a
line for each element, or with the error that its traversal meets.
Neither blanks around the text nor the case of digits make any
difference. -/
theorem answer_run_decode_spelling (typeWidth lengthWidth : Int)
    (buffer : String) :
    let answer := fun buffer' : String =>
      (mk typeWidth lengthWidth (.decode buffer')).run.answer
    let text := Blank.trim buffer
    let raw := Utf8.encode text
    (typeWidth ∉ [0, 1, 2, 4] →
        answer buffer
          = .error (.codec (.policy ⟨.type, typeWidth⟩)))
      ∧ (typeWidth ∈ [0, 1, 2, 4] → lengthWidth ∉ [1, 2, 4] →
          answer buffer
            = .error (.codec (.policy ⟨.length, lengthWidth⟩)))
      ∧ (typeWidth ∈ [0, 1, 2, 4] → lengthWidth ∈ [1, 2, 4] →
          (∀ fault, answer buffer = .error (.hex fault)
              ↔ Hex.Faulty raw fault)
            ∧ (raw.length % 2 = 0 → (∀ b ∈ raw, Hex.IsDigit b) →
                ∃ p data, (p.typeWidth.bytes : Int) = typeWidth
                  ∧ (p.lengthWidth.bytes : Int) = lengthWidth
                  ∧ text.toLower = Hex.encode data
                  ∧ ((∃ es, (View.mk p data).Reads es
                      ∧ answer buffer
                        = .ok ("\n".intercalate (es.map Command.line)))
                    ∨ ∃ (es : List Element) (error : DecodeError),
                      (View.mk p data).items.answer
                          = es.map .ok ++ [.error error]
                        ∧ answer buffer
                          = .error (.codec (.decode error)))))
      ∧ (∃ before after, buffer = before ++ text ++ after
          ∧ (∀ c ∈ before.toList ++ after.toList, Blank.isBlank c = true)
          ∧ (∀ c ∈ text.toList.head?, Blank.isBlank c = false)
          ∧ ∀ c ∈ text.toList.getLast?, Blank.isBlank c = false)
      ∧ (∀ before after : String,
          (∀ c ∈ before.toList ++ after.toList, Blank.isBlank c = true) →
            answer (before ++ buffer ++ after) = answer buffer)
      ∧ ∀ buffer' : String,
          List.Forall₂ Hex.SameDigit buffer.toList buffer'.toList →
            answer buffer' = answer buffer := by
  intro answer text raw
  have hanswer : answer buffer
      = match Policy.ofWidths typeWidth lengthWidth with
        | .error cause => .error (.codec (.policy cause))
        | .ok p => (Command.runDecode p buffer).answer :=
    answer_run_decode_eq typeWidth lengthWidth buffer
  refine ⟨?_, ?_, ?_, Blank.exists_trim_eq buffer, ?_, ?_⟩
  · intro htype
    rw [hanswer, Policy.ofWidths_of_type_not_mem htype]
  · intro htype hlength
    rw [hanswer, Policy.ofWidths_of_length_not_mem htype hlength]
  -- with both widths in order it is the text that decides
  · intro htype hlength
    obtain ⟨p, hp, hbytes, hbytes'⟩ :=
      Policy.exists_ofWidths_eq_ok htype hlength
    rw [hp] at hanswer
    rw [hanswer]
    refine ⟨fun fault => Command.answer_runDecode_eq_hex_iff, ?_⟩
    intro heven hdigits
    obtain ⟨data, hdata⟩ := Hex.exists_decode_eq_ok heven hdigits
    exact ⟨p, data, hbytes, hbytes', Hex.decode_eq_ok_iff.1 hdata,
      Command.answer_runDecode_cases hdata⟩
  · intro before after hblank
    exact answer_run_decode_congr
      (congrArg Hex.decode (Blank.trim_append hblank buffer))
  · intro buffer' hsame
    exact answer_run_decode_congr
      (Hex.decode_congr (Blank.forall₂_trim hsame))

/-- Illegal widths, whatever the text; digits of both cases, blanks
around them, and the cases the other way; and two bytes of one character
between two digits. -/
theorem answer_run_decode_spelling_blanks_and_cases :
    let answer := fun buffer : String => (mk 1 1 (.decode buffer)).run.answer
    let buffer := "0002aBCd"
    (mk 3 9 (.decode "?")).run.answer
        = .error (.codec (.policy ⟨.type, 3⟩))
      ∧ (mk 1 9 (.decode "?")).run.answer
        = .error (.codec (.policy ⟨.length, 9⟩))
      ∧ answer buffer = .ok "type=0 length=2 payload=abcd"
      ∧ answer ("\u3000 " ++ buffer ++ "\n") = answer buffer
      ∧ answer "0002Abcd" = answer buffer
      ∧ answer "0é1" = .error (.hex (.invalidCharacter 0xC3 1)) := by
  intro answer buffer
  obtain ⟨htype, -⟩ := answer_run_decode_spelling 3 9 "?"
  obtain ⟨-, hlength, -⟩ := answer_run_decode_spelling 1 9 "?"
  obtain ⟨-, -, hlegal, -, hblanks, hcase⟩ :=
    answer_run_decode_spelling 1 1 buffer
  obtain ⟨-, -, hfaulty, -⟩ := answer_run_decode_spelling 1 1 "0é1"
  refine ⟨htype (by decide), hlength (by decide) (by decide), ?_,
    hblanks _ _ (by simp [Blank.isBlank]), hcase _ (by decide +kernel),
    ((hfaulty (by decide) (by decide)).1 _).2 ?_⟩
  · obtain ⟨p, data, hbytes, hbytes', htext, hcases⟩ :=
      (hlegal (by decide) (by decide)).2 (by decide +kernel)
        (by decide +kernel)
    have hp : Policy.ofWidths 1 1 = .ok p := by
      have := p.ofWidths_bytes
      rwa [hbytes, hbytes'] at this
    have hdata := Hex.decode_eq_ok_iff.2 htext
    have hknown : Hex.decode (Blank.trim buffer) = .ok [0, 2, 171, 205] := by
      decide +kernel
    rw [hknown] at hdata
    cases hp
    cases hdata
    have hreads : (View.mk default [0, 2, 171, 205]).Reads
        [⟨0, 2, [171, 205]⟩] := by
      unfold View.Reads
      decide +kernel
    rcases hcases with ⟨es, hes, hanswer⟩ | ⟨es, error, hsplit, -⟩
    · rw [← hreads.unique hes] at hanswer
      exact hanswer.trans (by decide +kernel)
    · have hitems : es.map Except.ok ++ [Except.error error]
          = [.ok ⟨0, 2, [171, 205]⟩] := hsplit.symm.trans hreads
      have hlast := congrArg List.getLast? hitems
      simp at hlast
  · exact ⟨by decide +kernel, by decide +kernel, [0x30], [0xA9, 0x31],
      by decide +kernel, rfl, by decide +kernel⟩

end Invocation

end Tlv
