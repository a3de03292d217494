/-
The two readers of text, against each other and against the writer. All
bytes are those of some text and then, unless they end there, bytes that
begin with no character (`exists_text`). The strict reader answers the
text or stops there (`decode_encode_append`, `decodeFrom_cons`). The
lossy reader goes on, and though it takes one byte at a time it replaces
just those bytes that the strict reader blames (`lossy_of_invalid`,
`lossy_of_incomplete`).

So the readers agree on every payload: on its text, if it has one, and
otherwise on how far it has one and on what follows
(`Element.texts_agree`).
-/
import Tlv.Element
import Tlv.Proofs.Characters
import Tlv.Proofs.Outcome

namespace Tlv

namespace Utf8

-- ====================================================== strict reading

theorem decodeFrom_cons (index : Nat) (read : List Char) (b : UInt8)
    (bytes : Bytes) :
    decodeFrom index read (b :: bytes)
      = match front b bytes with
        | .scalar c size rest => decodeFrom (index + size) (c :: read) rest
        | .invalid length => .error (.invalid index length)
        | .incomplete => .error (.incomplete index) := by
  rw [decodeFrom]
  split
  · next h => simp only [h]
  · next h => simp only [h]
  · next h => simp only [h]

/-- A text is read, and reading goes on behind it. -/
theorem decodeFrom_encode_append (index : Nat) (read : List Char)
    (text : String) (tail : Bytes) :
    decodeFrom index read (encode text ++ tail)
      = decodeFrom (index + (encode text).length)
          (text.toList.reverse ++ read) tail := by
  rw [encode_eq_flatMap]
  induction text.toList generalizing index read with
  | nil => simp
  | cons c cs ih =>
      obtain ⟨b, bytes, hbytes, hfront⟩ := front_utf8EncodeChar_append c
        (cs.flatMap String.utf8EncodeChar ++ tail)
      rw [List.flatMap_cons, List.length_append, List.append_assoc]
      conv_lhs => rw [hbytes, List.cons_append, decodeFrom_cons, hfront]
      dsimp only
      rw [ih, List.reverse_cons, List.append_assoc, List.singleton_append,
        Nat.add_assoc]

/-- Behind a text the reader goes on from its end. -/
theorem decode_encode_append (text : String) (tail : Bytes) :
    decode (encode text ++ tail)
      = decodeFrom (encode text).length text.toList.reverse tail := by
  rw [decode, decodeFrom_encode_append, Nat.zero_add, List.append_nil]

/-- A text is read back from its bytes. -/
theorem decode_encode (text : String) :
    decode (encode text) = .ok text := by
  have h := decode_encode_append text []
  rw [List.append_nil, decodeFrom, List.reverse_reverse,
    String.ofList_toList] at h
  exact h

/-- Behind a text, bytes that belong to a longer one begin with a
character. -/
theorem exists_front_eq_scalar {text text' : String} {b : UInt8}
    {rest : Bytes} (h : encode text ++ b :: rest = encode text') :
    ∃ c m rest', front b rest = .scalar c m rest' := by
  have hdecode := decode_encode_append text (b :: rest)
  rw [h, decode_encode, decodeFrom_cons] at hdecode
  cases hfront : front b rest with
  | scalar c m rest' => exact ⟨c, m, rest', rfl⟩
  | invalid m =>
      rw [hfront] at hdecode
      cases hdecode
  | incomplete =>
      rw [hfront] at hdecode
      cases hdecode

-- ============================================================ all bytes

/-- All bytes are those of a text and then, unless they end there, bytes
that begin with no character. -/
theorem exists_text (bytes : Bytes) :
    ∃ text, bytes = encode text
      ∨ ∃ b rest, bytes = encode text ++ b :: rest
        ∧ (front b rest = .incomplete
          ∨ ∃ m, front b rest = .invalid m) := by
  -- on the size, since a character is taken off the front as a whole
  induction hn : bytes.length using Nat.strongRecOn generalizing bytes with
  | ind n ih =>
      cases bytes with
      | nil => exact ⟨"", Or.inl rfl⟩
      | cons b bytes =>
          cases hfront : front b bytes with
          | incomplete =>
              exact ⟨"", Or.inr ⟨b, bytes, rfl, Or.inl hfront⟩⟩
          | invalid m =>
              exact ⟨"", Or.inr ⟨b, bytes, rfl, Or.inr ⟨m, hfront⟩⟩⟩
          | scalar c m rest =>
              have hlt := length_of_front_eq_scalar hfront
              have hbytes := (of_front_eq_scalar hfront).1
              have hc : String.utf8EncodeChar c
                  = encode (String.ofList [c]) := by
                rw [encode_eq_flatMap, String.toList_ofList]
                exact (List.flatMap_singleton ..).symm
              obtain ⟨text, htext⟩ := ih rest.length (by omega) rest rfl
              refine ⟨String.ofList [c] ++ text, ?_⟩
              rw [hbytes, hc, encode_append]
              rcases htext with rfl | ⟨b', rest', rfl, hstuck⟩
              · exact Or.inl rfl
              · exact Or.inr ⟨b', rest', by rw [List.append_assoc], hstuck⟩

/-- Bytes are read as a text if they are the bytes of that text. -/
theorem decode_eq_ok_iff {bytes : Bytes} {text : String} :
    decode bytes = .ok text ↔ bytes = encode text := by
  constructor
  · intro h
    obtain ⟨text', htext⟩ := exists_text bytes
    rcases htext with rfl | ⟨b, rest, rfl, hstuck⟩
    · rw [decode_encode] at h
      cases h
      rfl
    · rw [decode_encode_append, decodeFrom_cons] at h
      rcases hstuck with hfront | ⟨m, hfront⟩
      · rw [hfront] at h
        cases h
      · rw [hfront] at h
        cases h
  · intro h
    rw [h]
    exact decode_encode text

/-- The first `index` bytes are those of this text, and no more of them
are those of any. -/
def LongestText (bytes : Bytes) (index : Nat) (text : String) : Prop :=
  index ≤ bytes.length ∧ bytes.take index = encode text
    ∧ ∀ size text', bytes.take size = encode text' → size ≤ index

/-- With more bytes behind them, they are those of a text. -/
def Completable (bytes : Bytes) : Prop :=
  ∃ z text, z ≠ [] ∧ bytes ++ z = encode text

section Stuck

variable {text : String} {b : UInt8} {rest : Bytes}

/-- A text in front is the longest if no character follows it. -/
theorem longestText_of_stuck
    (h : front b rest = .incomplete ∨ ∃ m, front b rest = .invalid m) :
    LongestText (encode text ++ b :: rest) (encode text).length text := by
  refine ⟨?_, List.take_left, fun size text' htake => ?_⟩
  · rw [List.length_append]
    exact Nat.le_add_right ..
  -- a longer one would have a character where none stands
  by_contra hlt
  obtain ⟨k, rfl⟩ := Nat.exists_eq_add_of_lt (Nat.lt_of_not_le hlt)
  rw [Nat.add_assoc, List.take_length_add_append, List.take_succ_cons]
    at htake
  obtain ⟨c, m, rest', hfront⟩ := exists_front_eq_scalar htake
  have hwhole := front_append (by rw [hfront]; simp) (rest.drop k)
  rw [List.take_append_drop, hfront] at hwhole
  rcases h with h | ⟨m', h⟩
  · rw [h] at hwhole
    cases hwhole
  · rw [h] at hwhole
    cases hwhole

/-- Bytes that break off inside of a character can be completed. -/
theorem completable_of_incomplete (h : front b rest = .incomplete) :
    Completable (encode text ++ b :: rest) := by
  obtain ⟨z, c, hz, hbytes⟩ := exists_completion h
  refine ⟨z, text ++ String.ofList [c], hz, ?_⟩
  rw [List.append_assoc, hbytes, encode_append,
    encode_eq_flatMap (String.ofList [c]), String.toList_ofList]
  exact congrArg _ (List.flatMap_singleton ..).symm

/-- Where bytes have ruled every character out, nothing helps. -/
theorem not_completable_of_invalid {m : Nat}
    (h : front b rest = .invalid m) :
    ¬ Completable (encode text ++ b :: rest) := by
  intro ⟨z, text', _, hbytes⟩
  rw [List.append_assoc, List.cons_append] at hbytes
  obtain ⟨c, m', rest', hfront⟩ := exists_front_eq_scalar hbytes
  rw [front_append (by rw [h]; simp), h] at hfront
  cases hfront

end Stuck

-- ======================================================= lossy reading

namespace Reader

/-- The reader with other characters in front of its own. -/
def behind (before : List Char) (r : Reader) : Reader :=
  { r with read := r.read ++ before.reverse }

/-- What has been written does not matter to how the next byte is
taken. -/
theorem push_behind (before : List Char) (r : Reader) (b : UInt8) :
    (r.behind before).push b = (r.push b).behind before := by
  obtain ⟨expect?, read⟩ := r
  have hbegin : ∀ read : List Char,
      begin (read ++ before.reverse) b = (begin read b).behind before := by
    intro read
    unfold begin behind
    split
    · rfl
    · split <;> rfl
  unfold push
  cases expect? with
  | none => exact hbegin read
  | some e =>
      dsimp only [behind]
      split
      · split <;> rfl
      · exact hbegin (replacement :: read)

/-- What has been read before makes no difference to what is read. -/
theorem finish_foldl_push_behind (before : List Char) (r : Reader)
    (bytes : Bytes) :
    (bytes.foldl push (r.behind before)).finish
      = before ++ (bytes.foldl push r).finish := by
  induction bytes generalizing r with
  | nil =>
      obtain ⟨expect?, read⟩ := r
      cases expect? <;> simp [behind, finish]
  | cons b bytes ih =>
      rw [List.foldl_cons, List.foldl_cons, push_behind, ih]

end Reader

open Reader (push)

/-- Inside of a character, the lossy reader does what stands there tells
it to. -/
theorem foldl_push_frontAfter (e : Expect) (size : Nat) (read : List Char)
    (bytes : Bytes) :
    match frontAfter e size bytes with
    | .scalar c _ rest =>
        bytes.foldl push ⟨some e, read⟩ = rest.foldl push ⟨none, c :: read⟩
    | .invalid m =>
        bytes.foldl push ⟨some e, read⟩
          = (bytes.drop (m - size)).foldl push ⟨none, replacement :: read⟩
    | .incomplete =>
        (bytes.foldl push ⟨some e, read⟩).finish
          = (replacement :: read).reverse := by
  fun_induction frontAfter e size bytes with
  | case1 => rfl
  | case2 e size b rest haccepts hmore =>
      dsimp only
      rw [List.foldl_cons, push]
      simp only [haccepts, if_true, hmore]
  -- a byte that is accepted and not the last: the reader waits for more
  | case3 e size b rest haccepts more hmore ih =>
      have hpush : push ⟨some e, read⟩ b
          = ⟨some ⟨0x80, 0xBF, more, e.bitsWith b⟩, read⟩ := by
        simp only [push, haccepts, if_true, hmore]
      rw [List.foldl_cons, hpush]
      split
      · next h =>
        rw [h] at ih
        exact ih
      · next m h =>
        rw [h] at ih
        have := (length_of_frontAfter_eq_invalid h).1
        have hm : m - size = m - (size + 1) + 1 := by omega
        rw [hm, List.drop_succ_cons]
        exact ih
      · next h =>
        rw [h] at ih
        exact ih
  -- a byte that is refused is read again, as one that may begin a character
  | case4 e size b rest hrefuses =>
      dsimp only
      rw [Nat.sub_self, List.drop_zero, List.foldl_cons, List.foldl_cons,
        push]
      simp only [hrefuses]
      rfl

/-- And so it does where a character begins. -/
theorem foldl_push_front (read : List Char) (b : UInt8) (bytes : Bytes) :
    match front b bytes with
    | .scalar c _ rest =>
        (b :: bytes).foldl push ⟨none, read⟩
          = rest.foldl push ⟨none, c :: read⟩
    | .invalid m =>
        (b :: bytes).foldl push ⟨none, read⟩
          = ((b :: bytes).drop m).foldl push ⟨none, replacement :: read⟩
    | .incomplete =>
        ((b :: bytes).foldl push ⟨none, read⟩).finish
          = (replacement :: read).reverse := by
  rw [List.foldl_cons, push, front]
  dsimp only
  unfold Reader.begin
  by_cases hb : b < 0x80
  · rw [if_pos hb, if_pos hb]
  rw [if_neg hb, if_neg hb]
  cases he : Expect.ofLead? b with
  | none => rfl
  | some e =>
      have hafter := foldl_push_frontAfter e 1 read bytes
      dsimp only
      split
      · next h =>
        rw [h] at hafter
        exact hafter
      · next m h =>
        rw [h] at hafter
        have hm : m = m - 1 + 1 := by
          have := (length_of_frontAfter_eq_invalid h).1
          omega
        rw [hm, List.drop_succ_cons]
        exact hafter
      · next h =>
        rw [h] at hafter
        exact hafter

/-- What is read behind other characters. -/
theorem finish_foldl_push (before : List Char) (bytes : Bytes) :
    (bytes.foldl push ⟨none, before.reverse⟩).finish
      = before ++ (lossy bytes).toList := by
  have h := Reader.finish_foldl_push_behind before ⟨none, []⟩ bytes
  rw [Reader.behind, List.nil_append] at h
  rw [h, lossy, String.toList_ofList]

/-- A text is read, and reading goes on behind it. -/
theorem lossy_encode_append (text : String) (tail : Bytes) :
    lossy (encode text ++ tail) = text ++ lossy tail := by
  apply String.toList_inj.1
  rw [encode_eq_flatMap, String.toList_append]
  induction text.toList with
  | nil => rfl
  | cons c cs ih =>
      obtain ⟨b, bytes, hbytes, hfront⟩ := front_utf8EncodeChar_append c
        (cs.flatMap String.utf8EncodeChar ++ tail)
      have hread := foldl_push_front [] b
        (bytes ++ (cs.flatMap String.utf8EncodeChar ++ tail))
      rw [hfront] at hread
      rw [List.flatMap_cons, List.append_assoc, hbytes, List.cons_append,
        lossy, String.toList_ofList, hread]
      exact (finish_foldl_push [c] _).trans (congrArg ([c] ++ ·) ih)

/-- Bytes that rule a character out go with one U+FFFD. -/
theorem lossy_of_invalid {b : UInt8} {m : Nat} {rest : Bytes}
    (h : front b rest = .invalid m) :
    lossy (b :: rest) = "\uFFFD" ++ lossy ((b :: rest).drop m) := by
  have hread := foldl_push_front [] b rest
  rw [h] at hread
  apply String.toList_inj.1
  rw [String.toList_append, lossy, String.toList_ofList, hread]
  exact finish_foldl_push [replacement] _

/-- Bytes that break off inside of a character go with one. -/
theorem lossy_of_incomplete {b : UInt8} {rest : Bytes}
    (h : front b rest = .incomplete) : lossy (b :: rest) = "\uFFFD" := by
  have hread := foldl_push_front [] b rest
  rw [h] at hread
  rw [lossy, hread]
  rfl

end Utf8

namespace Element

open Utf8 (LongestText Completable)

-- ============================================================ payloads

/-- A payload is a text if it is the bytes of it. -/
theorem text_eq_ok_iff {x : Element} {text : String} :
    x.text = .ok text ↔ x.payload = Utf8.encode text := by
  rw [Element.text, mapError_eq_ok_iff, Utf8.decode_eq_ok_iff]

theorem lossyText_of_payload_eq {x : Element} {text : String}
    (h : x.payload = Utf8.encode text) : x.lossyText = text := by
  have hread := Utf8.lossy_encode_append text []
  rw [List.append_nil] at hread
  rw [lossyText, h, hread]
  exact String.append_empty

/-- The two readings of a payload as text agree. It is read as a text if
its bytes are those of the text, and then lossy reading gives the text
too. Otherwise it is read up to where its longest part ends that is a
text. What stands there may have broken off, which is so if some bytes
behind the payload would make it a text: then the rest goes with one
U+FFFD. Or one to three bytes are to blame, and these go with one
U+FFFD, behind which lossy reading begins anew. -/
theorem texts_agree (x : Element) :
    let bytes := x.payload
    (∀ text, x.text = .ok text ↔ bytes = Utf8.encode text)
      ∧ (∀ text, x.text = .ok text → x.lossyText = text)
      ∧ ∀ error, x.text = .error error →
        ∃ fault i text, error = .invalidUtf8 fault
          ∧ LongestText bytes i text
          ∧ ((fault = .incomplete i ∧ Completable bytes
              ∧ x.lossyText = text ++ "\uFFFD")
            ∨ ∃ n, fault = .invalid i n ∧ ¬ Completable bytes
              ∧ 1 ≤ n ∧ n ≤ 3 ∧ i + n ≤ bytes.length
              ∧ x.lossyText = text ++ "\uFFFD"
                ++ lossyText { x with payload := bytes.drop (i + n) }) := by
  intro bytes
  refine ⟨fun _ => text_eq_ok_iff,
    fun _ h => lossyText_of_payload_eq (text_eq_ok_iff.1 h), ?_⟩
  intro error herror
  obtain ⟨text, hwhole | ⟨b, rest, hbytes, hstuck⟩⟩ :=
    Utf8.exists_text bytes
  · rw [text_eq_ok_iff.2 hwhole] at herror
    cases herror
  have hdecode := Utf8.decode_encode_append text (b :: rest)
  have hlossy := Utf8.lossy_encode_append text (b :: rest)
  have hlongest : LongestText (Utf8.encode text ++ b :: rest)
      (Utf8.encode text).length text := Utf8.longestText_of_stuck hstuck
  rw [← hbytes] at hdecode hlossy hlongest
  rw [Utf8.decodeFrom_cons] at hdecode
  -- behind the longest text both readers are stuck at the same byte
  rcases hstuck with hfront | ⟨n, hfront⟩
  · rw [hfront] at hdecode
    rw [Element.text, hdecode] at herror
    cases herror
    refine ⟨_, _, text, rfl, hlongest, Or.inl ⟨rfl, ?_, ?_⟩⟩
    · rw [hbytes]
      exact Utf8.completable_of_incomplete hfront
    · rw [lossyText, hlossy, Utf8.lossy_of_incomplete hfront]
  · rw [hfront] at hdecode
    rw [Element.text, hdecode] at herror
    cases herror
    obtain ⟨hpos, hle, hlength⟩ := Utf8.length_of_front_eq_invalid hfront
    refine ⟨_, _, text, rfl, hlongest,
      Or.inr ⟨n, rfl, ?_, hpos, hle, ?_, ?_⟩⟩
    · rw [hbytes]
      exact Utf8.not_completable_of_invalid hfront
    · rw [hbytes, List.length_append]
      omega
    · rw [lossyText, hlossy, Utf8.lossy_of_invalid hfront, lossyText,
        String.append_assoc, hbytes, List.drop_length_add_append]

/-- Two bytes of a character of three that another character cuts off,
and behind that two bytes of one of four, which end the payload. -/
theorem texts_agree_cut_off_twice :
    let x : Element := ⟨0, 2, [0x61, 0xE2, 0x82, 0x62, 0xF0, 0x9F]⟩
    let y : Element := ⟨0, 2, [0x62, 0xF0, 0x9F]⟩
    x.text = .error (.invalidUtf8 (.invalid 1 2))
      ∧ x.lossyText = "a\uFFFD" ++ y.lossyText
      ∧ y.text = .error (.invalidUtf8 (.incomplete 1))
      ∧ y.lossyText = "b\uFFFD" := by
  intro x y
  have hx : x.text = .error (.invalidUtf8 (.invalid 1 2)) := by
    decide +kernel
  have hy : y.text = .error (.invalidUtf8 (.incomplete 1)) := by
    decide +kernel
  obtain ⟨fault, i, text, hfault, ⟨-, htext, -⟩, hcases⟩ :=
    (texts_agree x).2.2 _ hx
  obtain ⟨fault', j, text', hfault', ⟨-, htext', -⟩, hcases'⟩ :=
    (texts_agree y).2.2 _ hy
  cases hfault
  cases hfault'
  refine ⟨hx, ?_, hy, ?_⟩
  · rcases hcases with ⟨h, -⟩ | ⟨n, h, -, -, -, -, hlossy⟩
    · cases h
    · cases h
      have ha : Utf8.decode (x.payload.take 1) = .ok "a" := by
        decide +kernel
      rw [Utf8.decode_eq_ok_iff.2 htext] at ha
      cases ha
      exact hlossy
  · rcases hcases' with ⟨h, -, hlossy⟩ | ⟨n, h, -⟩
    · cases h
      have hb : Utf8.decode (y.payload.take 1) = .ok "b" := by
        decide +kernel
      rw [Utf8.decode_eq_ok_iff.2 htext'] at hb
      cases hb
      exact hlossy
    · cases h

end Element

end Tlv
