/-
The two commands undo each other. What encoding has written is decoded,
under the same widths, to one line for each field, which tells the tag
and the bytes that the field denotes (`run_decode_of_run_encode`). What
decoding has shown, turned into fields line by line, is encoded to the
text that was decoded, in lowercase and without the blanks around it
(`run_encode_of_run_decode`), so that the lines of a text tell its
bytes.

Both are read off what the commands answer. The bytes in the middle are
the encodings of entries: of those that the fields stand for in one
direction, and of those that were read in the other.
-/
import Tlv.Proofs.Commands
import Tlv.Proofs.Lines

namespace Tlv.Invocation

open Encoder (Stand)

variable {typeWidth lengthWidth : Int}

/-- The command `encode` has output if the widths make a policy, every
field stands for an entry that fits, and all of them have room. It is the
frames in hexadecimal. -/
theorem answer_run_encode_eq_ok_iff {capacity : Nat} {fields : List Field}
    {text : String} :
    (mk typeWidth lengthWidth (.encode capacity fields)).run.answer
        = .ok text
      ↔ ∃ p xs, Policy.ofWidths typeWidth lengthWidth = .ok p
        ∧ Stand fields xs ∧ (∀ x ∈ xs, p.Fits x)
        ∧ (p.encodeAll xs).length ≤ capacity
        ∧ text = Hex.encode (p.encodeAll xs) := by
  unfold run
  dsimp only
  cases Policy.ofWidths typeWidth lengthWidth with
  | error cause =>
      constructor
      · intro h
        cases h
      · intro ⟨p, xs, h, _⟩
        cases h
  | ok p =>
      dsimp only
      rw [Command.answer_runEncode_eq_ok_iff]
      simp

/-- The command `decode` has output if the widths make a policy under
which the text spells elements and nothing else. It is a line for each. -/
theorem answer_run_decode_eq_ok_iff {buffer out : String} :
    (mk typeWidth lengthWidth (.decode buffer)).run.answer = .ok out
      ↔ ∃ p bytes es, Policy.ofWidths typeWidth lengthWidth = .ok p
        ∧ Hex.decode (Blank.trim buffer) = .ok bytes
        ∧ (View.mk p bytes).Reads es
        ∧ out = "\n".intercalate (es.map Command.line) := by
  unfold run
  dsimp only
  cases Policy.ofWidths typeWidth lengthWidth with
  | error cause =>
      constructor
      · intro h
        cases h
      · intro ⟨p, bytes, es, h, _⟩
        cases h
  | ok p =>
      dsimp only
      rw [Command.answer_runDecode_eq_ok_iff]
      simp

-- ================================================ encoding, then decoding

/-- The line tells the tag of the field, if headers have a width for one,
and then how many bytes the field denotes and which. -/
def Tells (typeWidth : Int) (f : Field) (line : String) : Prop :=
  ∃ payload : Bytes, f.Denotes payload
    ∧ let tag := if typeWidth = 0 then 0 else f.tag.toNat
      let length := payload.length
      line = s!"type={tag} length={length} payload=" ++ Hex.encode payload

/-- The line of an element that was written for a field tells of the
field, wherever the element stands. -/
theorem tells_line_placed {f : Field} {x : Entry} (h : f.toEntry = .ok x)
    (p : Policy) (offset : Nat) :
    Tells p.typeWidth.bytes f (Command.line (p.placed offset x)) := by
  obtain ⟨htag, hdenotes⟩ := Field.toEntry_eq_ok_iff.1 h
  refine ⟨x.payload, hdenotes, ?_⟩
  have hcarried : (p.carried x).tag.toNat
      = if (p.typeWidth.bytes : Int) = 0 then 0 else f.tag.toNat := by
    rw [← htag, Policy.carried]
    by_cases hwidth : p.typeWidth.bytes = 0
    · rw [if_pos hwidth, if_pos (by omega)]
      rfl
    · rw [if_neg hwidth, if_neg (by omega)]
  dsimp only
  rw [← hcarried]
  rfl

/-- The lines of what fields stand for tell of the fields, one each. -/
theorem forall₂_tells_layout (p : Policy) {fields : List Field}
    {xs : List Entry} (h : Stand fields xs) (offset : Nat) :
    List.Forall₂ (Tells p.typeWidth.bytes) fields
      ((p.layout offset xs).map Command.line) := by
  induction h generalizing offset with
  | nil => exact List.Forall₂.nil
  | cons hx _ ih =>
      rw [Policy.layout, List.map_cons]
      exact List.Forall₂.cons (tells_line_placed hx p offset) (ih _)

/-- What encoding has written is decoded, under the same widths, to one
line for each field, in order: with its tag, if headers carry one, with
the number of the bytes that it denotes and with these bytes. The text
in the middle has two lowercase digits for each byte of the buffer that
was used. -/
theorem run_decode_of_run_encode {capacity : Nat} {fields : List Field}
    {text : String}
    (h : (mk typeWidth lengthWidth (.encode capacity fields)).run.answer
      = .ok text) :
    (∃ out,
      (mk typeWidth lengthWidth (.decode text)).run.answer = .ok out
        ∧ List.Forall₂ (Tells typeWidth) fields (Command.lines out))
      ∧ (∀ c ∈ text.toList, c ∈ "0123456789abcdef".toList)
      ∧ text.length % 2 = 0 ∧ text.length ≤ 2 * capacity := by
  obtain ⟨p, xs, hp, hxs, hfits, hroom, rfl⟩ :=
    answer_run_encode_eq_ok_iff.1 h
  have hlength := Hex.length_encode (p.encodeAll xs)
  have hanswer : (mk typeWidth lengthWidth
      (.decode (Hex.encode (p.encodeAll xs)))).run.answer
        = .ok ("\n".intercalate ((p.layout 0 xs).map Command.line)) := by
    refine answer_run_decode_eq_ok_iff.2
      ⟨p, p.encodeAll xs, _, hp, ?_, Policy.reads_encodeAll hfits, rfl⟩
    rw [Blank.trim_encode, Hex.decode_encode]
  have hdigit : ∀ n < 16,
      Nat.digitChar n ∈ "0123456789abcdef".toList := by decide
  refine ⟨⟨_, hanswer, ?_⟩, ?_, by omega, by omega⟩
  · rw [Command.lines_intercalate_map_line,
      ← Policy.typeWidth_of_ofWidths_eq_ok hp]
    exact forall₂_tells_layout p hxs 0
  · intro c hc
    obtain ⟨n, hn, rfl⟩ := Hex.mem_toList_encode hc
    exact hdigit n hn

/-- One field of each kind, with a negative number among them and a value
that holds a colon. -/
theorem run_decode_of_run_encode_each_kind :
    let fields : List Field :=
      [⟨.byte, 1, "7"⟩, ⟨.short, 2, "-2"⟩, ⟨.int, 3, "+65536"⟩,
        ⟨.bytes, 4, "0aFF"⟩, ⟨.string, 5, "é:"⟩, ⟨.empty, 70, ""⟩]
    let text :=
      "01000107020002fffe030004000100000400020aff050003c3a93a460000"
    (mk 1 2 (.encode 30 fields)).run.answer = .ok text
      ∧ ∃ out, (mk 1 2 (.decode text)).run.answer = .ok out
        ∧ List.Forall₂ (Tells 1) fields (Command.lines out) := by
  intro fields text
  have hencode : (mk 1 2 (.encode 30 fields)).run.answer = .ok text := by
    decide +kernel
  exact ⟨hencode, (run_decode_of_run_encode hencode).1⟩

-- ================================================ decoding, then encoding

/-- The fields that an output turns into are encoded to the text it was
decoded from. -/
theorem exists_fields_of_run_decode {input out : String}
    (h : (mk typeWidth lengthWidth (.decode input)).run.answer = .ok out) :
    ∃ arguments fields,
      (Command.lines out).mapM Command.argument? = some arguments
        ∧ arguments.mapM Field.parse = .ok fields
        ∧ ∀ capacity, (Blank.trim input).length ≤ 2 * capacity →
          (mk typeWidth lengthWidth (.encode capacity fields)).run.answer
            = .ok (Blank.trim input).toLower := by
  obtain ⟨p, bytes, es, hp, hbytes, hes, rfl⟩ :=
    answer_run_decode_eq_ok_iff.1 h
  obtain ⟨hfits, hall⟩ := Policy.encodeAll_of_reads hes
  obtain ⟨arguments, harguments, hparse⟩ := Command.exists_arguments es
  have hstand : Stand (es.map Element.field) (es.map Element.entry) :=
    List.forall₂_map_left_iff.2 (List.forall₂_map_right_iff.2
      (List.forall₂_same.2 fun e _ => e.toEntry_field))
  have htext := Hex.decode_eq_ok_iff.1 hbytes
  have hlength := Hex.length_encode bytes
  rw [← htext, Hex.length_toLower] at hlength
  rw [Command.lines_intercalate_map_line]
  refine ⟨arguments, _, harguments, hparse, fun capacity hcapacity => ?_⟩
  refine answer_run_encode_eq_ok_iff.2
    ⟨p, _, hp, hstand, hfits, ?_, ?_⟩
  · rw [hall]
    omega
  · rw [hall, htext]

/-- Only an empty text shows nothing. -/
theorem eq_empty_iff_of_run_decode {input out : String}
    (h : (mk typeWidth lengthWidth (.decode input)).run.answer = .ok out) :
    out = "" ↔ Blank.trim input = "" := by
  obtain ⟨p, bytes, es, -, hbytes, hes, rfl⟩ :=
    answer_run_decode_eq_ok_iff.1 h
  have htext := Hex.decode_eq_ok_iff.1 hbytes
  constructor
  · intro hout
    have hlines := Command.lines_intercalate_map_line es
    rw [hout] at hlines
    obtain rfl := List.map_eq_nil_iff.1 hlines.symm
    have hall := (Policy.encodeAll_of_reads hes).2
    rw [← hall] at htext
    have hlength := congrArg String.length htext
    rw [Hex.length_toLower] at hlength
    exact String.length_eq_zero_iff.1 hlength
  · intro hinput
    have hnil : bytes = [] := by
      rw [hinput] at hbytes
      cases hbytes
      rfl
    have hnothing : (View.mk p (p.encodeAll [])).Reads (p.layout 0 []) :=
      Policy.reads_encodeAll (List.forall_mem_nil _)
    subst hnil
    rw [hes.unique hnothing]
    rfl

/-- What decoding has shown, turned into arguments line by line, is read
as fields, and these are encoded, under the same widths and in a buffer
of at least half the length of the text, to the text itself without the
blanks around it and in lowercase. Only no text at all shows nothing. So
texts that are shown alike denote the same bytes. -/
theorem run_encode_of_run_decode {input out : String}
    (h : (mk typeWidth lengthWidth (.decode input)).run.answer = .ok out) :
    (∃ arguments fields,
      (Command.lines out).mapM Command.argument? = some arguments
        ∧ arguments.mapM Field.parse = .ok fields
        ∧ ∀ capacity, (Blank.trim input).length ≤ 2 * capacity →
          (mk typeWidth lengthWidth (.encode capacity fields)).run.answer
            = .ok (Blank.trim input).toLower)
      ∧ (out = "" ↔ Blank.trim input = "")
      ∧ ∀ input', (mk typeWidth lengthWidth (.decode input')).run.answer
            = .ok out →
          ∃ bytes, Hex.decode (Blank.trim input) = .ok bytes
            ∧ Hex.decode (Blank.trim input') = .ok bytes := by
  have hfields := exists_fields_of_run_decode h
  refine ⟨hfields, eq_empty_iff_of_run_decode h, fun input' h' => ?_⟩
  obtain ⟨arguments, fields, harguments, hparse, hencode⟩ := hfields
  obtain ⟨arguments', fields', harguments', hparse', hencode'⟩ :=
    exists_fields_of_run_decode h'
  -- the output alone tells the fields, and these tell the text
  rw [harguments] at harguments'
  cases harguments'
  rw [hparse] at hparse'
  cases hparse'
  let capacity := (Blank.trim input).length + (Blank.trim input').length
  have hanswer := hencode capacity (by omega)
  rw [hencode' capacity (by omega)] at hanswer
  obtain ⟨_, bytes, _, _, hbytes, -⟩ := answer_run_decode_eq_ok_iff.1 h
  refine ⟨bytes, hbytes, Hex.decode_eq_ok_iff.2 ?_⟩
  rw [Except.ok.inj hanswer]
  exact Hex.decode_eq_ok_iff.1 hbytes

/-- A text with blanks around it and digits of both cases, the last
element of which is empty. -/
theorem run_encode_of_run_decode_blanks_and_cases :
    let input := " 01000207fF050000\n"
    let out := "type=1 length=2 payload=07ff\ntype=5 length=0 payload="
    (mk 1 2 (.decode input)).run.answer = .ok out
      ∧ ∃ arguments fields,
        (Command.lines out).mapM Command.argument? = some arguments
          ∧ arguments.mapM Field.parse = .ok fields
          ∧ (mk 1 2 (.encode 8 fields)).run.answer
            = .ok "01000207ff050000" := by
  intro input out
  have hdecode : (mk 1 2 (.decode input)).run.answer = .ok out := by
    decide +kernel
  obtain ⟨arguments, fields, harguments, hparse, hencode⟩ :=
    (run_encode_of_run_decode hdecode).1
  refine ⟨hdecode, arguments, fields, harguments, hparse, ?_⟩
  rw [hencode 8 (by decide)]
  decide +kernel

end Tlv.Invocation
