/-
What stands on a command line, part by part: an option together with its
value, however the two are written, or a word. A part has a value to give
(`Given.add`).

A parser is assumed to read a line made of parts the way that parsers of
command lines are documented to (`Parser.Lawful`): one further part gives
its value besides those of the parts in front, a line falls apart at the
name of its command, and an option that may stand on either side has the
value behind the command, or the one before it, or its default. Nothing is
assumed of lines that are not made of parts. From this it follows by
induction that a level holds what its parts add to it one after the other
(`Parser.Lawful.given_eq`).
-/
import Mathlib.Data.List.Induction
import Tlv.Command.Parser
import Tlv.Proofs.Decimal

namespace Tlv.Arguments

-- ===================================================== written options

/-- How an option is written with its value, as in `-t 2`,
`--type-width 2`, `-t2`, `-t=2` and `--type-width=2`. -/
inductive Form where
  | short
  | long
  | joined
  | shortEqual
  | longEqual
  deriving DecidableEq, Repr

namespace Form

/-- Whether option and value are one argument. -/
def isAttached : Form → Bool
  | short | long => false
  | joined | shortEqual | longEqual => true

/-- The arguments that give an option this value. -/
def write (form : Form) (key : Key) (value : String) : List String :=
  match form with
  | short => ["-" ++ key.letter.toString, value]
  | long => ["--" ++ key.name, value]
  | joined => ["-" ++ key.letter.toString ++ value]
  | shortEqual => ["-" ++ key.letter.toString ++ "=" ++ value]
  | longEqual => ["--" ++ key.name ++ "=" ++ value]

/-- Digits behind a dash. -/
def IsNegative (value : String) : Prop :=
  ∃ ds, ds ≠ [] ∧ (∀ d ∈ ds, d.isDigit = true) ∧ value.toList = '-' :: ds

/-- Whether this is seen to be the value of the option: by itself it may
not look like another option, unless it is a negative width, and without
anything between them it is not empty and has no sign of equality in
front. -/
def Takes (form : Form) (key : Key) (value : String) : Prop :=
  match form with
  | short | long =>
      value.toList.head? ≠ some '-' ∨ (key ≠ .capacity ∧ IsNegative value)
  | joined => value.toList.head? ≠ none ∧ value.toList.head? ≠ some '='
  | shortEqual | longEqual => True

end Form

-- =============================================================== parts

/-- A width in decimal. -/
structure Width where
  key : Key
  form : Form
  text : String
  number : Int
  key_ne : key ≠ .capacity
  spells : Decimal.Spells .int64 text number

/-- A capacity, which need not be a number. -/
structure Capacity where
  form : Form
  text : String
  takes : form.Takes .capacity text

/-- A word that does not look like an option. -/
structure Word where
  text : String
  head?_ne : text.toList.head? ≠ some '-'

/-- What stands on a line: a width, a capacity, or a word. -/
inductive Part where
  | width (w : Width)
  | capacity (c : Capacity)
  | word (w : Word)

namespace Part

/-- The arguments that a part is written in. -/
def arguments : Part → List String
  | width w => w.form.write w.key w.text
  | capacity c => c.form.write .capacity c.text
  | word w => [w.text]

/-- Whether the part can stand here. -/
def Suits (level : Level) : Part → Prop
  | width _ => True
  | capacity _ => level = .encode
  | word _ => level ≠ .top

/-- Whether the part is a field or a buffer. -/
def isWord : Part → Bool
  | word _ => true
  | _ => false

end Part

/-- A decimal width is seen to be a value in every form. -/
theorem Width.takes (w : Width) : w.form.Takes w.key w.text := by
  obtain ⟨-, -, ds, hne, hdigits, hsign⟩ := w.spells
  have hdigit : ∀ c, c.isDigit = false → ds.head? ≠ some c := by
    intro c hc hhead
    rw [hdigits c (List.mem_of_head? hhead)] at hc
    cases hc
  have hseparate : w.text.toList.head? ≠ some '-'
      ∨ (w.key ≠ .capacity ∧ Form.IsNegative w.text) := by
    rcases hsign with ⟨htext | htext, -⟩ | ⟨htext, -⟩
    · exact Or.inl (by rw [htext]; exact hdigit '-' (by decide))
    · exact Or.inl (by rw [htext]; simp)
    · exact Or.inr ⟨w.key_ne, ds, hne, hdigits, htext⟩
  have hjoined : w.text.toList.head? ≠ none
      ∧ w.text.toList.head? ≠ some '=' := by
    rcases hsign with ⟨htext | htext, -⟩ | ⟨htext, -⟩
    · rw [htext]
      exact ⟨by simpa using hne, hdigit '=' (by decide)⟩
    · rw [htext]
      simp
    · rw [htext]
      simp
  unfold Form.Takes
  cases w.form with
  | short => exact hseparate
  | long => exact hseparate
  | joined => exact hjoined
  | shortEqual => trivial
  | longEqual => trivial

/-- Parts that can stand at a level together: each of them can, and a
buffer is given once at most. -/
structure Row (level : Level) (parts : List Part) : Prop where
  suits : ∀ part ∈ parts, part.Suits level
  countP_isWord_le : level = .decode → parts.countP Part.isWord ≤ 1

/-- Parts in front of others can stand there without them. -/
theorem Row.front {level : Level} {parts parts' : List Part}
    (h : Row level (parts ++ parts')) : Row level parts where
  suits part hpart := h.suits part (List.mem_append_left parts' hpart)
  countP_isWord_le hlevel := by
    have hle := h.countP_isWord_le hlevel
    rw [List.countP_append] at hle
    exact Nat.le_of_add_right_le hle

/-- What a level holds with one part more. A word is a field or the
buffer. -/
def Given.add (level : Level) (g : Given) : Part → Except Usage Given
  | .width w => g.set w.key w.text
  | .capacity c => g.set .capacity c.text
  | .word w =>
    match level with
    | .decode => .ok { g with buffer? := some w.text }
    | _ => g.addFields [w.text]

/-- Fields are added one row behind the other. -/
theorem Given.addFields_append (g : Given) (texts texts' : List String) :
    g.addFields (texts ++ texts')
      = g.addFields texts >>= fun g' => g'.addFields texts' := by
  unfold addFields
  simp only [List.mapM_append, bind_assoc, pure_bind, List.append_assoc]

-- ============================================================= parsers

namespace Parser

/-- What a parser finds given by these parts of a level. -/
def given (p : Parser) (level : Level) (parts : List Part) :
    Except Usage Given :=
  p.level level (parts.flatMap Part.arguments)

/-- What a parser is documented to do with the parts of a line. They are
taken from left to right, and the first that cannot be read ends it. -/
structure Lawful (p : Parser) : Prop where
  /-- No argument gives nothing. -/
  given_nil (level : Level) : p.given level [] = .ok .nothing
  /-- A width can be given behind the other parts of a level, in each of
  its forms and as a negative number. Its value is read as a number of its
  range, and a second one for the same width is refused. -/
  given_width {level : Level} {parts : List Part} {w : Width}
    (h : Row level (parts ++ [.width w])) :
    p.given level (parts ++ [.width w])
      = p.given level parts >>= fun g => g.set w.key w.text
  /-- So can a capacity, at the level of `encode`. -/
  given_capacity {parts : List Part} {c : Capacity}
    (h : Row .encode (parts ++ [.capacity c])) :
    p.given .encode (parts ++ [.capacity c])
      = p.given .encode parts >>= fun g => g.set .capacity c.text
  /-- A word behind `encode` is read as a field and kept behind the fields
  that are there. -/
  given_field {parts : List Part} {w : Word}
    (h : Row .encode (parts ++ [.word w])) :
    p.given .encode (parts ++ [.word w])
      = p.given .encode parts >>= fun g => g.addFields [w.text]
  /-- The word behind `decode` is kept as it is. -/
  given_buffer {parts : List Part} {w : Word}
    (h : Row .decode (parts ++ [.word w])) :
    p.given .decode (parts ++ [.word w])
      = (p.given .decode parts).map fun g => { g with buffer? := some w.text }
  /-- What stands behind the name of a command belongs to the command, and
  has to be all that the command needs. -/
  split_line {level : Level} {name : String} {above behind : List Part}
    {g : Given} (hname : level.name? = some name) (habove : Row .top above)
    (hbehind : Row level behind) (h : p.given .top above = .ok g) :
    p.split (above.flatMap Part.arguments
        ++ name :: behind.flatMap Part.arguments) = do
      let within ← p.given level behind
      let command ← within.command level
      return { above := g, within, command }
  /-- A value behind the command is the one that counts. -/
  resolve_within (default n : Int) (above? : Option Int) :
    p.resolve default (some n) above? = n
  /-- Without it, the value before the command does. -/
  resolve_above (default n : Int) : p.resolve default none (some n) = n
  /-- What is not given has its default. -/
  resolve_neither (default : Int) : p.resolve default none none = default

namespace Lawful

variable {p : Parser} (hp : p.Lawful) {level : Level} {parts : List Part}
  {part : Part}

include hp

/-- One part more adds what it has to give, whichever it is. -/
theorem given_snoc (h : Row level (parts ++ [part])) :
    p.given level (parts ++ [part])
      = p.given level parts >>= fun g => g.add level part := by
  cases part with
  | width w => exact hp.given_width h
  | capacity c =>
      have hlevel : level = .encode := h.suits (.capacity c) (by simp)
      subst hlevel
      exact hp.given_capacity h
  | word w =>
      have hlevel : level ≠ .top := h.suits (.word w) (by simp)
      cases level with
      | top => exact absurd rfl hlevel
      | encode => exact hp.given_field h
      | decode =>
          rw [hp.given_buffer h]
          cases p.given .decode parts <;> rfl

/-- A level holds what its parts add to it one after the other. -/
theorem given_eq (h : Row level parts) :
    p.given level parts = parts.foldlM (Given.add level) .nothing := by
  induction parts using List.reverseRecOn with
  | nil => exact hp.given_nil level
  | append_singleton parts part ih =>
      rw [hp.given_snoc h, ih h.front, List.foldlM_append]
      exact bind_congr fun g => (bind_pure (g.add level part)).symm

end Lawful

end Parser

end Tlv.Arguments
