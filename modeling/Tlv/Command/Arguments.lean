/-
A parser of command lines, the one that the program runs with.

A width is given at most once before the command and at most once behind
it. The one behind wins. Values may be attached (`-t2`, `-t=2`,
`--type-width=2`). Options and words may come in any order; behind `--`
everything is a word.

Which of several faults is reported follows from one rule: an argument
that waits to be checked is checked when the next option comes, or at
the end, and is forgotten if something unknown comes first. What waits
is an option whose value stands by itself, and a row of fields. The
options before a command wait until all behind it have been checked.
-/
import Tlv.Command.Parser

namespace Tlv.Arguments

-- ============================================================= switches

/-- What can follow a dash. -/
inductive Switch where
  | option (key : Key)
  | help
  | version
  deriving DecidableEq, Repr

namespace Level

/-- What a name behind two dashes stands for. -/
def ofLong? (level : Level) (name : String) : Option Switch :=
  match level.keys.find? (·.name = name), level, name with
  | some key, _, _ => some (.option key)
  | none, _, "help" => some .help
  | none, .top, "version" => some .version
  | none, _, _ => none

/-- What a letter behind one dash stands for. -/
def ofShort? (level : Level) (letter : Char) : Option Switch :=
  match level.keys.find? (·.letter = letter), level, letter with
  | some key, _, _ => some (.option key)
  | none, _, 'h' => some .help
  | none, .top, 'V' => some .version
  | none, _, _ => none

end Level

-- ======================================================= one argument

def isDigit (c : Char) : Bool :=
  (Decimal.digit? c).isSome

/-- Whether a text is an exponent, which is a mark with digits behind
it, or nothing at all. -/
def isExponent : List Char → Bool
  | [] => true
  | mark :: digits =>
    (mark == 'e' || mark == 'E') && !digits.isEmpty && digits.all isDigit

/-- Whether a text has the form of a number without a sign: digits,
perhaps a point and more digits, perhaps an exponent. -/
def isNumeral (cs : List Char) : Bool :=
  !(cs.takeWhile isDigit).isEmpty &&
    match cs.dropWhile isDigit with
    | '.' :: rest => isExponent (rest.dropWhile isDigit)
    | rest => isExponent rest

/-- What one argument is taken for. -/
inductive Token where
  | escape
  /-- An option, with its value if that is attached. -/
  | option (key : Key) (attached? : Option String)
  | help
  | version
  /-- A flag with a value attached. -/
  | surplus
  /-- A switch that does not exist here. -/
  | unknown
  /-- Anything else: a value or a word. -/
  | word
  deriving DecidableEq, Repr

namespace Token

/-- An argument behind two dashes. What stands behind a sign of equality
is the value. -/
def ofLong (level : Level) (cs : List Char) : Token :=
  let (name, value?) := cut '=' cs
  match level.ofLong? (String.ofList name), value? with
  | some (.option key), value? => .option key (value?.map String.ofList)
  | some .help, none => .help
  | some .version, none => .version
  | some _, some _ => .surplus
  | none, _ => .unknown

/-- A letter behind one dash, and what is attached to it. A sign of
equality between the two is dropped. -/
def ofShort (level : Level) (c : Char) (cs : List Char) : Token :=
  match level.ofShort? c, cs with
  | some (.option key), [] => .option key none
  | some (.option key), '=' :: value => .option key (some (String.ofList value))
  | some (.option key), value => .option key (some (String.ofList value))
  | some .help, _ => .help
  | some .version, _ => .version
  | none, _ => .unknown

/-- What an argument is while the option `awaiting?` has yet to get its
value. A width may be negative, so behind one a number with a dash is a
value. -/
def ofArgument (level : Level) (awaiting? : Option Key) (argument : String) : Token :=
  match argument.toList with
  | ['-', '-'] => .escape
  | '-' :: '-' :: cs => ofLong level cs
  | '-' :: c :: cs =>
    let negative := match awaiting? with
      | some .typeWidth | some .lengthWidth => isNumeral (c :: cs)
      | _ => false
    if negative then .word else ofShort level c cs
  | _ => .word

end Token

-- ============================================================ one level

/-- What has been given at a level and is yet to be checked. -/
inductive Pending where
  | nothing
  /-- An option, and its value once that has come. -/
  | option (key : Key) (value? : Option String)
  | fields (texts : List String)
  deriving DecidableEq, Repr

/-- A level after some of its arguments. -/
structure State where
  given : Given
  pending : Pending
  deriving DecidableEq, Repr

namespace State

def start : State :=
  { given := .nothing, pending := .nothing }

/-- The option that has yet to get its value. -/
def awaiting? (s : State) : Option Key :=
  match s.pending with
  | .option key none => some key
  | _ => none

/-- Checks what waits. -/
def settle (s : State) : Except Usage Given :=
  match s.pending with
  | .nothing => .ok s.given
  | .option _ none => .error .missingValue
  | .option key (some value) => s.given.set key value
  | .fields texts => s.given.addFields texts.reverse

/-- Takes an option. A value that is attached is checked at once. -/
def takeOption (s : State) (key : Key) (attached? : Option String) :
    Except Usage State := do
  let given ← s.settle
  match attached? with
  | none => return { given, pending := .option key none }
  | some value => return { given := ← given.set key value, pending := .nothing }

/-- Takes a word. Behind `encode` it joins the row of fields that waits;
behind `decode` there is one at most. -/
def takeWord (level : Level) (s : State) (text : String) : Except Usage State :=
  match level, s.pending with
  | .top, _ => .error .unknownCommand
  | .encode, .fields texts => .ok { s with pending := .fields (text :: texts) }
  | .encode, _ => do
    let given ← s.settle
    return { given, pending := .fields [text] }
  | .decode, _ =>
    if s.given.buffer?.isSome then .error .unknownArgument
    else do
      let given ← s.settle
      return { given := { given with buffer? := some text }, pending := .nothing }

/-- Takes an argument that is not two dashes. -/
def take (level : Level) (s : State) (argument : String) (token : Token) :
    Except Usage State :=
  match token with
  | .unknown => .error .unknownArgument
  | .surplus => .error .surplusValue
  | .help => do
    let _ ← s.settle
    .error .help
  | .version => do
    let _ ← s.settle
    .error .version
  | .option key attached? => s.takeOption key attached?
  | .escape | .word =>
    match s.awaiting? with
    | some key => .ok { s with pending := .option key (some argument) }
    | none => s.takeWord level argument

end State

-- ====================================================== behind a command

/-- Everything given behind a command. -/
def readLevel (level : Level) (s : State) : List String → Except Usage Given
  | [] => s.settle
  | argument :: rest =>
    match Token.ofArgument level s.awaiting? argument with
    | .escape => do
      let s' ← rest.foldlM (State.takeWord level) s
      s'.settle
    | token => do
      let s' ← s.take level argument token
      readLevel level s' rest

-- ========================================================== the whole line

/-- A name that can stand where a command is expected. -/
inductive Name where
  | encode
  | decode
  | help
  deriving DecidableEq, Repr

/-- The command of this name, by which it has to be given in full. -/
def Name.ofString? : String → Option Name
  | "encode" => some .encode
  | "decode" => some .decode
  | "help" => some .help
  | _ => none

/-- What is reported when help is asked for by name. No name has another
one below it. -/
def readHelp : List String → Usage
  | [] => .help
  | [topic] => if (Name.ofString? topic).isSome then .help else .unknownCommand
  | _ => .unknownCommand

/-- What stands behind the options in `s` at the level of a command. The
options are checked last. -/
def readBehind (level : Level) (s : State) (arguments : List String) :
    Except Usage Sides := do
  let within ← readLevel level .start arguments
  let command ← within.command level
  let above ← s.settle
  return { above, within, command }

/-- What is reported if the line ends without a command. -/
def readNoCommand (s : State) : Except Usage Sides := do
  let given ← s.settle
  if given = .nothing then .error .helpOnNothing else .error .missingCommand

/-- What is reported behind two dashes, where no command can stand. -/
def readEscaped (s : State) : List String → Except Usage Sides
  | [] => readNoCommand s
  | word :: _ =>
    if (Name.ofString? word).isSome then .error .unknownArgument
    else .error .unknownCommand

/-- Reads on after the options in `s`. -/
def readFrom (s : State) : List String → Except Usage Sides
  | [] => readNoCommand s
  | argument :: rest =>
    match s.awaiting?, Name.ofString? argument with
    | none, some .encode => readBehind .encode s rest
    | none, some .decode => readBehind .decode s rest
    | none, some .help => .error (readHelp rest)
    | _, _ =>
      match Token.ofArgument .top s.awaiting? argument with
      | .escape => readEscaped s rest
      | token => do
        let s' ← s.take .top argument token
        readFrom s' rest

/-- The parser. The width behind the command is the one that counts, then
the one before it, then the default. -/
def reader : Parser where
  level level arguments := readLevel level .start arguments
  split arguments := readFrom .start arguments
  resolve default within above := (within.or above).getD default

end Tlv.Arguments
