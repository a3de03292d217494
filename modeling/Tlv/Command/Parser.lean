/-
Command lines, and what it takes to read one.

    [WIDTHS] encode [WIDTHS] [-c N] FIELD...
    [WIDTHS] decode [WIDTHS] HEX
    help [COMMAND]

where WIDTHS are `-t N` and `-l N`, or `--type-width N` and
`--length-width N`. Declared here are the options with their names and
ranges, how the values that have been given are kept, and what command
they make. Taking a line apart is the work of a parser, and a parser is a
parameter (`Parser`): what the program answers is a function of whichever
is used (`Parser.answer`).
-/
import Tlv.Command

namespace Tlv

namespace Arguments

-- ======================================================== declarations

/-- Where an argument stands: before the command, or behind it. -/
inductive Level where
  | top
  | encode
  | decode
  deriving DecidableEq, Repr

/-- The command whose arguments stand at this level. -/
def Level.name? : Level → Option String
  | .top => none
  | .encode => some "encode"
  | .decode => some "decode"

/-- An option that takes a value. -/
inductive Key where
  | typeWidth
  | lengthWidth
  | capacity
  deriving DecidableEq, Repr

namespace Key

/-- What stands behind one dash. -/
def letter : Key → Char
  | typeWidth => 't'
  | lengthWidth => 'l'
  | capacity => 'c'

/-- What stands behind two dashes. -/
def name : Key → String
  | typeWidth => "type-width"
  | lengthWidth => "length-width"
  | capacity => "capacity"

/-- What the value of the option is called. -/
def valueName : Key → String
  | typeWidth => "TYPE_WIDTH"
  | lengthWidth => "LENGTH_WIDTH"
  | capacity => "CAPACITY"

/-- The numbers that the option may be given. A width may be any number
at first, and it is for the policy to refuse it. -/
def range : Key → Decimal.Range
  | typeWidth | lengthWidth => .int64
  | capacity => .uint64

end Key

/-- The options that can be given at a level. -/
def Level.keys : Level → List Key
  | .top | .decode => [.typeWidth, .lengthWidth]
  | .encode => [.typeWidth, .lengthWidth, .capacity]

/-- A width that is not given is one byte. -/
def defaultWidth : Int := 1

/-- A buffer for fields has this many bytes if nothing else is said. -/
def defaultCapacity : Nat := 1024

end Arguments

-- ============================================================== faults

/-- Why a value cannot be read: it is no number that its option may be
given, or it is no field. -/
inductive ValueFault where
  | number (key : Arguments.Key) (fault : Decimal.Fault)
  | field (error : FieldError)
  deriving DecidableEq, Repr

namespace ValueFault

/-- The argument whose value it is. -/
def argument : ValueFault → String
  | number key _ => "--" ++ key.name ++ " <" ++ key.valueName ++ ">"
  | field _ => "<FIELDS>..."

/-- What is wrong with the value. -/
def message : ValueFault → String
  | number _ fault => fault.message
  | field error => error.message

end ValueFault

/-- Why there is nothing to run. -/
inductive Usage where
  /-- A number or a field that cannot be read. -/
  | invalidValue (text : String) (fault : ValueFault)
  | missingValue
  | surplusValue
  | repeatedOption
  | missingField
  | missingCommand
  | unknownCommand
  | unknownArgument
  | help
  | version
  /-- Nothing was given at all, so help is in order. -/
  | helpOnNothing
  deriving DecidableEq, Repr

namespace Arguments

-- ======================================================== given values

/-- What has been given at a level, and read. -/
structure Given where
  typeWidth? : Option Int
  lengthWidth? : Option Int
  capacity? : Option Nat
  fields : List Field
  buffer? : Option String
  deriving DecidableEq, Repr

namespace Given

/-- A level without arguments. -/
def nothing : Given :=
  { typeWidth? := none, lengthWidth? := none, capacity? := none, fields := [],
    buffer? := none }

/-- The number that is given for an option. -/
def number (key : Key) (text : String) : Except Usage Int :=
  (Decimal.read key.range text).mapError fun fault => .invalidValue text (.number key fault)

/-- Gives a number for an option, which must not have one yet. -/
def set (g : Given) (key : Key) (text : String) : Except Usage Given :=
  match key with
  | .typeWidth =>
    if g.typeWidth?.isSome then .error .repeatedOption
    else (number key text).map fun n => { g with typeWidth? := some n }
  | .lengthWidth =>
    if g.lengthWidth?.isSome then .error .repeatedOption
    else (number key text).map fun n => { g with lengthWidth? := some n }
  | .capacity =>
    if g.capacity?.isSome then .error .repeatedOption
    else (number key text).map fun n => { g with capacity? := some n.toNat }

/-- The field that a text spells. -/
def field (text : String) : Except Usage Field :=
  (Field.parse text).mapError fun error => .invalidValue text (.field error)

/-- Reads some fields and adds them to the others. -/
def addFields (g : Given) (texts : List String) : Except Usage Given := do
  let fields ← texts.mapM field
  return { g with fields := g.fields ++ fields }

/-- The command that a level with these values asks for. -/
def command (level : Level) (g : Given) : Except Usage Command :=
  match level, g.fields, g.buffer? with
  | .decode, _, some buffer => .ok (.decode buffer)
  | .encode, field :: fields, _ =>
    .ok (.encode (g.capacity?.getD defaultCapacity) (field :: fields))
  | _, _, _ => .error .missingField

end Given

-- ============================================================= parsers

/-- What a line comes apart into at its command. -/
structure Sides where
  /-- The values before the command. -/
  above : Given
  /-- The values behind it. -/
  within : Given
  command : Command
  deriving DecidableEq, Repr

/-- What takes lines apart. It comes from outside, so nothing is known of
it but what is assumed. -/
structure Parser where
  /-- The values among these arguments of a level. -/
  level : Level → List String → Except Usage Given
  /-- The two sides of a whole line. -/
  split : List String → Except Usage Sides
  /-- The value of an option that may stand on either side of a command,
  from its default and its values behind and before the command. -/
  resolve : Int → Option Int → Option Int → Int

namespace Parser

/-- What a command line asks for. -/
def read (p : Parser) (arguments : List String) : Except Usage Invocation :=
  (p.split arguments).map fun sides => {
    typeWidth :=
      p.resolve defaultWidth sides.within.typeWidth? sides.above.typeWidth?
    lengthWidth :=
      p.resolve defaultWidth sides.within.lengthWidth? sides.above.lengthWidth?
    command := sides.command }

/-- What becomes of a command line: the answer of the command, or why
there is nothing to run. -/
def answer (p : Parser) (arguments : List String) :
    Except Usage (Except Failure String) :=
  (p.read arguments).map fun invocation => invocation.run.answer

end Parser

end Arguments

end Tlv
