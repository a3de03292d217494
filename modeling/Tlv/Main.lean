/-
The program: reads the command line, runs the command and prints its
output, or says on the standard error stream why there is none.
-/
import Tlv.Command.Arguments

namespace Tlv

/-- What to say about a command line that cannot be run. -/
def Usage.message : Usage → String
  | invalidValue text fault =>
    "invalid value '" ++ text ++ "' for '" ++ fault.argument ++ "': " ++ fault.message
  | missingValue => "an option lacks its value"
  | surplusValue => "a flag takes no value"
  | repeatedOption => "an option is given twice"
  | missingField => "the command lacks an argument"
  | missingCommand => "there is no command"
  | unknownCommand => "there is no such command"
  | unknownArgument => "there is no such argument"
  | help | helpOnNothing =>
    "usage: tlv [-t N] [-l N] encode [-c N] FIELD...\n"
      ++ "       tlv [-t N] [-l N] decode HEX"
  | version => "tlv 0.1.0"

/-- Whether the message was asked for. -/
def Usage.isAnswer : Usage → Bool
  | help | version => true
  | _ => false

end Tlv

/-- Output goes to the standard output, and so does help. All else goes to
the standard error stream, where the status tells a line that cannot be
run (2) from a command that fails (1). -/
def main (arguments : List String) : IO UInt32 := do
  match Tlv.Arguments.reader.answer arguments with
  | .error usage =>
    if usage.isAnswer then
      IO.println usage.message
      return 0
    else
      IO.eprintln usage.message
      return 2
  | .ok (.ok output) =>
    IO.println output
    return 0
  | .ok (.error failure) =>
    IO.eprintln failure.message
    return 1
