/-
Runs of an encoder: any number of calls one after the other, of which
some are refused. A refused call leaves the encoder as it was, so a run
goes on after it. Besides writing, a caller may take the storage out of
the encoder and start over on it, under the same policy or another one;
what was written stays in the storage and is then written over.
-/
import Tlv.Encoder

namespace Tlv.Encoder

/-- One call in a run. -/
inductive Call where
  | push (tag : UInt32) (value : Value)
  /-- Start over on the same storage, with these widths. -/
  | rewrap (typeWidth lengthWidth : Int)
  deriving DecidableEq, Repr

/-- The encoder after a call, and what became of the call. -/
def perform (e : Encoder) : Call → Logged (Encoder × Except Error Unit)
  | .push tag value =>
    match e.push tag value.payload with
    | .ok e' => return (e', .ok ())
    | .error error => return (e, .error (.encode error))
  | .rewrap typeWidth lengthWidth =>
    match Policy.ofWidths typeWidth lengthWidth with
    | .ok policy => do
      let e' ← wrap policy e.storage
      return (e', .ok ())
    | .error error => return (e, .error (.policy error))

/-- The encoder after some calls, and what became of each. -/
def run (e : Encoder) : List Call → Logged (Encoder × List (Except Error Unit))
  | [] => return (e, [])
  | call :: calls => do
    let (e', outcome) ← e.perform call
    let (e'', outcomes) ← e'.run calls
    return (e'', outcome :: outcomes)

end Tlv.Encoder
