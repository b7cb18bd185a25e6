import Retrace.Command.Run

/-!
The command line.
-/

set_option autoImplicit false

namespace Retrace

def readFailure (e : IO.Error) : String :=
  match e with
  | .noFileOrDirectory _ code details | .inappropriateType _ code details
  | .permissionDenied _ code details =>
    details ++ " (os error " ++ toString code ++ ")"
  | e => toString e

def readFile (path : String) : IO (Except String (List UInt8)) := do
  try return .ok (← IO.FS.readBinFile path).toList
  catch e => return .error (readFailure e)

end Retrace

def main (args : List String) : IO UInt32 := do
  let outcome ← Retrace.Command.run Retrace.readFile args
  IO.print outcome.output
  IO.eprint outcome.errors
  return outcome.code.toUInt32
