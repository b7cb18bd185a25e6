import Retrace.Wire.Decode

/-!
Files that hold a sequence of operands.
-/

set_option autoImplicit false

namespace Retrace.Wire

inductive FileError where
  | unreadable (path cause : String)
  | malformed (path : String) (cause : ParseError)
deriving DecidableEq, Repr

def FileError.message : FileError → String
  | unreadable path cause => "could not read " ++ path ++ ": " ++ cause
  | malformed path cause => "malformed operand in " ++ path ++ ": " ++ cause.message

def fileOperands (path : String) (content : Except String (List UInt8)) :
    Except FileError (List Operand) :=
  match content with
  | .error cause => .error (.unreadable path cause)
  | .ok bytes => (Operand.decodeAll bytes).mapError (.malformed path)

end Retrace.Wire
