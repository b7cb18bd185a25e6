import Retrace.Command.Options
import Retrace.Wire.File
import Retrace.Wire.Printer

/-!
What the command does: it prints the operands of each file, one to a line, up to the first file that
cannot be read.
-/

set_option autoImplicit false

namespace Retrace.Command

structure Outcome where
  code : UInt8 := 0
  output : String := ""
  errors : String := ""
deriving DecidableEq, Repr

def versionText : String := "xcheck v0.3.0\n"

def line (json : Bool) (o : Wire.Operand) : String :=
  (if json then o.toJson.render else o.render) ++ "\n"

def lines (json : Bool) (os : List Wire.Operand) : String := String.join (os.map (line json))

def UsageError.outcome : UsageError → Outcome
  | displayVersion => { output := versionText }
  | displayHelp => {}
  | _ => { code := 2 }

variable {m : Type → Type} [Monad m]

def printFiles (read : String → m (Except String (List UInt8))) (json : Bool) :
    (output : String) → List String → m Outcome
  | output, [] => pure { output }
  | output, path :: paths => do
    match Wire.fileOperands path (← read path) with
    | .error e => pure { code := 1, output, errors := "xcheck: " ++ e.message ++ "\n" }
    | .ok os => printFiles read json (output ++ lines json os) paths

def run (read : String → m (Except String (List UInt8))) (args : List String) : m Outcome :=
  match Options.parse {} args with
  | .error e => pure e.outcome
  | .ok o => printFiles read o.json "" o.files

end Retrace.Command
