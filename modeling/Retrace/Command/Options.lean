import Retrace.Choice
import Retrace.Command.Words

/-!
The options of the command line: whether to print JSON, and the files to print. Options are read by a general
library for command lines; `Options.parse` stands for it, with the rules that it documents for two options of
these kinds. Nothing that is said of the command rests on these rules: it holds for whatever options are found.
-/

set_option autoImplicit false

namespace Retrace.Command

structure Options where
  json : Bool := false
  files : List String := []
deriving DecidableEq, Repr

inductive UsageError where
  | unknownArgument
  | tooManyValues
  | argumentConflict
  | invalidValue
  | displayHelp
  | displayVersion
deriving DecidableEq, Repr

instance : Choice UsageError where
  all := [.unknownArgument, .tooManyValues, .argumentConflict, .invalidValue, .displayHelp, .displayVersion]
  position
    | .unknownArgument => 0 | .tooManyValues => 1 | .argumentConflict => 2
    | .invalidValue => 3 | .displayHelp => 4 | .displayVersion => 5
  label
    | .unknownArgument => "UnknownArgument" | .tooManyValues => "TooManyValues"
    | .argumentConflict => "ArgumentConflict" | .invalidValue => "InvalidValue"
    | .displayHelp => "DisplayHelp" | .displayVersion => "DisplayVersion"

inductive OptionsError where
  | mismatchedQuotes
  | usage (e : UsageError)
deriving DecidableEq, Repr

inductive Argument where
  | json
  | help
  | version
  /-- All further arguments are files. -/
  | onlyFiles
  | file (path : String)
  | unknown
  | overloaded
deriving DecidableEq, Repr

namespace Argument

def flag? : List Char → Option Argument
  | ['j', 's', 'o', 'n'] => some json
  | ['h', 'e', 'l', 'p'] => some help
  | ['v', 'e', 'r', 's', 'i', 'o', 'n'] => some version
  | _ => none

def ofLong (cs : List Char) : Argument :=
  match flag? (cs.takeWhile (· ≠ '=')) with
  | some a => if cs.contains '=' then overloaded else a
  | none => unknown

def ofText (s : String) : Argument :=
  match s.toList with
  | ['-', '-'] => onlyFiles
  | '-' :: '-' :: cs => ofLong cs
  | '-' :: 'h' :: _ => help
  | '-' :: 'V' :: _ => version
  | '-' :: _ :: _ => unknown
  | _ => file s

end Argument

namespace Options

/-- A file must have a name. This is noticed with the next argument that makes sense, or at the end. -/
def checkLast (o : Options) : Except UsageError Options :=
  if o.files.getLast? = some "" then .error .invalidValue else .ok o

def addFile (o : Options) (path : String) : Except UsageError Options := do
  let o ← o.checkLast
  return { o with files := o.files ++ [path] }

def addFiles (o : Options) (paths : List String) : Except UsageError Options := paths.foldlM addFile o

def collect (o : Options) : List String → Except UsageError Options
  | [] => o.checkLast
  | s :: rest =>
    match Argument.ofText s with
    | .file path => do (← o.addFile path).collect rest
    | .onlyFiles => do (← o.addFiles rest).checkLast
    | .json => do
      let o ← o.checkLast
      if o.json then .error .argumentConflict else collect { o with json := true } rest
    | .help => do
      let _ ← o.checkLast
      .error .displayHelp
    | .version => do
      let _ ← o.checkLast
      .error .displayVersion
    | .unknown => .error .unknownArgument
    | .overloaded => .error .tooManyValues

/-- Adds what the arguments say to the options given so far. -/
def parse (o : Options) (args : List String) : Except UsageError Options := do
  let given ← collect {} args
  return ⟨o.json || given.json, o.files ++ given.files⟩

def parseLine (o : Options) (line : String) : Except OptionsError Options :=
  match words line with
  | none => .error .mismatchedQuotes
  | some args => (o.parse args).mapError .usage

end Options

def OptionsError.splitMessage : String := "cannot parse argument string: MismatchedQuotes"

end Retrace.Command
