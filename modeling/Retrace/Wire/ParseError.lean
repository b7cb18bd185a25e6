import Retrace.Wire.Item

/-!
Why a read failed. Positions are byte offsets into the input.
-/

set_option autoImplicit false

namespace Retrace.Wire

inductive ParseError where
  | unexpectedEnd (position : Nat)
  | malformedVarint (position : Nat)
  | unknownTag (code position : Nat)
  | unknownForm (code position : Nat)
  | unexpectedItem (tag : Tag) (form : Form) (foundTag : Tag) (foundForm : Form) (position : Nat)
  | duplicateTag (tag : Tag) (position : Nat)
  /-- A payload for another kind, or before any kind. -/
  | misplacedTag (tag : Tag) (kind : Option Kind) (position : Nat)
  | unknownKind (code position : Nat)
  | missingPayload (kind : Option Kind) (missing : Tag) (position : Nat)
  | variableInList (position : Nat)
  | outOfRange (value position : Nat)
  | tooDeep (limit position : Nat)
  | trailingBytes (count position : Nat)
deriving DecidableEq, Repr

namespace ParseError

def position : ParseError → Nat
  | unexpectedEnd p | malformedVarint p | unknownTag _ p | unknownForm _ p => p
  | unexpectedItem _ _ _ _ p | duplicateTag _ p | misplacedTag _ _ p | unknownKind _ p => p
  | missingPayload _ _ p | variableInList p | outOfRange _ p | tooDeep _ p | trailingBytes _ p => p

def label : ParseError → String
  | unexpectedEnd _ => "UnexpectedEnd"
  | malformedVarint _ => "MalformedVarint"
  | unknownTag .. => "UnknownTag"
  | unknownForm .. => "UnknownForm"
  | unexpectedItem .. => "UnexpectedItem"
  | duplicateTag .. => "DuplicateTag"
  | misplacedTag .. => "MisplacedTag"
  | unknownKind .. => "UnknownKind"
  | missingPayload .. => "MissingPayload"
  | variableInList _ => "VariableInList"
  | outOfRange .. => "ValueOutOfRange"
  | tooDeep .. => "TooDeep"
  | trailingBytes .. => "TrailingBytes"

def atByte (position : Nat) : String := " at byte " ++ toString position

def message : ParseError → String
  | unexpectedEnd p => "unexpected end of input" ++ atByte p
  | malformedVarint p => "malformed varint" ++ atByte p
  | unknownTag code p => "unknown tag " ++ toString code ++ atByte p
  | unknownForm code p => "unknown form " ++ toString code ++ atByte p
  | unexpectedItem tag form foundTag foundForm p =>
    "expected " ++ Choice.label form ++ " " ++ Choice.label tag ++ ", found " ++
      Choice.label foundForm ++ " " ++ Choice.label foundTag ++ atByte p
  | duplicateTag tag p => "duplicate " ++ Choice.label tag ++ atByte p
  | misplacedTag tag kind p =>
    let kind := match kind with
      | some k => "Some(" ++ Choice.label k ++ ")"
      | none => "None"
    Choice.label tag ++ " is out of place for operand kind " ++ kind ++ atByte p
  | unknownKind code p => "unknown operand kind " ++ toString code ++ atByte p
  | missingPayload kind missing p =>
    let kind := match kind with
      | some k => Choice.label k
      | none => "None"
    "operand of kind " ++ kind ++ " ending" ++ atByte p ++ " has no " ++ Choice.label missing
  | variableInList p => "a list holds a variable" ++ atByte p
  | outOfRange value p => "value " ++ toString value ++ " out of range" ++ atByte p
  | tooDeep limit p => "operands nested deeper than " ++ toString limit ++ atByte p
  | trailingBytes count p => toString count ++ " trailing bytes" ++ atByte p

end ParseError
end Retrace.Wire
