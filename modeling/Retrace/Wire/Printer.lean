import Retrace.Wire.Operand

/-!
Written forms of operands: for display, with the structure spelled out, and as JSON.
-/

set_option autoImplicit false

namespace Retrace.Wire

def flagText (b : Bool) : String := if b then "true" else "false"

def byteJson (b : UInt8) : Json := .ofNat b.toNat

def byteList (bs : List UInt8) : String := ", ".intercalate (bs.map fun b => toString b.toNat)

namespace Value

mutual
/-- The display form. Text that is not well-formed shows replacement characters. -/
def render : Value → String
  | list vs => "[" ++ ", ".intercalate (renderAll vs) ++ "]"
  | text [] => "null"
  | text bs => "\"" ++ String.ofList (Text.escaped (Text.decodeLossy bs)) ++ "\""
  | stamp t => toString t.toNat
  | flag b => flagText b
def renderAll : List Value → List String
  | [] => []
  | v :: vs => v.render :: renderAll vs
end

mutual
def describe : Value → String
  | list vs => "List(OperandList \x7b operands: [" ++ ", ".intercalate (describeAll vs) ++ "] \x7d)"
  | text bs => "String([" ++ byteList bs ++ "])"
  | stamp t => "TimeStamp(" ++ toString t.toNat ++ ")"
  | flag b => "Boolean(" ++ flagText b ++ ")"
def describeAll : List Value → List String
  | [] => []
  | v :: vs => v.describe :: describeAll vs
end

mutual
def toJson : Value → Json
  | list vs => .object [("List", .object [("operands", .array (toJsonAll vs))])]
  | text bs => .object [("String", .array (bs.map byteJson))]
  | stamp t => .object [("TimeStamp", .ofNat t.toNat)]
  | flag b => .object [("Boolean", .bool b)]
def toJsonAll : List Value → List Json
  | [] => []
  | v :: vs => v.toJson :: toJsonAll vs
end

end Value

namespace Operand

def render : Operand → String
  | «variable» name => "$" ++ toString name.index
  | value v => v.render

def describe : Operand → String
  | «variable» name => "Variable(" ++ toString name.index ++ ")"
  | value v => v.describe

def toJson : Operand → Json
  | «variable» name => .object [("Variable", .ofNat name.index)]
  | value v => v.toJson

end Operand
end Retrace.Wire
