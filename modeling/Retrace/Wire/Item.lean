import Retrace.Choice

/-!
Items of the encoding. An item starts with a header that holds a tag and a form; the form says what
follows: nothing, a number, or a length and as many bytes.
-/

set_option autoImplicit false

namespace Retrace.Wire

inductive Tag where
  | kind
  | index
  | yes
  | no
  | text
  | stamp
  | operand
deriving DecidableEq, Repr

namespace Tag

instance : Choice Tag where
  all := [kind, index, yes, no, text, stamp, operand]
  position
    | kind => 0 | index => 1 | yes => 2 | no => 3 | text => 4 | stamp => 5 | operand => 6
  label
    | kind => "Kind" | index => "Index" | yes => "True" | no => "False"
    | text => "String" | stamp => "TimeStamp" | operand => "TOperand"

def code : Tag → Nat
  | kind => 1 | index => 2 | yes => 3 | no => 4 | text => 5 | stamp => 6 | operand => 40

def ofCode? (code : Nat) : Option Tag := (Choice.all : List Tag).find? (·.code = code)

end Tag

inductive Form where
  | opening
  | closing
  | empty
  | number
  | bytes
deriving DecidableEq, Repr

namespace Form

instance : Choice Form where
  all := [opening, closing, empty, number, bytes]
  position
    | opening => 0 | closing => 1 | empty => 2 | number => 3 | bytes => 4
  label
    | opening => "Open" | closing => "Close" | empty => "Empty" | number => "UInt" | bytes => "Bytes"

def code : Form → Nat
  | opening => 1 | closing => 2 | empty => 3 | number => 4 | bytes => 5

def ofCode? (code : Nat) : Option Form := (Choice.all : List Form).find? (·.code = code)

end Form

inductive Kind where
  | variable
  | list
  | text
  | stamp
  | flag
deriving DecidableEq, Repr

namespace Kind

instance : Choice Kind where
  all := [«variable», list, text, stamp, flag]
  position
    | «variable» => 0 | list => 1 | text => 2 | stamp => 3 | flag => 4
  label
    | «variable» => "Variable" | list => "List" | text => "String"
    | stamp => "TimeStamp" | flag => "Boolean"

def code : Kind → Nat
  | «variable» => 1 | list => 2 | text => 3 | stamp => 4 | flag => 5

def ofCode? (code : Nat) : Option Kind := (Choice.all : List Kind).find? (·.code = code)

end Kind

/-- Seven bits to a byte, lowest first; all bytes but the last have the high bit set. -/
def varint (n : Nat) : List UInt8 :=
  if n < 128 then [n.toUInt8] else (n % 128 + 128).toUInt8 :: varint (n / 128)
termination_by n
decreasing_by omega

def headerCode (tag : Tag) (form : Form) : Nat := tag.code * 8 + form.code

def header (tag : Tag) (form : Form) : List UInt8 := varint (headerCode tag form)

def numberItem (tag : Tag) (n : Nat) : List UInt8 := header tag .number ++ varint n

def bytesItem (tag : Tag) (bs : List UInt8) : List UInt8 :=
  header tag .bytes ++ varint bs.length ++ bs

end Retrace.Wire
