import Retrace.Wire.Operand

/-!
Transactions: variables and the values assigned to them.
-/

set_option autoImplicit false

namespace Retrace.Wire

structure Transaction where
  created : Nat := 0
  /-- Assignments, the latest first. -/
  assignments : List (Name × Value) := []

namespace Transaction

/-- A fresh variable; none once all names are taken. -/
def fresh? (t : Transaction) : Option (Operand × Transaction) :=
  (Name.ofNat? (t.created + 1)).map fun name => (.variable name, { t with created := t.created + 1 })

def assign (t : Transaction) (name : Name) (o : Operand) : Except Misuse Transaction :=
  match o with
  | .value v => .ok { t with assignments := (name, v) :: t.assignments }
  | .variable _ => .error .variableAssigned

def lookup? (t : Transaction) (name : Name) : Option Value := t.assignments.lookup name

/-- What an operand stands for: a variable for its value, if it has one. -/
def instantiate? (t : Transaction) : Operand → Option Operand
  | .variable name => (t.lookup? name).map .value
  | o => some o

end Transaction
end Retrace.Wire
