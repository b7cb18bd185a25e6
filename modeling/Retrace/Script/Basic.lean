import Retrace.Fault
import Retrace.Formula.Basic
import Retrace.Text.Hex

/-!
Scripts: JSON in which expressions and formulas are written as calls of their factories, and results are
referred to by name.
-/

set_option autoImplicit false

namespace Retrace.Script

inductive Error where
  | unknownExpr (name : String)
  | unknownFormula (name : String)
  | malformed (what : String)
  | fault (f : Fault)

structure Names where
  exprs : List (String × Expr) := []
  formulas : List (String × Formula) := []

def lastName : String := "_"

def lift {α : Type} (x : Except Fault α) : Except Error α := x.mapError .fault

def need {α : Type} (what : String) (x : Option α) : Except Error α :=
  match x with
  | some a => .ok a
  | none => .error (.malformed what)

def int? : Json → Option Int
  | .number m 0 => some m
  | .string s => s.toInt?
  | _ => none

def nat? (j : Json) : Option Nat := (int? j).bind Int.toNat?

def bytes? (j : Json) : Option (List UInt8) := j.string?.bind Text.unhex?

def flag (j : Json) : Bool := j.bool?.getD false

def nat (j : Json) : Except Error Nat := need "number" (nat? j)

def data {α : Type} [JsonForm α] (what : String) (j : Json) : Except Error α :=
  need what (JsonForm.ofJson? j)

def iterate {α ε : Type} (step : α → Except ε α) : (count : Nat) → α → Except ε α
  | 0, a => .ok a
  | count + 1, a => do iterate step count (← step a)

end Retrace.Script
