import Retrace.Expr.Operator

/-!
Arithmetic on integer constants of 128 bits. A result that does not exist is not a constant.
-/

set_option autoImplicit false

namespace Retrace.Constant

def isInRange (v : Int) : Bool := -Int.pow 2 127 ≤ v && v < Int.pow 2 127

def checked (v : Int) : Option Int := if isInRange v then some v else none

def ofTruth (b : Bool) : Int := if b then 1 else 0

def bitwise (op : BitVec 128 → BitVec 128 → BitVec 128) (l r : Int) : Int :=
  (op (.ofInt 128 l) (.ofInt 128 r)).toInt

def shiftCount? (r : Int) : Option Nat := if 0 ≤ r ∧ r < 128 then some r.toNat else none

def unary (op : UnOp) (v : Int) : Option Int :=
  match op with
  | .coerce => some v
  | .neg => checked (-v)
  | .complement => some (-v - 1)
  | .not => some (ofTruth (v == 0))

/-- Division truncates. A left shift keeps the low 128 bits, a right shift rounds down. -/
def binary (op : BinOp) (l r : Int) : Option Int :=
  match op with
  | .add => checked (l + r)
  | .sub => checked (l - r)
  | .mul => checked (l * r)
  | .div => if r = 0 then none else checked (l.tdiv r)
  | .mod => if r = 0 then none else (checked (l.tdiv r)).map fun _ => l.tmod r
  | .shiftLeft => (shiftCount? r).map fun n => (BitVec.ofInt 128 l <<< n).toInt
  | .shiftRight => (shiftCount? r).map fun n => l.shiftRight n
  | .bitAnd => some (bitwise (· &&& ·) l r)
  | .bitOr => some (bitwise (· ||| ·) l r)
  | .bitXor => some (bitwise (· ^^^ ·) l r)
  | .lt => some (ofTruth (l < r))
  | .gt => some (ofTruth (l > r))
  | .le => some (ofTruth (l ≤ r))
  | .ge => some (ofTruth (l ≥ r))
  | .eq => some (ofTruth (l == r))
  | .ne => some (ofTruth (l != r))
  | .and => some (ofTruth (l != 0 && r != 0))
  | .or => some (ofTruth (l != 0 || r != 0))
  | .min => some (min l r)
  | .max => some (max l r)
  | .pointerAdd | .pointerSub | .pointerDiff => none

end Retrace.Constant
