import Retrace.Json

/-!
The operators of expressions.
-/

set_option autoImplicit false

namespace Retrace

inductive UnOp where
  | coerce
  | neg
  | complement
  /-- Logical negation: one if the operand is zero, else zero. -/
  | not
deriving DecidableEq, Repr

namespace UnOp

instance : Choice UnOp where
  all := [coerce, neg, complement, not]
  position
    | coerce => 0 | neg => 1 | complement => 2 | not => 3
  label
    | coerce => "Coerce" | neg => "Neg" | complement => "BitwiseNot" | not => "LogicalNot"

def symbol : UnOp → String
  | coerce => "" | neg => "-" | complement => "~" | not => "!"

end UnOp

inductive BinOp where
  | add
  | sub
  | mul
  | div
  | mod
  | shiftLeft
  | shiftRight
  | bitAnd
  | bitOr
  | bitXor
  | lt
  | gt
  | le
  | ge
  | eq
  | ne
  | and
  | or
  /-- Pointer plus integer, scaled by the stride. -/
  | pointerAdd
  /-- Pointer minus integer, scaled by the stride. -/
  | pointerSub
  /-- Pointer minus pointer, divided by the stride. -/
  | pointerDiff
  | min
  | max
deriving DecidableEq, Repr

namespace BinOp

instance : Choice BinOp where
  all := [add, sub, mul, div, mod, shiftLeft, shiftRight, bitAnd, bitOr, bitXor, lt, gt, le, ge,
    eq, ne, and, or, pointerAdd, pointerSub, pointerDiff, min, max]
  position
    | add => 0 | sub => 1 | mul => 2 | div => 3 | mod => 4 | shiftLeft => 5 | shiftRight => 6
    | bitAnd => 7 | bitOr => 8 | bitXor => 9 | lt => 10 | gt => 11 | le => 12 | ge => 13
    | eq => 14 | ne => 15 | and => 16 | or => 17 | pointerAdd => 18 | pointerSub => 19
    | pointerDiff => 20 | min => 21 | max => 22
  label
    | add => "Plus" | sub => "Minus" | mul => "Mult" | div => "Div" | mod => "Mod"
    | shiftLeft => "ShiftLeft" | shiftRight => "ShiftRight" | bitAnd => "BitwiseAnd"
    | bitOr => "BitwiseOr" | bitXor => "BitwiseXor" | lt => "LessThan" | gt => "GreaterThan"
    | le => "LessEqual" | ge => "GreaterEqual" | eq => "Equal" | ne => "NotEqual"
    | and => "LogicalAnd" | or => "LogicalOr" | pointerAdd => "PlusPI" | pointerSub => "MinusPI"
    | pointerDiff => "MinusPP" | min => "Min" | max => "Max"

def symbol : BinOp → String
  | add | pointerAdd => "+"
  | sub | pointerSub | pointerDiff => "-"
  | mul => "*" | div => "/" | mod => "%"
  | shiftLeft => "<<" | shiftRight => ">>"
  | bitAnd => "&" | bitOr => "|" | bitXor => "^"
  | lt => "<" | gt => ">" | le => "<=" | ge => ">=" | eq => "==" | ne => "!="
  | and => "&&" | or => "||"
  | min => "min" | max => "max"

def isComparison : BinOp → Bool
  | lt | gt | le | ge | eq | ne => true
  | _ => false

def isTruthValued : BinOp → Bool
  | lt | gt | le | ge | eq | ne | and | or => true
  | _ => false

def isPointerArithmetic : BinOp → Bool
  | pointerAdd | pointerSub | pointerDiff => true
  | _ => false

end BinOp

inductive BoundSide where
  | lower
  | upper
  | offset
deriving DecidableEq, Repr

namespace BoundSide

instance : Choice BoundSide where
  all := [lower, upper, offset]
  position
    | lower => 0 | upper => 1 | offset => 2
  label
    | lower => "Lower" | upper => "Upper" | offset => "Offset"

def word : BoundSide → String
  | lower => "lbound" | upper => "ubound" | offset => "offset"

end BoundSide

/-- The width of an operation; zero bits if it cannot overflow. -/
structure Width where
  bits : Nat
  signed : Bool
deriving DecidableEq, Repr

namespace Width

def unbounded : Width := ⟨0, true⟩

def order (a b : Width) : Ordering := (compare a.bits b.bits).then (compare a.signed b.signed)

/-- The least value that takes more than `bits` bits, as a constant: a signed number of 128 bits. At 127
bits it wraps around and is below every other constant. -/
def unsignedBound (bits : Nat) : Int := Int.bmod (Int.pow 2 bits) (Nat.pow 2 128)

/-- Whether a value is known to be representable. From 128 bits on only the sign is looked at: constants
have 128 bits themselves. -/
def fits (w : Width) (v : Int) : Bool :=
  if w.bits = 0 then true
  else if 128 ≤ w.bits then w.signed || 0 ≤ v
  else if w.signed then -Int.pow 2 (w.bits - 1) ≤ v && v < Int.pow 2 (w.bits - 1)
  else 0 ≤ v && v < unsignedBound w.bits

end Width
end Retrace
