import Retrace.Formula.Basic

/-!
The canonical order of formulas: by digest, then by kind, the data of the node, the number of
operands, and the operands from left to right.
-/

set_option autoImplicit false

namespace Retrace

namespace Clause

variable {α β : Type}

def orderData : Clause α → Clause β → Ordering
  | const b, const b' => compare b b'
  | nonzero e, nonzero e' => e.order e'
  | _, _ => .eq

end Clause

namespace Formula

def orderOperands : List (Formula → Ordering) → List Formula → Ordering
  | f :: fs, g :: gs => (f g).then (orderOperands fs gs)
  | [], [] => .eq
  | [], _ :: _ => .lt
  | _ :: _, [] => .gt

mutual
def order : Formula → Formula → Ordering
  | node d c, g =>
    if node d c = g then .eq
    else
      (compare d.state g.digest.state).then <|
      (compare c.rank g.clause.rank).then <|
      (c.orderData g.clause).then <|
      (compare c.operands.length g.operands.length).then
        (orderOperands (orderings c) g.operands)
def orderings : Clause Formula → List (Formula → Ordering)
  | .not f => [order f]
  | .junction _ fs => orderingsList fs
  | .const _ | .nonzero _ => []
def orderingsList : List Formula → List (Formula → Ordering)
  | [] => []
  | f :: fs => order f :: orderingsList fs
end

theorem orderingsList_eq (fs : List Formula) : orderingsList fs = fs.map order := by
  induction fs with
  | nil => rfl
  | cons f fs ih => rw [orderingsList, ih, List.map_cons]

theorem orderings_eq (c : Clause Formula) : orderings c = c.operands.map order := by
  cases c with
  | junction k fs => rw [orderings, orderingsList_eq]; rfl
  | _ => rfl

def atMost (f g : Formula) : Bool := order f g != .gt

end Formula
end Retrace
