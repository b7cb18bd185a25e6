import Retrace.Walk.Enter

/-!
Replacement of one node by another throughout an expression or formula, also inside exit values,
initial values and references to other frames.
-/

set_option autoImplicit false

namespace Retrace.Walk

def isOpened (e : Expr) : Bool :=
  match e.shape with
  | .moment .. | .frame .. => true
  | _ => false

def reclose (e inside : Expr) : Except Fault Expr :=
  match e.shape with
  | .frame _ id => Expr.frame inside id
  | _ => e.replaceTarget inside

/-- What becomes of a node in a replacement of `old` by `new`. A node that is looked into may also be one that
came with `new`, or that a node simplified to. -/
def replacing (old new value node : Expr) : Reply :=
  if node = old then .answer (.ok (some new))
  else
    match isOpened value, value.hidden with
    | true, inside :: _ => .enter inside fun r => (reclose value (r.getD inside)).map some
    | _, _ => .answer (.ok (some value))

def replace (old new e : Expr) : Except Fault Expr :=
  (concluded (mapEntering .all .keep (replacing old new) e)).map fun r => r.getD e

def replaceFormula (old new : Expr) (b : Formula) : Except Fault Formula :=
  (concluded (mapFormulaEntering .all .keep (replacing old new) b)).map fun r => r.getD b

end Retrace.Walk
