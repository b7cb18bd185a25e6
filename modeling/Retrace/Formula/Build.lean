import Retrace.Expr.Build
import Retrace.Formula.Order

/-!
The factories of formulas. Constants are absorbed, double negation cancels, and the operands of a
conjunction or disjunction are flat, sorted and without repetition.
-/

set_option autoImplicit false

namespace Retrace.Formula

def const (b : Bool) : Formula := of (.const b)

def not (f : Formula) : Formula :=
  match f.clause with
  | .const b => const (!b)
  | .not g => g
  | _ => of (.not f)

def nonzero : Expr → Formula
  | .node _ (.int v) => const (v != 0)
  | .node _ (.unary .not _ e) => not (nonzero e)
  | e => of (.nonzero e)

def comparison (op : BinOp) (l r : Expr) : Except Fault Formula :=
  if op.isComparison then .ok (nonzero (Expr.simplifyBinary op .unbounded none l r))
  else .error .notComparison

/-- The operands that an operand contributes to a junction: none if neutral, its own operands if it
is a junction of the same kind. -/
def flatten (k : Connective) (f : Formula) : List Formula :=
  match f.clause with
  | .const b => if b = k.neutral then [] else [f]
  | .junction k' fs => if k' = k then fs else [f]
  | _ => [f]

/-- The operands of a junction, flat and without neutral constants; none if one operand decides it. -/
def flattenAll (k : Connective) : List Formula → Option (List Formula)
  | [] => some []
  | f :: fs =>
    if f.const? = some (!k.neutral) then none
    else (flattenAll k fs).map (flatten k f ++ ·)

def dropRepeated : List Formula → List Formula
  | [] => []
  | [f] => [f]
  | f :: g :: fs => if f = g then dropRepeated (g :: fs) else f :: dropRepeated (g :: fs)

def canonical (fs : List Formula) : List Formula := dropRepeated (fs.mergeSort atMost)

def junction (k : Connective) (fs : List Formula) : Formula :=
  match flattenAll k fs with
  | none => const (!k.neutral)
  | some flat =>
    match canonical flat with
    | [] => const k.neutral
    | [f] => f
    | operands => of (.junction k operands)

def all (fs : List Formula) : Formula := junction .all fs

def any (fs : List Formula) : Formula := junction .any fs

def and (f g : Formula) : Formula := all [f, g]

def or (f g : Formula) : Formula := any [f, g]

def imply (f g : Formula) : Formula := or (not f) g

def withOperands (f : Formula) (operands : List Formula) : Except Fault Formula :=
  if operands.length = f.operands.length then
    match f.clause, operands with
    | .not _, [g] => .ok (not g)
    | .junction k _, gs => .ok (junction k gs)
    | _, _ => .ok f
  else .error .operandCount

end Retrace.Formula
