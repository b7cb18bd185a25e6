import Retrace.Search.Invariant
import Retrace.Search.Postcondition
import Retrace.Search.Report

/-!
Obligations: what the backward search still has to prove or to report.
-/

set_option autoImplicit false

namespace Retrace.Search

inductive Obligation (m : Type → Type) where
  | stop (reason : Report)
  | precondition (p : Precondition m)
  | postcondition (p : Postcondition m)
  | invariant (i : Invariant)

namespace Obligation

variable {m : Type → Type}

def formula? : Obligation m → Option Formula
  | stop _ => none
  | precondition p => some p.formula
  | postcondition p => some p.formula
  | invariant i => some i.formula

def isVoid : Obligation m → Bool
  | stop .nothing => true
  | _ => false

def render : Obligation m → Except Fault String
  | stop reason => .ok ("Report: " ++ reason.explanation)
  | precondition p => .ok p.render
  | postcondition p => p.render
  | invariant i => .ok i.render

def hook? : Obligation m → Option String
  | stop _ => none
  | precondition p => some p.hook
  | postcondition p => p.hook?
  | invariant _ => none

end Obligation
end Retrace.Search
