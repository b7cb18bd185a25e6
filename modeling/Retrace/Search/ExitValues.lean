import Retrace.Walk.Enter

/-!
Exit values and clobbers as the plain reads they stand for.
-/

set_option autoImplicit false

namespace Retrace.Search

open Walk (Reply)

/-- The location that an exit value or a clobber is about, and what of it is meant. -/
def exitRead? (e : Expr) : Option (Expr × Option Expr) :=
  match e.shape with
  | .moment .exit t kind => some (t, kind)
  | .clobber _ kind o _ => some (o, kind)
  | _ => none

def readOf (location : Expr) (kind : Option Expr) : Except Fault Expr :=
  match kind with
  | some k => k.replaceTarget location
  | none => Expr.deref location

def plainReading (value _node : Expr) : Reply :=
  match exitRead? value with
  | some (target, kind) => .enter target fun location => location.mapM fun t => readOf t kind
  | none => .answer (.ok (some value))

def plainReads (f : Formula) : Except Fault Formula := do
  match ← Walk.concluded (Walk.mapFormulaEntering .all .drop plainReading f) with
  | some g => return g
  | none => throw .exitConversionDropped

end Retrace.Search
