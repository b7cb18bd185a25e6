import Retrace.Limits
import Retrace.Walk.Visit

/-!
Which formulas at the entry of a block are handed to its callers, or to the code before a loop.
-/

set_option autoImplicit false

namespace Retrace.Search

def withinBudget : List Expr → (budget : UInt64) → Bool
  | [], _ => true
  | e :: es, budget =>
    if e.hasMoreTerms budget.toNat then false else withinBudget es (budget - .ofNat e.termCount)

/-- What a caller knows nothing about: placeholders, clobbers, and for a function also its locals and
its exit and initial values. -/
def unknownToCaller (isFunction : Bool) (e : Expr) : Bool :=
  match e.shape with
  | .value .. | .guard _ | .frame .. | .clobber .. => true
  | .moment .. => isFunction
  | .var v =>
    isFunction && match v.storage with
      | .local | .temporary | .result => true
      | _ => false
  | _ => false

def suitsCaller (limits : Limits) (isFunction : Bool) (f : Formula) : Bool :=
  withinBudget f.terms limits.callerTerms && !Walk.mentions (unknownToCaller isFunction) f

end Retrace.Search
