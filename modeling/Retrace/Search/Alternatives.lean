import Retrace.Formula.Build

/-!
Alternatives: formulas, each under the control flow condition that gives rise to it.
-/

set_option autoImplicit false

namespace Retrace

/-- A formula that has to be proved when its guard holds. -/
structure Alternative where
  formula : Formula
  guard : Formula
deriving DecidableEq

abbrev Alternatives := List Alternative

namespace Alternative

def order (a b : Alternative) : Ordering :=
  (a.formula.order b.formula).then (a.guard.order b.guard)

def atMost (a b : Alternative) : Bool := a.order b != .gt

end Alternative

namespace Alternatives

def push (as : Alternatives) (formula guard : Formula) : Alternatives :=
  if guard.isFalse then as else as ++ [⟨formula, guard⟩]

/-- Joins `a` with the alternatives right after it that have the same formula, and so on. -/
def mergeFrom (a : Alternative) : Alternatives → Alternatives
  | [] => [a]
  | b :: bs =>
    if a.formula = b.formula then mergeFrom ⟨a.formula, a.guard.or b.guard⟩ bs
    else a :: mergeFrom b bs

def merge : Alternatives → Alternatives
  | [] => []
  | a :: as => mergeFrom a as

def combine (as : Alternatives) : Alternatives := merge (as.mergeSort Alternative.atMost)

end Alternatives
end Retrace
