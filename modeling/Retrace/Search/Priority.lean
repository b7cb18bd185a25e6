import Retrace.Search.Obligation
import Retrace.Search.Oracle

/-!
In which order obligations are worked on. First go those that carry no information, then those that are
cheap to decide; among equals the weaker formula, which is of use in more places.
-/

set_option autoImplicit false

namespace Retrace.Search.Obligation

variable {m : Type → Type}

def prefer (a b : Bool) : Ordering :=
  match a, b with
  | true, false => .lt
  | false, true => .gt
  | _, _ => .eq

def isPostcondition : Obligation m → Bool
  | postcondition _ => true
  | _ => false

def isInvariant : Obligation m → Bool
  | invariant _ => true
  | _ => false

def isPreserved : Obligation m → Bool
  | precondition p => p.preserved
  | _ => false

def point : Obligation m → Nat
  | postcondition p => p.point
  | _ => 0

/-- The order that the kinds of the obligations decide. Of postconditions the latest goes first. -/
def rankOrder (a b : Obligation m) : Ordering :=
  (prefer a.isVoid b.isVoid)
    |>.then (prefer a.formula?.isSome b.formula?.isSome)
    |>.then (prefer (!a.isPostcondition) (!b.isPostcondition))
    |>.then (compare b.point a.point)
    |>.then (prefer a.isPreserved b.isPreserved)
    |>.then (prefer a.isInvariant b.isInvariant)

variable [Monad m]

/-- The weaker formula goes first; equivalent ones go by the canonical order. -/
def formulaOrder (oracle : Oracle m) (f g : Formula) : m Ordering := do
  if f = g then return .eq
  if ← oracle.equivalent f g then return f.order g
  if ← oracle.implies g f then return .lt
  if ← oracle.implies f g then return .gt
  return .eq

/-- Whether `a` goes before `b`. Equality means no preference, which is not transitive. -/
def priority (oracle : Oracle m) (a b : Obligation m) : m Ordering :=
  match rankOrder a b, a.formula?, b.formula? with
  | .eq, some f, some g => formulaOrder oracle f g
  | o, _, _ => pure o

end Retrace.Search.Obligation
