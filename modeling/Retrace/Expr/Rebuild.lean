import Retrace.Expr.Build

/-!
New nodes from old ones: another target, other children, a relative location put on a base, and a
location split along its chain of targets.
-/

set_option autoImplicit false

namespace Retrace.Expr

def replaceTarget (e : Expr) (t : Expr) : Except Fault Expr :=
  match e.shape with
  | .access .deref _ => deref t
  | .access (.field f) _ => field t f
  | .access (.container f) _ => container t f
  | .access (.vtable slot) _ => vtable t slot
  | .index _ element i => index t element i
  | .moment m _ kind => moment m t kind
  | .bound side _ stride => .ok (bound side (some t) stride)
  | .terminator _ stride test sentinel => terminator (some t) stride test sentinel
  | _ => .error (.noReplaceableTarget e)

def withChildren (e : Expr) (children : List Expr) : Except Fault Expr :=
  if children.length = e.children.length then
    match e.shape, children with
    | .access .., [t] => e.replaceTarget t
    | .bound _ (some _) _, [t] => e.replaceTarget t
    | .terminator (some _) _ _ _, [t] => e.replaceTarget t
    | .index _ element _, [t, i] => index t element i
    | .unary op w _, [operand] => .ok (unary op w operand)
    | .binary op w stride _ _, [l, r] => binary op w stride l r
    | _, _ => .ok e
  else .error .childCount

/-- Whether the first of the children can be what the node is based on. -/
def acceptsTarget (e : Expr) (children : List Expr) : Bool :=
  match e.shape, children with
  | .access .deref _, t :: _ => t.isDereferenceable
  | .access .., t :: _ => t.isLvalueTarget
  | .index .., t :: _ => t.isLvalueTarget
  | _, _ => true

def rebuild? (e : Expr) (children : List Expr) : Except Fault (Option Expr) :=
  if e.acceptsTarget children then (e.withChildren children).map some else .ok none

def spine : Expr → List Expr
  | e@(node _ (.access _ t)) => e :: t.spine
  | e@(node _ (.index t _ _)) => e :: t.spine
  | e@(node _ (.moment _ t _)) => e :: t.spine
  | e@(node _ (.bound _ (some t) _)) => e :: t.spine
  | e@(node _ (.terminator (some t) _ _ _)) => e :: t.spine
  | e => [e]

theorem spine_eq (e : Expr) : e.spine = e :: (e.base?.map spine).getD [] := by
  obtain ⟨d, s⟩ := e
  cases s with
  | bound _ t _ => cases t <;> rfl
  | terminator t _ _ _ => cases t <;> rfl
  | _ => rfl

def rebase (base : Expr) (path : List Expr) : Except Fault Expr :=
  path.foldrM (fun e t => e.replaceTarget t) base

/-- Puts a relative location on a base, in place of the empty expression at its bottom. -/
def compose (base : Expr) (offset : Expr) : Except Fault Expr :=
  if !offset.isRelative then .error (.offsetNotRelative offset)
  else if offset.spine.getLast?.any isEmpty then rebase base offset.spine.dropLast
  else .error .offsetHasNoBase

/-- What remains of a location when `sub`, somewhere on its spine, is taken as the base. -/
def remainder? (e : Expr) (sub : Expr) : Except Fault (Option Expr) :=
  if sub ∈ e.spine then (rebase empty (e.spine.takeWhile (· ≠ sub))).map some else .ok none

/-- The locations along the spine, base first, each with the remainder that leads back. -/
def splits (e : Expr) : Except Fault (List (Expr × Expr)) :=
  e.spine.reverse.foldlM (fun found sub => do
    match ← e.remainder? sub with
    | some rest => return found ++ [(sub, rest)]
    | none => return found) []

end Retrace.Expr
