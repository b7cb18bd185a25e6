import Retrace.Search.Frames
import Retrace.Search.Memory

/-!
A formula right after a call or loop, in terms of the exit of the callee or of the loop body.
-/

set_option autoImplicit false

namespace Retrace.Search

open Walk (Mapper)

def isClobberAt (point : Nat) (e : Expr) : Bool :=
  match e.shape with
  | .clobber _ _ _ p => p = point
  | _ => false

def exitOfClobber (point : Nat) (e : Expr) : Except Fault Expr :=
  match e.shape with
  | .clobber callee kind _ p => if p = point then Expr.exit callee kind else .ok e
  | _ => .ok e

/-- Its state says whether the call left anything behind so far. -/
def clobberMapper (point : Nat) : Mapper (StateM Bool) where
  map value _ := do
    if isClobberAt point value then set true
    Walk.lift ((exitOfClobber point value).map some)

def hasKnownTarget {m : Type → Type} (memory : Memory m) (point : Nat) : Bool :=
  match memory.edge? point with
  | some edge => edge.isLoop || edge.directCallee?.isSome || !(memory.indirectCallees point).isEmpty
  | none => false

/-- The formula at the exit of what the edge at `point` leads to. None if that is not known or if the
formula does not depend on it. -/
def atCalleeExit {m : Type → Type} (memory : Memory m) (point : Nat) (f : Formula) (id : Nat) :
    Except Fault (Option Formula) := do
  if !hasKnownTarget memory point then return none
  let f ← dropReferences id f
  let (result, found) := (Walk.mapFormula .all .drop (clobberMapper point) f).run.run false
  let g ← result
  return if found then g else none

end Retrace.Search
