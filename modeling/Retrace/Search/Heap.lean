import Retrace.Walk.Replace

/-!
Formulas about objects on the heap, and their reads at the exit of a function that writes there.
-/

set_option autoImplicit false

namespace Retrace.Search

open Walk (Mapper)

def relocate (old new : Option Expr) (f : Formula) : Except Fault Formula :=
  match old, new with
  | some old, some new => Walk.replaceFormula old new f
  | _, _ => .ok f

/-- What is not reached from the receiver or from globals, or is not known yet. -/
def isOffHeap (e : Expr) : Bool :=
  match e.shape with
  | .var v =>
    match v.storage with
    | .receiver | .global | .function => false
    | _ => true
  | _ => e.group == .placeholder

/-- The read of a location as its exit value. A fixed address stays as it is. -/
def exitOfRead (e : Expr) : Except Fault Expr :=
  match e.dereferenced? with
  | some t => if t.int?.isSome then .ok e else Expr.exit t none
  | none => .ok e

def exitReadMapper : Mapper Id where
  map value _ := Walk.lift ((exitOfRead value).map some)

def heapFormula? (old new : Option Expr) (f : Formula) : Except Fault (Option Formula) := do
  let f ← relocate old new f
  return if Walk.mentions isOffHeap f then none else some f

def heapExitFormula? (old new : Option Expr) (f : Formula) : Except Fault (Option Formula) := do
  let f ← relocate old new f
  (Walk.mapFormula .all .drop exitReadMapper f).run

end Retrace.Search
