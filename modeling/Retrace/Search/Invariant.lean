import Retrace.Search.ExitValues
import Retrace.Search.Heap
import Retrace.Search.Precondition

/-!
Invariants: formulas that must hold for every object of an aggregate type, or for the global heap. They
move to the exits of the functions that write there.
-/

set_option autoImplicit false

namespace Retrace.Search

structure Invariant where
  /-- The aggregate type; none for an invariant of the global heap. -/
  type : Option String
  /-- The formula, about the object that the receiver pointer points to. -/
  formula : Formula

namespace Invariant

/-- Whether some read goes through more than one dereference: not all writes there can be found. -/
def readsDeep (f : Formula) : Bool := (Walk.locations f).any fun e => 1 < e.derefCount

/-- The invariant that `f`, about the object `object` or about globals, holds of all objects. None if it
cannot be stated, or reads too deep. -/
def make? (type : Option String) (object : Option Expr) (f : Formula) :
    Except Fault (Option Invariant) := do
  let stated ← match type with
    | some _ => heapFormula? object (some Expr.receiverObject) f
    | none => heapFormula? none none f
  match stated with
  | none => return none
  | some g => return if readsDeep g then none else some ⟨type, g⟩

def render (i : Invariant) : String :=
  let label := match i.type with
    | some type => "TypeInvariant [" ++ type ++ "]"
    | none => "GlobalInvariant"
  label ++ " :: " ++ i.formula.render true

def object? (i : Invariant) : Option Expr := i.type.map fun _ => Expr.receiverObject

def exitFormula (i : Invariant) (written : Expr) : Except Fault Formula := do
  match ← heapExitFormula? i.object? (some written) i.formula with
  | some f => return f
  | none => throw .heapExitDropped

def shownFor (i : Invariant) (base : Option Expr) : Except Fault Formula := do
  relocate i.object? base (← plainReads i.formula)

/-- The object of the invariant's type of which a location is a field, at any depth. -/
def objectAround? (i : Invariant) : Expr → Option Expr
  | .node _ (.access (.field f) t) => if i.type = some f.owner then some t else i.objectAround? t
  | _ => none

variable {m : Type → Type} [Monad m]

/-- Moves the invariant to the exit of a frame that writes the object `written`, which the source calls
`base`. -/
def atExit (i : Invariant) (frame : Frame m) (written : Expr) (base : Option Expr) :
    ExceptT Fault m Arrival := do
  let f ← Walk.lift (i.exitFormula written)
  let shown ← Walk.lift (i.shownFor base)
  let found ← ExceptT.lift (frame.memory.view .exit frame.memory.exitPoint f)
  return ⟨some shown, ← removeValues frame found⟩

/-- If the written location is a field of an object of this type, asserts the invariant of that object
too. One level of nesting is followed. -/
def assertAround (i : Invariant) (frame : Frame m) (written : Expr) : ExceptT Fault m Unit := do
  match i.objectAround? written with
  | none => return
  | some around =>
    match ← (Walk.lift (heapFormula? i.object? (some around) i.formula) : ExceptT Fault m _) with
    | some f => ExceptT.lift (frame.assert f)
    | none => return

end Invariant
end Retrace.Search
