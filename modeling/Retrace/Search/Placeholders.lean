import Retrace.Search.Frames
import Retrace.Search.Memory

/-!
Elimination of values that have not been looked into and of references to the frame itself.
-/

set_option autoImplicit false

namespace Retrace.Search

def isPlaceholder (e : Expr) : Bool :=
  match e.shape with
  | .value .. | .frame .. => true
  | _ => false

def hasPlaceholders (f : Formula) : Bool := Walk.mentions isPlaceholder f

variable {m : Type → Type} [Monad m]

/-- What one alternative contributes: itself if it holds no placeholders, else what the memory model
makes of it, under both guards. -/
def eliminated (frame : Frame m) (a : Alternative) : ExceptT Fault m Alternatives := do
  let f ← Walk.lift (dropReferences frame.id a.formula)
  if hasPlaceholders f then
    let found ← ExceptT.lift (frame.memory.view .expanded 0 f)
    return found.map fun b => ⟨b.formula, a.guard.and b.guard⟩
  else return [⟨f, a.guard⟩]

def removeValues (frame : Frame m) (input : Alternatives) : ExceptT Fault m Alternatives := do
  let output ← input.foldlM (fun output a => do
    return (← eliminated frame a).foldl (fun out b => Alternatives.push out b.formula b.guard) output) []
  return Alternatives.combine output

def eliminatePlaceholders (frame : Frame m) (f : Formula) : ExceptT Fault m Alternatives :=
  removeValues frame (Alternatives.push [] f (.const true))

def assertedAt (frame : Frame m) (point : Nat) (f : Formula) : ExceptT Fault m Alternatives := do
  removeValues frame (← ExceptT.lift (frame.memory.view .here point f))

end Retrace.Search
