import Retrace.Formula.Printer
import Retrace.Search.Attribution
import Retrace.Search.Callsite
import Retrace.Search.Placeholders

/-!
Preconditions: formulas that must hold on entry to a function or to an iteration of a loop. They move to
the callers, or to the code before the loop.
-/

set_option autoImplicit false

namespace Retrace.Search

/-- An obligation as it arrives in another frame: the formula as it reads there, and what remains to be
proved there. -/
structure Arrival where
  shown : Option Formula
  remaining : Alternatives

structure Precondition (m : Type → Type) where
  memory : Memory m
  formula : Formula
  /-- No iteration of the loop changes the formula. -/
  preserved : Bool

namespace Precondition

variable {m : Type → Type} [Monad m]

def make? (limits : Limits) (memory : Memory m) (f : Formula) : m (Option (Precondition m)) := do
  if !suitsCaller limits (!memory.block.isLoop) f then return none
  let preserved ← if memory.block.isLoop then memory.preserves f else pure false
  return some ⟨memory, f, preserved⟩

omit [Monad m] in
def render (p : Precondition m) : String :=
  let label :=
    if p.memory.block.isLoop then "LoopInvariant [" ++ p.memory.block.loopName ++ "]"
    else "Precondition"
  label ++ " :: " ++ p.formula.render true

omit [Monad m] in
def hook (p : Precondition m) : String :=
  let b := p.memory.block
  if b.isLoop then b.loopName ++ " " ++ b.functionName else "pre " ++ b.functionName

omit [Monad m] in
/-- The formula as it reads at a point of a caller. A loop that calls itself is being unrolled. -/
def shownAt (p : Precondition m) (caller : Frame m) (point : Nat) : Except Fault (Option Formula) := do
  let unrolling := p.memory.block.isLoop && caller.memory.block = p.memory.block
  let mapper := callsiteMapper (caller.memory.edge? point) unrolling
  match ← (Walk.mapFormula .all .drop mapper p.formula).run with
  | none => return none
  | some f => dropReferences? caller.id f

def atCaller (p : Precondition m) (caller : Frame m) (point : Nat) : ExceptT Fault m Arrival := do
  let shown ← Walk.lift (p.shownAt caller point)
  let found ← ExceptT.lift (caller.memory.view (caller.calleeView point) point p.formula)
  return ⟨shown, ← removeValues caller found⟩

end Precondition
end Retrace.Search
