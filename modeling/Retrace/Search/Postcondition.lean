import Retrace.Search.Callee
import Retrace.Search.ExitValues
import Retrace.Search.Precondition

/-!
Postconditions: formulas that must hold right after a call or loop. They move to the exit of the callee
or of the loop body.
-/

set_option autoImplicit false

namespace Retrace.Search

structure Postcondition (m : Type → Type) where
  frame : Frame m
  point : Nat
  /-- The formula at the exit of the callee. -/
  formula : Formula

namespace Postcondition

variable {m : Type → Type}

def make? (frame : Frame m) (point : Nat) (f : Formula) : Except Fault (Option (Postcondition m)) :=
  (atCalleeExit frame.memory point f frame.id).map fun g => g.map fun g => ⟨frame, point, g⟩

def calleeText (edge : Edge) : String :=
  match edge, edge.directCallee? with
  | _, some callee => callee.name
  | .call function _ _ _, none => function.render true
  | .loop _, none => ""

def label (p : Postcondition m) : String :=
  match p.frame.memory.edge? p.point with
  | some (.loop body) => "LoopInvariant [" ++ body.loopName ++ "]"
  | some edge =>
    let line := ((p.frame.memory.location? p.point).map Location.line).getD 0
    "Postcondition [" ++ calleeText edge ++ ":" ++ toString line ++ "]"
  | none => "Postcondition"

def render (p : Postcondition m) : Except Fault String :=
  (plainReads p.formula).map fun f => p.label ++ " :: " ++ f.render true

/-- The names under which annotations are looked up: several for an indirect call, none for a call of
nothing known. -/
def hook? (p : Postcondition m) : Option String :=
  let memory := p.frame.memory
  match memory.edge? p.point with
  | none => none
  | some (.loop body) => some (body.loopName ++ " " ++ memory.block.functionName)
  | some edge =>
    match edge.directCallee? with
    | some callee => some ("post " ++ callee.name)
    | none =>
      match memory.indirectCallees p.point with
      | [] => none
      | callees => some ("$".intercalate (callees.map fun callee => "post " ++ callee.name))

variable [Monad m]

/-- The formula before the loop at the point, whose effects are ignored. -/
def beforeLoop (p : Postcondition m) : ExceptT Fault m Arrival := do
  let shown ← Walk.lift (plainReads p.formula)
  let found ← ExceptT.lift (p.frame.memory.view .before p.point p.formula)
  return ⟨some shown, ← removeValues p.frame found⟩

def atExit (p : Postcondition m) (callee : Frame m) : ExceptT Fault m Arrival := do
  let shown ← Walk.lift (plainReads p.formula)
  let found ← ExceptT.lift (callee.memory.view .exit callee.memory.exitPoint p.formula)
  return ⟨some shown, ← removeValues callee found⟩

end Postcondition
end Retrace.Search
