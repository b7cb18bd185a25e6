import Retrace.Formula.Build
import Retrace.Json

/-!
What the search asks of a satisfiability solver.
-/

set_option autoImplicit false

namespace Retrace

inductive Verdict where
  | satisfiable
  | unsatisfiable
  | undefined
deriving DecidableEq, Repr

instance : Choice Verdict where
  all := [.satisfiable, .unsatisfiable, .undefined]
  position
    | .satisfiable => 0 | .unsatisfiable => 1 | .undefined => 2
  label
    | .satisfiable => "Satisfiable" | .unsatisfiable => "Unsatisfiable" | .undefined => "Undefined"

structure Solver (π : Type) (m : Type → Type) where
  predicate : Formula → m π
  describe : π → String
  assert : π → m Unit
  enter : m Unit
  leave : m Unit
  /-- Whether the assertions of the current context have a model. -/
  solve : m Verdict

namespace Solver

variable {π : Type} {m : Type → Type} [Monad m]

def solvePredicate (s : Solver π m) (p : π) : m Verdict := do
  s.enter
  s.assert p
  let verdict ← s.solve
  s.leave
  return verdict

def unknowing : Solver Unit m where
  predicate _ := pure ()
  describe _ := "not implemented"
  assert _ := pure ()
  enter := pure ()
  leave := pure ()
  solve := pure .undefined

end Solver
end Retrace
