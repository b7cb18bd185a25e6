import Retrace.Search.Solver

/-!
The two logical questions of the search. They are decided from the shape of the formulas where possible,
and else by a solver, which is asked for a counterexample.
-/

set_option autoImplicit false

namespace Retrace

/-- Answers to logical questions. A negative answer may mean that nothing is known. -/
structure Oracle (m : Type → Type) where
  implies : Formula → Formula → m Bool
  equivalent : Formula → Formula → m Bool

namespace Oracle

def impliesByShape (f g : Formula) : Bool :=
  f = g || f.isFalse || g.isTrue ||
    (match f.clause with
      | .junction .all fs => fs.contains g
      | _ => false) ||
    (match g.clause with
      | .junction .any gs => gs.contains f
      | _ => false)

def counterexample (f g : Formula) : Formula := f.and g.not

variable {π : Type} {m : Type → Type} [Monad m]

def impliesBySolver (s : Solver π m) (f g : Formula) : m Bool := do
  if impliesByShape f g || (counterexample f g).isFalse then return true
  let verdict ← s.solvePredicate (← s.predicate (counterexample f g))
  return verdict = .unsatisfiable

def equivalentBy (implies : Formula → Formula → m Bool) (f g : Formula) : m Bool := do
  if f = g then return true
  if ← implies f g then implies g f else return false

def ofSolver (s : Solver π m) : Oracle m where
  implies := impliesBySolver s
  equivalent := equivalentBy (impliesBySolver s)

end Oracle
end Retrace
