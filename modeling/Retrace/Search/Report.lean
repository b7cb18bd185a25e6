import Retrace.Json

/-!
Why a search stopped.
-/

set_option autoImplicit false

namespace Retrace

inductive Report where
  /-- No reason: nothing is lost when the search stops here. -/
  | nothing
  | finished
  | timeout
  | recursion
  | unexpected
  | unknownType
  | noCallee
deriving DecidableEq, Repr

namespace Report

instance : Choice Report where
  all := [nothing, finished, timeout, recursion, unexpected, unknownType, noCallee]
  position
    | nothing => 0 | finished => 1 | timeout => 2 | recursion => 3
    | unexpected => 4 | unknownType => 5 | noCallee => 6
  label
    | nothing => "None" | finished => "Finished" | timeout => "Timeout" | recursion => "Recursion"
    | unexpected => "Unexpected" | unknownType => "UnknownCsu" | noCallee => "NoCallee"

def explanation : Report → String
  | nothing => "None"
  | finished => "Finished exploration, no further dependents"
  | timeout => "Timed out during exploration"
  | recursion => "Recursion blocked, too many dependents at the same point"
  | unexpected => "Unknown lvalue in goal, could not figure out dependent"
  | unknownType => "Could not find base object for type invariant"
  | noCallee => "Depends on a callee with no known implementation"

end Report
end Retrace
