/-!
Somewhat arbitrary bounds on what may take too long or use too much memory.
-/

set_option autoImplicit false

namespace Retrace

structure Limits where
  /-- An expansion with more alternatives than this gives the node itself. -/
  alternatives : Nat := 20
  /-- A formula with more terms than this is not handed to the callers. -/
  callerTerms : UInt64 := 50
deriving DecidableEq, Repr

/-- Transaction values nested deeper than this are refused. -/
def maxOperandDepth : Nat := 64

end Retrace
