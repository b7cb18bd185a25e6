import Retrace.Search.Alternatives
import Retrace.Search.Edge

/-!
What a search asks of its surroundings: the memory model of a block, and the frame in which a step of
the search runs. Both may act, so their answers come in a monad.
-/

set_option autoImplicit false

namespace Retrace

/-- From where a formula at a point is to be seen. -/
inductive Viewpoint where
  | here
  /-- Just before the call or loop at the point, whose effects are ignored. -/
  | before
  /-- At the exit of a block, in terms of its entry. -/
  | exit
  /-- With the values not looked into yet replaced by those they may have. -/
  | expanded
  /-- At a call, in terms of the entry of the callee. -/
  | calleeEntry
  /-- At a call, in terms of the exit of the callee. -/
  | calleeExit
deriving DecidableEq, Repr

instance : Choice Viewpoint where
  all := [.here, .before, .exit, .expanded, .calleeEntry, .calleeExit]
  position
    | .here => 0 | .before => 1 | .exit => 2 | .expanded => 3 | .calleeEntry => 4 | .calleeExit => 5
  label
    | .here => "Point" | .before => "SkipClobber" | .exit => "Exit"
    | .expanded => "RemoveVal" | .calleeEntry => "Callee" | .calleeExit => "CalleeExit"

structure Memory (m : Type → Type) where
  block : Block
  exitPoint : Nat
  location? : (point : Nat) → Option Location
  edge? : (point : Nat) → Option Edge
  indirectCallees : (point : Nat) → List Variable
  /-- What a formula at a point may stand for, seen from elsewhere. -/
  view : Viewpoint → (point : Nat) → Formula → m Alternatives
  /-- Whether no iteration of the block can change the value of a formula. -/
  preserves : Formula → m Bool

structure Frame (m : Type → Type) where
  id : Nat
  memory : Memory m
  /-- From where a formula of the callee at a point is to be seen. -/
  calleeView : (point : Nat) → Viewpoint
  /-- Records one more formula that the frame has to prove. -/
  assert : Formula → m Unit

end Retrace
