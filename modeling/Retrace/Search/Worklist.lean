import Retrace.Search.Priority

/-!
The obligations that wait to be worked on.
-/

set_option autoImplicit false

namespace Retrace.Search.Worklist

variable {m : Type → Type} [Monad m]

def scan (oracle : Oracle m) : (best : Obligation m × Nat) → List (Obligation m × Nat) →
    m (Obligation m × Nat)
  | best, [] => pure best
  | best, c :: cs => do
    match ← Obligation.priority oracle c.1 best.1 with
    | .lt => scan oracle c cs
    | _ => scan oracle best cs

/-- Takes out the obligation to work on next; the earliest of those without a preference. -/
def next? (oracle : Oracle m) : List (Obligation m) → m (Option (Obligation m × List (Obligation m)))
  | [] => pure none
  | o :: os => do
    let (best, i) ← scan oracle (o, 0) (os.zipIdx 1)
    return some (best, (o :: os).eraseIdx i)

def takeUpTo (oracle : Oracle m) : (count : Nat) → List (Obligation m) → m (List (Obligation m))
  | 0, _ => pure []
  | count + 1, os => do
    match ← next? oracle os with
    | none => return []
    | some (o, rest) => return o :: (← takeUpTo oracle count rest)

def drain (oracle : Oracle m) (os : List (Obligation m)) : m (List (Obligation m)) :=
  takeUpTo oracle os.length os

end Retrace.Search.Worklist
