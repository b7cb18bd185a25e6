import Retrace.Expr.Rebuild
import Retrace.Formula.Build
import Retrace.Walk.Visit

/-!
Mappings: replacing the nodes of an expression or formula bottom up. Results are remembered, so a
shared node is mapped once. A mapper may decline a node; the policy says what that means.
-/

set_option autoImplicit false

namespace Retrace.Walk

/-- What happens to a node that is declined, or that cannot be rebuilt over its new children. -/
inductive Policy where
  /-- The expression around it, and every formula around that, is dropped. -/
  | drop
  | keep
deriving DecidableEq, Repr

def Policy.fallback (policy : Policy) (e : Expr) : Option Expr :=
  match policy with
  | .drop => none
  | .keep => some e

structure Mapper (m : Type → Type) where
  /-- Maps `value`, which is `node` over its mapped children. -/
  map : (value node : Expr) → ExceptT Fault m (Option Expr)

abbrev Memo := List (Expr × Option Expr)

variable {m : Type → Type} [Monad m]

def mapEach {n : Type → Type} [Monad n] {α β : Type} (f : α → n (Option β)) :
    List α → n (Option (List β))
  | [] => pure (some [])
  | a :: as => do
    match ← f a with
    | none => pure none
    | some b =>
      match ← mapEach f as with
      | none => pure none
      | some bs => pure (some (b :: bs))

def rebuilt (policy : Policy) (e : Expr) (children : List Expr) : Except Fault (Option Expr) :=
  if children = e.children then .ok (some e)
  else (e.rebuild? children).map fun r => r.or (policy.fallback e)

def lift {α : Type} (x : Except Fault α) : ExceptT Fault m α := ExceptT.mk (pure x)

def applied (policy : Policy) (f : Mapper m) (value node : Expr) : ExceptT Fault m (Option Expr) := do
  return (← f.map value node).or (policy.fallback value)

def settle (scope : Scope) (policy : Policy) (f : Mapper m) (e : Expr) :
    Option (List Expr) → ExceptT Fault m (Option Expr)
  | none => pure none
  | some cs => do
    match ← lift (rebuilt policy e cs) with
    | none => pure none
    | some value => if scope.includes e then applied policy f value e else pure (some value)

def mapExpr (scope : Scope) (policy : Policy) (f : Mapper m) (e : Expr) :
    StateT Memo (ExceptT Fault m) (Option Expr) := do
  match (← get).lookup e with
  | some result => pure result
  | none =>
    let children ← mapEach (fun c : { c // c ∈ e.children } => do
      pure ((← mapExpr scope policy f c.1).or (policy.fallback c.1))) e.children.attach
    let result ← settle scope policy f e children
    modify ((e, result) :: ·)
    pure result
termination_by sizeOf e
decreasing_by exact Expr.sizeOf_lt_of_mem_children c.2

mutual
def mapFormulaMemo (scope : Scope) (policy : Policy) (f : Mapper m) :
    Formula → StateT Memo (ExceptT Fault m) (Option Formula)
  | b@(.node _ (.const _)) => pure (some b)
  | b@(.node _ (.nonzero e)) => do
    match ← mapExpr scope policy f e with
    | none => pure none
    | some e' => pure (some (if e' = e then b else Formula.nonzero e'))
  | b@(.node _ (.not g)) => do
    match ← mapFormulaMemo scope policy f g with
    | none => pure none
    | some g' => (lift ((b.withOperands [g']).map some) : ExceptT Fault m _)
  | b@(.node _ (.junction _ gs)) => do
    match ← mapFormulas scope policy f gs with
    | none => pure none
    | some gs' => (lift ((b.withOperands gs').map some) : ExceptT Fault m _)
def mapFormulas (scope : Scope) (policy : Policy) (f : Mapper m) :
    List Formula → StateT Memo (ExceptT Fault m) (Option (List Formula))
  | [] => pure (some [])
  | g :: gs => do
    match ← mapFormulaMemo scope policy f g with
    | none => pure none
    | some g' =>
      match ← mapFormulas scope policy f gs with
      | none => pure none
      | some gs' => pure (some (g' :: gs'))
end

/-- Maps an expression bottom up; none if the result was dropped. -/
def map (scope : Scope) (policy : Policy) (f : Mapper m) (e : Expr) :
    ExceptT Fault m (Option Expr) :=
  (mapExpr scope policy f e).run' []

def mapFormula (scope : Scope) (policy : Policy) (f : Mapper m) (b : Formula) :
    ExceptT Fault m (Option Formula) :=
  (mapFormulaMemo scope policy f b).run' []

end Retrace.Walk
