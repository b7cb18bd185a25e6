import Retrace.Walk.Map

/-!
Expansions: every alternative of an expression or formula, one for each choice of alternatives for
its parts. A node with too many alternatives stands for itself.
-/

set_option autoImplicit false

namespace Retrace.Walk

/-- Adds the alternatives of a value, whose parts are expanded already, to those found so far. -/
abbrev Expander (m : Type → Type) := (value : Expr) → (found : List Expr) → ExceptT Fault m (List Expr)

section Choices

variable {α β : Type} {n : Type → Type} [Monad n]

/-- Folds over the ways to choose one element of each list, the last list varying fastest. It stands for the
product of sequences of a general library, in the order that is documented there. -/
def foldChoices {σ : Type} (f : σ → List α → n σ) : List (List α) → List α → σ → n σ
  | [], chosen, s => f s chosen
  | as :: rest, chosen, s => as.foldlM (fun s a => foldChoices f rest (chosen ++ [a]) s) s

/-- Whether there are more results than allowed. A limit of zero allows any number. -/
def overLimit (limit : Nat) (results : List β) : Bool := limit != 0 && limit < results.length

def withinLimit (limit : Nat) (node : β) (results : List β) : List β :=
  if overLimit limit results then [node] else results

/-- Collects the results of all choices, up to the one that passes the limit. -/
def collect (limit : Nat) (node : β) (f : List β → List α → n (List β))
    (alternatives : List (List α)) : n (List β) := do
  let step (found : List β) (choice : List α) : ExceptT (List β) n (List β) := do
    let found ← ExceptT.lift (f found choice)
    if overLimit limit found then throw [node] else pure found
  match ← (foldChoices step alternatives [] []).run with
  | .ok found => pure found
  | .error found => pure found

end Choices

variable {m : Type → Type} [Monad m]

/-- The alternatives of an expression. There are none if some part has none. -/
def expand (scope : Scope) (limit : Nat) (f : Expander m) (e : Expr) : ExceptT Fault m (List Expr) := do
  let accept (value : Expr) (found : List Expr) : ExceptT Fault m (List Expr) :=
    if scope.includes e then f value found else pure (addDistinct found value)
  if e.children.isEmpty then return withinLimit limit e (← accept e [])
  let alternatives ← e.children.attach.mapM fun c => expand scope limit f c.1
  if alternatives.any List.isEmpty then return []
  if limit != 0 && limit < (alternatives.map List.length).foldl (· * ·) 1 then return [e]
  let step (found choice : List Expr) : ExceptT Fault m (List Expr) := do
    match ← (lift (e.rebuild? choice) : ExceptT Fault m _) with
    | some value => accept value found
    | none => return found
  collect limit e step alternatives
termination_by sizeOf e
decreasing_by exact Expr.sizeOf_lt_of_mem_children c.2

def expandOver (limit : Nat) (b : Formula) (alternatives : List (List Formula)) :
    ExceptT Fault m (List Formula) :=
  if alternatives.any List.isEmpty then pure []
  else collect limit b (fun found choice =>
    (addDistinct found ·) <$> (lift (b.withOperands choice) : ExceptT Fault m _)) alternatives

mutual
def expandFormula (scope : Scope) (limit : Nat) (f : Expander m) :
    Formula → ExceptT Fault m (List Formula)
  | b@(.node _ (.const _)) => pure [b]
  | b@(.node _ (.nonzero e)) => do
    let values ← expand scope limit f e
    return withinLimit limit b (values.foldl (fun found v => addDistinct found (Formula.nonzero v)) [])
  | b@(.node _ (.not g)) => do expandOver limit b [← expandFormula scope limit f g]
  | b@(.node _ (.junction _ gs)) => do expandOver limit b (← expandFormulas scope limit f gs)
def expandFormulas (scope : Scope) (limit : Nat) (f : Expander m) :
    List Formula → ExceptT Fault m (List (List Formula))
  | [] => pure []
  | g :: gs => do
    let here ← expandFormula scope limit f g
    return here :: (← expandFormulas scope limit f gs)
end

end Retrace.Walk
