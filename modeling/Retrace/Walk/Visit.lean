import Retrace.Formula.Basic

/-!
Visits: reporting the nodes of an expression or formula, each once, to a visitor that may stop the
walk. Modifiers and placeholders are leaves, except that a walk for locations looks at what they
stand for.
-/

set_option autoImplicit false

namespace Retrace.Walk

inductive Scope where
  /-- Every node, children before parents. -/
  | all
  /-- Locations: a visit reports those whose contents are read, a mapping every location node. -/
  | lvalues
deriving DecidableEq, Repr

def Scope.includes (scope : Scope) (e : Expr) : Bool :=
  match scope with
  | .all => true
  | .lvalues => e.isLvalue

structure Visitor (σ : Type) where
  visit : σ → Expr → σ
  /-- Once this holds the walk stops. -/
  finished : σ → Bool := fun _ => false

structure Progress (σ : Type) where
  seen : List Expr
  state : σ

variable {σ : Type}

def Progress.report (v : Visitor σ) (p : Progress σ) (e : Expr) : Progress σ :=
  if v.finished p.state then p else { p with state := v.visit p.state e }

def walk (scope : Scope) (v : Visitor σ) (p : Progress σ) (e : Expr) : Progress σ :=
  if v.finished p.state || p.seen.contains e then p
  else
    let p := e.children.attach.foldl (fun p c => walk scope v p c.1) { p with seen := e :: p.seen }
    match scope with
    | .all => p.report v e
    | .lvalues =>
      if v.finished p.state then p
      else
        let p := e.hidden.attach.foldl (fun p c => walk scope v p c.1) p
        match e.read? with
        | some t => p.report v t
        | none => p
termination_by sizeOf e
decreasing_by
  · exact Expr.sizeOf_lt_of_mem_children c.2
  · exact Expr.sizeOf_lt_of_mem_hidden c.2

def visit (scope : Scope) (v : Visitor σ) (start : σ) (e : Expr) : σ :=
  (walk scope v ⟨[], start⟩ e).state

end Walk

namespace Formula

mutual
def terms : Formula → List Expr
  | node _ (.const _) => []
  | node _ (.nonzero e) => [e]
  | node _ (.not f) => f.terms
  | node _ (.junction _ fs) => termsAll fs
def termsAll : List Formula → List Expr
  | [] => []
  | f :: fs => f.terms ++ termsAll fs
end

end Formula

namespace Walk

variable {σ : Type}

def visitFormula (scope : Scope) (v : Visitor σ) (start : σ) (f : Formula) : σ :=
  (f.terms.foldl (walk scope v) ⟨[], start⟩).state

def addDistinct {α : Type} [DecidableEq α] (as : List α) (a : α) : List α :=
  if a ∈ as then as else as ++ [a]

def locations (f : Formula) : List Expr := visitFormula .lvalues ⟨addDistinct, fun _ => false⟩ [] f

/-- Whether a node of the formula, modifiers and placeholders being leaves, has a property. -/
def mentions (p : Expr → Bool) (f : Formula) : Bool :=
  visitFormula .all ⟨fun found e => found || p e, fun _ => false⟩ false f

end Retrace.Walk
