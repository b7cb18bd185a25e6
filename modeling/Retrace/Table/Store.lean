import Retrace.Table.Basic
import Std.Data.HashMap

/-!
Putting expressions and formulas into a table.
-/

set_option autoImplicit false

namespace Retrace

instance : Hashable Expr := ⟨fun e => hash e.digest.state⟩

instance : Hashable Formula := ⟨fun f => hash f.digest.state⟩

/-- A table, and where the expressions and formulas are that were put into it. -/
structure Store where
  table : Table := {}
  exprs : Std.HashMap Expr Nat := {}
  formulas : Std.HashMap Formula Nat := {}

namespace Store

def intern (label : Label) (parts : List Nat) : StateM Store Nat := do
  let s ← get
  let (i, t) := s.table.intern label parts
  set { s with table := parts.foldl Table.release t }
  return i

def hold (i : Nat) : StateM Store Nat := do
  modify fun s => { s with table := s.table.hold i }
  return i

def expr (e : Expr) : StateM Store Nat := do
  match (← get).exprs[e]? with
  | some i => hold i
  | none =>
    let parts ← e.parts.attach.mapM fun c => expr c.1
    let i ← intern (.expr e.shape.label) parts
    modify fun s => { s with exprs := s.exprs.insert e i }
    return i
termination_by sizeOf e
decreasing_by exact Expr.sizeOf_lt_of_mem_parts c.2

mutual
def formula (f : Formula) : StateM Store Nat := do
  match (← get).formulas[f]? with
  | some i => hold i
  | none =>
    let i ← clause f
    modify fun s => { s with formulas := s.formulas.insert f i }
    return i
termination_by (sizeOf f, 1)

def clause (f : Formula) : StateM Store Nat := do
  match f with
  | .node _ (.const b) => intern (.const b) []
  | .node _ (.nonzero e) => intern .nonzero [← expr e]
  | .node _ (.not g) => intern .not [← formula g]
  | .node _ (.junction k gs) =>
    intern (.junction k) (← gs.attach.mapM fun g => formula g.1)
termination_by (sizeOf f, 0)
decreasing_by
  · apply Prod.Lex.left; simp; omega
  · apply Prod.Lex.left
    have := List.sizeOf_lt_of_mem g.2
    simp; omega
end

def tableOf (es : List Expr) (fs : List Formula) : Table :=
  let put : StateM Store Unit := do
    es.forM fun e => discard (expr e)
    fs.forM fun f => discard (formula f)
  (put.run {}).2.table

end Store
end Retrace
