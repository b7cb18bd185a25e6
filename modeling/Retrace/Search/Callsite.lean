import Retrace.Search.Edge
import Retrace.Walk.Map

/-!
A formula over the entry of a callee, in the terms of the caller: formal arguments become actual ones,
the receiver and the result become those of the call. Formulas about locals of the callee, or about
the address of a formal whose actual is no location, have no counterpart.
-/

set_option autoImplicit false

namespace Retrace.Search

open Walk (Mapper)

structure Call where
  arguments : Arguments := .empty
  result : Option Expr := none
  receiver : Option Expr := none

namespace Call

def actual? (c : Call) (v : Variable) : Option Expr :=
  match v.storage with
  | .argument => c.arguments.get? v.index
  | .receiver => c.receiver
  | _ => none

def passes (v : Variable) : Bool :=
  match v.storage with
  | .argument | .receiver => true
  | _ => false

/-- The address of something passed that has no address in the caller. -/
def lacksAddress (c : Call) (e : Expr) : Bool :=
  match e.var? with
  | some v => passes v && ((c.actual? v).bind Expr.dereferenced?).isNone
  | none => false

/-- The caller's counterpart of `node`, where `value` is `node` over converted children. The address of
a formal without an address in the caller is left to the dereference around it. -/
def convert (c : Call) (value node : Expr) : Option Expr :=
  match node.shape with
  | .var v =>
    match v.storage with
    | .argument | .receiver => (c.actual? v).map fun a => a.dereferenced?.getD value
    | .result => c.result
    | .local | .temporary => none
    | .global | .function => some value
  | .access .deref t =>
    match t.var? with
    | some v => if passes v then c.actual? v else some value
    | none => some value
  | _ => if node.children.any c.lacksAddress then none else some value

end Call

/-- Converts a formula at an edge. Unrolling a loop, or entering one, leaves it as it is; at an unknown
edge nothing is passed. -/
def callsiteMapper (edge : Option Edge) (unrolling : Bool) : Mapper Id where
  map value node :=
    if unrolling then pure (some value)
    else
      match edge with
      | some (.call _ arguments result receiver) =>
        pure (Call.convert ⟨arguments, result, receiver⟩ value node)
      | some (.loop _) => pure (some value)
      | none => pure (Call.convert {} value node)

end Retrace.Search
