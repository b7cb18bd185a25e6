import Retrace.Walk.Map

/-!
References to other frames. Inside the frame that a value belongs to, the value needs no reference.
-/

set_option autoImplicit false

namespace Retrace.Search

open Walk (Mapper)

def withoutReference (id : Nat) (e : Expr) : Expr :=
  match e.shape with
  | .frame inner owner => if owner = id then inner else e
  | _ => e

def referenceMapper (id : Nat) : Mapper Id where
  map value _ := pure (some (withoutReference id value))

def dropReferences? (id : Nat) (f : Formula) : Except Fault (Option Formula) :=
  (Walk.mapFormula .all .drop (referenceMapper id) f).run

def dropReferences (id : Nat) (f : Formula) : Except Fault Formula := do
  match ← dropReferences? id f with
  | some g => return g
  | none => throw .frameRemovalDropped

end Retrace.Search
