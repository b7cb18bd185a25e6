import Retrace.Expr.Equality

/-!
The canonical order of expressions: by digest, then by kind, width, the data of the node, and its
sub-expressions from left to right.
-/

set_option autoImplicit false

namespace Retrace

def orderOption {α : Type} (order : α → α → Ordering) : Option α → Option α → Ordering
  | none, none => .eq
  | none, some _ => .lt
  | some _, none => .gt
  | some a, some b => order a b

namespace Shape

variable {α β : Type}

/-- The sub-expressions, with an empty slot for one that is left out. -/
def slots : Shape α → List (Option α)
  | access _ t => [some t]
  | index t _ i => [some t, some i]
  | unary _ _ e => [some e]
  | binary _ _ _ l r => [some l, some r]
  | clobber c k o _ => [some c, k, some o]
  | moment _ t k => [some t, k]
  | value l k _ _ => [some l, k]
  | frame v _ => [some v]
  | bound _ t _ => [t]
  | terminator t _ test sentinel => [t, some test, some sentinel]
  | _ => []

/-- The order of two layers of one rank, leaving widths and sub-expressions aside. -/
def orderData : Shape α → Shape β → Ordering
  | var v, var v' => v.order v'
  | text b, text b' => compare b b'
  | int v, int v' => compare v v'
  | float v, float v' => compare v v'
  | guard p, guard p' => compare p p'
  | access (.field f) _, access (.field f') _ => f.order f'
  | access (.container f) _, access (.container f') _ => f.order f'
  | access (.vtable n) _, access (.vtable n') _ => compare n n'
  | index _ t _, index _ t' _ => t.order t'
  | unary op _ _, unary op' _ _ => Choice.order op op'
  | binary op _ s _ _, binary op' _ s' _ _ =>
    (Choice.order op op').then (orderOption CType.order s s')
  | clobber _ _ _ p, clobber _ _ _ p' => compare p p'
  | value _ _ p r, value _ _ p' r' => (compare p p').then (compare r r')
  | frame _ i, frame _ i' => compare i i'
  | bound b _ s, bound b' _ s' => (Choice.order b b').then (s.order s')
  | terminator _ s _ _, terminator _ s' _ _ => s.order s'
  | _, _ => .eq

end Shape

namespace Expr

/-- Compares slots pairwise. An empty slot comes first. -/
def orderSlots : List (Option (Expr → Ordering)) → List (Option Expr) → Ordering
  | none :: as, none :: bs => orderSlots as bs
  | none :: _, some _ :: _ => .lt
  | some _ :: _, none :: _ => .gt
  | some f :: as, some b :: bs => (f b).then (orderSlots as bs)
  | [], [] => .eq
  | [], _ :: _ => .lt
  | _ :: _, [] => .gt

mutual
def order : Expr → Expr → Ordering
  | node d s, b =>
    if node d s = b then .eq
    else
      (compare d.state b.digest.state).then <|
      (compare s.rank b.shape.rank).then <|
      (s.width.order b.shape.width).then <|
      (s.orderData b.shape).then (orderSlots (orderings s) b.shape.slots)
def orderings : Shape Expr → List (Option (Expr → Ordering))
  | .access _ t => [some (order t)]
  | .index t _ i => [some (order t), some (order i)]
  | .unary _ _ e => [some (order e)]
  | .binary _ _ _ l r => [some (order l), some (order r)]
  | .clobber c k o _ => [some (order c), ordering k, some (order o)]
  | .moment _ t k => [some (order t), ordering k]
  | .value l k _ _ => [some (order l), ordering k]
  | .frame v _ => [some (order v)]
  | .bound _ t _ => [ordering t]
  | .terminator t _ test sentinel => [ordering t, some (order test), some (order sentinel)]
  | .empty | .var _ | .text _ | .int _ | .float _ | .guard _ => []
def ordering : Option Expr → Option (Expr → Ordering)
  | none => none
  | some e => some (order e)
end

theorem orderings_eq (s : Shape Expr) : orderings s = s.slots.map (Option.map order) := by
  cases s with
  | clobber c k o p => cases k <;> rfl
  | moment m t k => cases k <;> rfl
  | value l k p r => cases k <;> rfl
  | bound b t s => cases t <;> rfl
  | terminator t s u v => cases t <;> rfl
  | _ => rfl

end Expr
end Retrace
