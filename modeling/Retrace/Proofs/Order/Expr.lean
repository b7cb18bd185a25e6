import Retrace.Proofs.Order.Lawful

/-!
The canonical order of expressions is total, whatever digests the nodes store. Layers of one kind are
compared by their data and then by their sub-expressions, so an induction over the parts of the first
of the expressions carries each law.
-/

set_option autoImplicit false

namespace Retrace

open Std

namespace Shape

variable {α : Type}

inductive SameKind : Shape α → Shape α → Prop
  | empty : SameKind .empty .empty
  | var (v v' : Variable) : SameKind (.var v) (.var v')
  | text (bytes bytes' : List UInt8) : SameKind (.text bytes) (.text bytes')
  | int (v v' : Int) : SameKind (.int v) (.int v')
  | float (digits digits' : String) : SameKind (.float digits) (.float digits')
  | guard (p p' : Nat) : SameKind (.guard p) (.guard p')
  | deref (t t' : α) : SameKind (.access .deref t) (.access .deref t')
  | field (f f' : Field) (t t' : α) : SameKind (.access (.field f) t) (.access (.field f') t')
  | container (f f' : Field) (t t' : α) :
    SameKind (.access (.container f) t) (.access (.container f') t')
  | vtable (n n' : Nat) (t t' : α) : SameKind (.access (.vtable n) t) (.access (.vtable n') t')
  | index (t t' : α) (e e' : CType) (i i' : α) : SameKind (.index t e i) (.index t' e' i')
  | unary (op op' : UnOp) (w w' : Width) (e e' : α) : SameKind (.unary op w e) (.unary op' w' e')
  | binary (op op' : BinOp) (w w' : Width) (s s' : Option CType) (l l' r r' : α) :
    SameKind (.binary op w s l r) (.binary op' w' s' l' r')
  | clobber (c c' : α) (k k' : Option α) (o o' : α) (p p' : Nat) :
    SameKind (.clobber c k o p) (.clobber c' k' o' p')
  | moment (m : Moment) (t t' : α) (k k' : Option α) : SameKind (.moment m t k) (.moment m t' k')
  | value (l l' : α) (k k' : Option α) (p p' : Nat) (r r' : Bool) :
    SameKind (.value l k p r) (.value l' k' p' r')
  | frame (v v' : α) (i i' : Nat) : SameKind (.frame v i) (.frame v' i')
  | bound (b b' : BoundSide) (t t' : Option α) (s s' : CType) :
    SameKind (.bound b t s) (.bound b' t' s')
  | terminator (t t' : Option α) (s s' : CType) (u u' v v' : α) :
    SameKind (.terminator t s u v) (.terminator t' s' u' v')

theorem sameKind_of_rank (a b : Shape α) (h : a.rank = b.rank) : SameKind a b := by
  rcases a with
    _ | _ | _ | _ | _ | _ | ⟨_ | _ | _ | _, _⟩ | _ | _ | _ | _ | ⟨_ | _, _, _⟩ | _ | _ | _ | _ <;>
  rcases b with
    _ | _ | _ | _ | _ | _ | ⟨_ | _ | _ | _, _⟩ | _ | _ | _ | _ | ⟨_ | _, _, _⟩ | _ | _ | _ | _ <;>
  first | constructor | cases h

theorem orderData_swap {a b : Shape α} (h : SameKind a b) : a.orderData b = (b.orderData a).swap := by
  cases h with
  | empty | deref | moment => rfl
  | var v v' => exact @OrientedCmp.eq_swap _ Variable.order _ v v'
  | text | int | float | guard | vtable | clobber | frame => exact OrientedOrd.eq_swap
  | field f f' | container f f' => exact @OrientedCmp.eq_swap _ Field.order _ f f'
  | index _ _ e e' => exact @OrientedCmp.eq_swap _ CType.order _ e e'
  | terminator _ _ s s' => exact @OrientedCmp.eq_swap _ CType.order _ s s'
  | unary op op' => exact @OrientedCmp.eq_swap _ Choice.order _ op op'
  | binary | value | bound => exact swap_then OrientedCmp.eq_swap fun _ => OrientedCmp.eq_swap

theorem orderData_composes {a b c : Shape α} (h : SameKind a b) (h' : SameKind b c) :
    Composes (a.orderData b) (b.orderData c) (a.orderData c) := by
  cases h with
  | empty | deref | moment =>
    cases h'
    exact ⟨fun _ => rfl, fun _ => rfl, fun _ => rfl⟩
  | var v v' =>
    cases h'
    exact .of_transCmp Variable.order v v' _
  | text | int | float | guard | vtable | clobber | frame =>
    cases h'
    exact .of_compare _ _ _
  | field f f' | container f f' =>
    cases h'
    exact .of_transCmp Field.order f f' _
  | index _ _ s s' | terminator _ _ s s' =>
    cases h'
    exact .of_transCmp CType.order s s' _
  | unary op op' =>
    cases h'
    exact .of_transCmp Choice.order op op' _
  | binary op op' _ _ s s' =>
    cases h'
    exact (Composes.of_transCmp Choice.order op op' _).then fun _ _ =>
      .of_transCmp (orderOption CType.order) s s' _
  | value _ _ _ _ p p' r r' =>
    cases h'
    exact (Composes.of_compare p p' _).then fun _ _ => .of_compare r r' _
  | bound b b' _ _ s s' =>
    cases h'
    exact (Composes.of_transCmp Choice.order b b' _).then fun _ _ => .of_transCmp CType.order s s' _

theorem eq_of_orderData {a b : Shape α} (h : SameKind a b) (hw : a.width = b.width)
    (hd : a.orderData b = .eq) (hs : a.slots = b.slots) : a = b := by
  cases h <;> simp only [orderData, Ordering.then_eq_eq,
    LawfulEqCmp.compare_eq_iff_eq] at hd <;> simp_all [slots, width]

theorem orderData_self (a : Shape α) : a.orderData a = .eq :=
  eq_of_eq_swap (orderData_swap (sameKind_of_rank a a rfl))

theorem mem_parts_of_mem_slots {a : Shape α} {x : α} (h : some x ∈ a.slots) : x ∈ a.parts := by
  have hall : a.slots.filterMap id = a.parts := by
    cases a with
    | clobber c k o p => cases k <;> rfl
    | moment m t k => cases k <;> rfl
    | value l k p r => cases k <;> rfl
    | bound b t s => cases t <;> rfl
    | terminator t s u v => cases t <;> rfl
    | _ => rfl
  rw [← hall, List.mem_filterMap]
  exact ⟨some x, h, rfl⟩

end Shape

namespace Expr

theorem orderSlots_eq (as bs : List (Option Expr)) :
    orderSlots (as.map (Option.map order)) bs = as.compareLex (orderOption order) bs := by
  induction as generalizing bs with
  | nil => cases bs <;> rfl
  | cons a as ih =>
    cases bs with
    | nil => cases a <;> rfl
    | cons b bs =>
      rw [List.compareLex_cons_cons, ← ih]
      cases a <;> cases b <;> rfl

theorem order_self (a : Expr) : a.order a = .eq := by
  obtain ⟨d, s⟩ := a
  rw [order, if_pos rfl]

instance : ReflCmp order := ⟨order_self _⟩

/-- The order goes through digest, kind, width, data and sub-expressions. That a node is not compared
with itself makes no difference. -/
theorem order_eq (a b : Expr) :
    a.order b = (compare a.digest.state b.digest.state).then
      ((compare a.shape.rank b.shape.rank).then
        ((a.shape.width.order b.shape.width).then
          ((a.shape.orderData b.shape).then
            (a.shape.slots.compareLex (orderOption order) b.shape.slots)))) := by
  obtain ⟨d, s⟩ := a
  by_cases h : node d s = b
  · subst h
    simp [Shape.orderData_self, ReflCmp.compare_self]
  · rw [order, if_neg h, orderings_eq, orderSlots_eq]
    rfl

variable {a : Expr}

theorem mem_parts_of_mem_slots {x : Expr} {k : Option Expr} (hk : k ∈ a.shape.slots) (hx : x ∈ k) :
    x ∈ a.parts :=
  Shape.mem_parts_of_mem_slots (Option.mem_def.1 hx ▸ hk)

theorem order_swap (a b : Expr) : a.order b = (b.order a).swap := by
  induction a using inductionOnParts generalizing b with
  | step a ih =>
    rw [order_eq a b, order_eq b a]
    refine swap_then OrientedOrd.eq_swap fun _ => swap_then OrientedOrd.eq_swap fun hr => ?_
    refine swap_then OrientedCmp.eq_swap fun _ => swap_then ?_ fun _ => ?_
    · exact Shape.orderData_swap (Shape.sameKind_of_rank _ _ (Std.compare_eq_iff_eq.1 hr))
    · exact compareLex_swap _ _ fun k hk l =>
        orderOption_swap k l fun x hx => ih x (mem_parts_of_mem_slots hk hx)

theorem order_composes (a b c : Expr) : Composes (a.order b) (b.order c) (a.order c) := by
  induction a using inductionOnParts generalizing b c with
  | step a ih =>
    rw [order_eq a b, order_eq b c, order_eq a c]
    refine (Composes.of_compare _ _ _).then fun _ _ => (Composes.of_compare _ _ _).then fun hab hbc => ?_
    refine (Composes.of_transCmp Width.order _ _ _).then fun _ _ => Composes.then ?_ fun _ _ => ?_
    · exact Shape.orderData_composes (Shape.sameKind_of_rank _ _ (Std.compare_eq_iff_eq.1 hab))
        (Shape.sameKind_of_rank _ _ (Std.compare_eq_iff_eq.1 hbc))
    · exact compareLex_composes _ _ _ fun k hk l m =>
        orderOption_composes k l m fun x hx => ih x (mem_parts_of_mem_slots hk hx)

theorem eq_of_order (a b : Expr) (h : a.order b = .eq) : a = b := by
  induction a using inductionOnParts generalizing b with
  | step a ih =>
    obtain ⟨⟨d⟩, s⟩ := a
    obtain ⟨⟨d'⟩, s'⟩ := b
    rw [order_eq] at h
    simp only [Ordering.then_eq_eq, LawfulEqCmp.compare_eq_iff_eq, digest_node, shape_node] at h
    obtain ⟨rfl, hr, hw, hd, hs⟩ := h
    have hslots : s.slots = s'.slots := eq_of_compareLex _ _ (fun k hk l =>
      eq_of_orderOption k l fun x hx => ih x (mem_parts_of_mem_slots hk hx)) hs
    rw [Shape.eq_of_orderData (Shape.sameKind_of_rank _ _ hr) hw hd hslots]

instance : TransCmp order := Composes.transCmp order_swap order_composes

instance : LawfulEqCmp order := ⟨eq_of_order _ _⟩

end Expr
end Retrace
