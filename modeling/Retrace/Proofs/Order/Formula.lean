import Retrace.Formula.Order
import Retrace.Proofs.Order.Expr

/-!
The canonical order of formulas is total. Their operands are compared after their number, so the
comparison from left to right never runs out of operands on one side only.
-/

set_option autoImplicit false

namespace Retrace

open Std

namespace Clause

variable {α : Type}

inductive SameKind : Clause α → Clause α → Prop
  | const (v v' : Bool) : SameKind (.const v) (.const v')
  | nonzero (e e' : Expr) : SameKind (.nonzero e) (.nonzero e')
  | not (f f' : α) : SameKind (.not f) (.not f')
  | junction (k : Connective) (fs gs : List α) : SameKind (.junction k fs) (.junction k gs)

theorem sameKind_of_rank (a b : Clause α) (h : a.rank = b.rank) : SameKind a b := by
  rcases a with _ | _ | _ | ⟨_ | _, _⟩ <;> rcases b with _ | _ | _ | ⟨_ | _, _⟩ <;>
  first | constructor | cases h

theorem orderData_swap {a b : Clause α} (h : SameKind a b) : a.orderData b = (b.orderData a).swap := by
  cases h with
  | const v v' => exact OrientedOrd.eq_swap
  | nonzero e e' => exact Expr.order_swap e e'
  | not | junction => rfl

theorem orderData_composes {a b c : Clause α} (h : SameKind a b) (h' : SameKind b c) :
    Composes (a.orderData b) (b.orderData c) (a.orderData c) := by
  cases h with
  | const v v' =>
    cases h'
    exact .of_compare v v' _
  | nonzero e e' =>
    cases h'
    exact Expr.order_composes e e' _
  | not | junction =>
    cases h'
    exact ⟨fun _ => rfl, fun _ => rfl, fun _ => rfl⟩

theorem eq_of_orderData {a b : Clause α} (h : SameKind a b) (hd : a.orderData b = .eq)
    (ho : a.operands = b.operands) : a = b := by
  cases h with
  | const v v' => rw [Std.compare_eq_iff_eq.1 hd]
  | nonzero e e' => rw [Expr.eq_of_order e e' hd]
  | not f f' => rw [(List.cons.inj ho).1]
  | junction k fs gs =>
    have hfs : fs = gs := ho
    rw [hfs]

end Clause

namespace Formula

theorem orderOperands_eq (fs gs : List Formula) :
    orderOperands (fs.map order) gs = fs.compareLex order gs := by
  induction fs generalizing gs with
  | nil => cases gs <;> rfl
  | cons f fs ih =>
    cases gs with
    | nil => rfl
    | cons g gs =>
      rw [List.compareLex_cons_cons, ← ih]
      rfl

theorem order_self (f : Formula) : f.order f = .eq := by
  obtain ⟨d, c⟩ := f
  rw [order, if_pos rfl]

instance : ReflCmp order := ⟨order_self _⟩

/-- The order goes through digest, kind, data, number of operands and operands. That a formula is not
compared with itself makes no difference. -/
theorem order_eq (f g : Formula) :
    f.order g = (compare f.digest.state g.digest.state).then
      ((compare f.clause.rank g.clause.rank).then
        ((f.clause.orderData g.clause).then
          ((compare f.operands.length g.operands.length).then
            (f.operands.compareLex order g.operands)))) := by
  obtain ⟨d, c⟩ := f
  by_cases h : node d c = g
  · subst h
    have hd := eq_of_eq_swap (Clause.orderData_swap (Clause.sameKind_of_rank c c rfl))
    simp [hd, ReflCmp.compare_self]
  · rw [order, if_neg h, orderings_eq, orderOperands_eq]
    rfl

theorem order_swap (f g : Formula) : f.order g = (g.order f).swap := by
  induction f using inductionOnOperands generalizing g with
  | step f ih =>
    rw [order_eq f g, order_eq g f]
    refine swap_then OrientedOrd.eq_swap fun _ => swap_then OrientedOrd.eq_swap fun hr => ?_
    refine swap_then ?_ fun _ => swap_then OrientedOrd.eq_swap fun _ => ?_
    · exact Clause.orderData_swap (Clause.sameKind_of_rank _ _ (Std.compare_eq_iff_eq.1 hr))
    · exact compareLex_swap _ _ ih

theorem order_composes (f g h : Formula) : Composes (f.order g) (g.order h) (f.order h) := by
  induction f using inductionOnOperands generalizing g h with
  | step f ih =>
    rw [order_eq f g, order_eq g h, order_eq f h]
    refine (Composes.of_compare _ _ _).then fun _ _ => (Composes.of_compare _ _ _).then fun hfg hgh => ?_
    refine Composes.then ?_ fun _ _ => (Composes.of_compare _ _ _).then fun _ _ => ?_
    · exact Clause.orderData_composes (Clause.sameKind_of_rank _ _ (Std.compare_eq_iff_eq.1 hfg))
        (Clause.sameKind_of_rank _ _ (Std.compare_eq_iff_eq.1 hgh))
    · exact compareLex_composes _ _ _ ih

theorem eq_of_order (f g : Formula) (h : f.order g = .eq) : f = g := by
  induction f using inductionOnOperands generalizing g with
  | step f ih =>
    obtain ⟨⟨d⟩, c⟩ := f
    obtain ⟨⟨d'⟩, c'⟩ := g
    rw [order_eq] at h
    simp only [Ordering.then_eq_eq, LawfulEqCmp.compare_eq_iff_eq, digest_node, clause_node] at h
    obtain ⟨rfl, hr, hd, _, ho⟩ := h
    have hops : c.operands = c'.operands := eq_of_compareLex _ _ ih ho
    rw [Clause.eq_of_orderData (Clause.sameKind_of_rank _ _ hr) hd hops]

instance : TransCmp order := Composes.transCmp order_swap order_composes

instance : LawfulEqCmp order := ⟨eq_of_order _ _⟩

end Formula
end Retrace
