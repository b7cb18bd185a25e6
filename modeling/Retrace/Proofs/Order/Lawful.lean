import Retrace.Expr.Order
import Mathlib.Tactic.Common

/-!
The orders of the data in expressions are total: the names of alternatives, widths, types, fields and
variables. Orders are built by comparing one part after the other, so what has to be shown of an order
is said of three answers, and passes from the parts to the whole.
-/

set_option autoImplicit false

namespace Retrace

open Std

/-- The answer for the ends of a chain of three agrees with the answers for its links. -/
def Composes (ab bc ac : Ordering) : Prop :=
  (ab = .eq → ac = bc) ∧ (bc = .eq → ac = ab) ∧ (ab = bc → ac = ab)

namespace Composes

theorem «then» {ab bc ac ab' bc' ac' : Ordering} (h : Composes ab bc ac)
    (h' : ab = .eq → bc = .eq → Composes ab' bc' ac') :
    Composes (ab.then ab') (bc.then bc') (ac.then ac') := by
  obtain ⟨hl, hr, hs⟩ := h
  cases ab with
  | eq =>
    cases hl rfl
    cases bc with
    | eq => exact h' rfl rfl
    | lt | gt => exact ⟨fun _ => rfl, nofun, fun he => he.symm⟩
  | lt =>
    cases bc with
    | eq => cases hr rfl; exact ⟨nofun, fun _ => rfl, fun _ => rfl⟩
    | lt => cases hs rfl; exact ⟨nofun, fun _ => rfl, fun _ => rfl⟩
    | gt => exact ⟨nofun, nofun, nofun⟩
  | gt =>
    cases bc with
    | eq => cases hr rfl; exact ⟨nofun, fun _ => rfl, fun _ => rfl⟩
    | gt => cases hs rfl; exact ⟨nofun, fun _ => rfl, fun _ => rfl⟩
    | lt => exact ⟨nofun, nofun, nofun⟩

theorem isLE {ab bc ac : Ordering} (h : Composes ab bc ac) (hab : ab.isLE = true)
    (hbc : bc.isLE = true) : ac.isLE = true := by
  obtain ⟨hl, hr, hs⟩ := h
  cases ab with
  | eq => rw [hl rfl]; exact hbc
  | lt =>
    cases bc with
    | eq => rw [hr rfl]; exact hab
    | lt => rw [hs rfl]; exact hab
    | gt => cases hbc
  | gt => cases hab

variable {α : Type} {cmp : α → α → Ordering}

theorem of_transCmp (cmp : α → α → Ordering) [TransCmp cmp] (a b c : α) :
    Composes (cmp a b) (cmp b c) (cmp a c) := by
  refine ⟨fun h => TransCmp.congr_left h, fun h => (TransCmp.congr_right h).symm, fun h => ?_⟩
  cases hab : cmp a b with
  | lt => exact TransCmp.lt_trans hab (h.symm.trans hab)
  | eq => exact TransCmp.eq_trans hab (h.symm.trans hab)
  | gt => exact TransCmp.gt_trans hab (h.symm.trans hab)

theorem of_compare [Ord α] [TransOrd α] (a b c : α) :
    Composes (compare a b) (compare b c) (compare a c) := of_transCmp compare a b c

theorem transCmp (swap : ∀ a b, cmp a b = (cmp b a).swap)
    (h : ∀ a b c, Composes (cmp a b) (cmp b c) (cmp a c)) : TransCmp cmp where
  eq_swap := swap _ _
  isLE_trans := (h _ _ _).isLE

end Composes

theorem eq_of_eq_swap {x : Ordering} (h : x = x.swap) : x = .eq := by
  cases x <;> first | rfl | cases h

theorem swap_then {x y x' y' : Ordering} (h : x = x'.swap) (h' : x = .eq → y = y'.swap) :
    x.then y = (x'.then y').swap := by
  rw [Ordering.swap_then, ← h]
  cases x with
  | eq => exact h' rfl
  | lt | gt => rfl

class LawfulChoice (α : Type) [Choice α] : Prop where
  getElem?_position : ∀ a : α, (Choice.all : List α)[Choice.position a]? = some a

namespace Choice

variable {α : Type} [Choice α] [LawfulChoice α]

theorem position_injective (a b : α) (h : position a = position b) : a = b := by
  have ha := LawfulChoice.getElem?_position a
  rw [h, LawfulChoice.getElem?_position b] at ha
  exact (Option.some.inj ha).symm

instance : TransCmp (order : α → α → Ordering) :=
  inferInstanceAs (TransCmp (compareOn position))

instance : LawfulEqCmp (order : α → α → Ordering) where
  compare_self := Std.compare_eq_iff_eq.2 rfl
  eq_of_compare h := position_injective _ _ (Std.compare_eq_iff_eq.1 h)

end Choice

instance : LawfulChoice Storage := ⟨fun a => by cases a <;> rfl⟩
instance : LawfulChoice UnOp := ⟨fun a => by cases a <;> rfl⟩
instance : LawfulChoice BinOp := ⟨fun a => by cases a <;> rfl⟩
instance : LawfulChoice BoundSide := ⟨fun a => by cases a <;> rfl⟩

namespace Width

instance : TransCmp order :=
  inferInstanceAs (TransCmp (compareLex (compareOn bits) (compareOn signed)))

instance : LawfulEqCmp order where
  compare_self := by simp [order]
  eq_of_compare {a b} h := by
    obtain ⟨bits, signed⟩ := a
    simp only [order, Ordering.then_eq_eq, Std.compare_eq_iff_eq] at h
    obtain ⟨rfl, rfl⟩ := h
    rfl

end Width

namespace Variable

instance : TransCmp order := by
  refine Composes.transCmp (fun a b => ?_) fun a b c => ?_
  · exact swap_then (swap_then OrientedCmp.eq_swap fun _ => OrientedCmp.eq_swap)
      fun _ => OrientedCmp.eq_swap
  · exact ((Composes.of_transCmp _ _ _ _).then fun _ _ => .of_transCmp _ _ _ _).then
      fun _ _ => .of_transCmp _ _ _ _

instance : LawfulEqCmp order where
  compare_self := by simp [order]
  eq_of_compare {a b} h := by
    obtain ⟨storage, index, name⟩ := a
    simp only [order, Ordering.then_eq_eq, LawfulEqCmp.compare_eq_iff_eq] at h
    obtain ⟨⟨rfl, rfl⟩, rfl⟩ := h
    rfl

end Variable

namespace CType

theorem order_eq_then (a b : CType) : order a b = (compare a.position b.position).then (order a b) := by
  cases a <;> cases b <;> simp [order, position]

theorem order_swap (a b : CType) : order a b = (order b a).swap := by
  induction a generalizing b with
  | void | function => cases b <;> rfl
  | int n s =>
    cases b with
    | int n' s' => exact swap_then OrientedOrd.eq_swap fun _ => OrientedOrd.eq_swap
    | _ => rfl
  | float n =>
    cases b with
    | float n' => exact OrientedOrd.eq_swap
    | _ => rfl
  | pointer t ih =>
    cases b with
    | pointer t' => exact ih t'
    | _ => rfl
  | array t n ih =>
    cases b with
    | array t' n' => exact swap_then (ih t') fun _ => OrientedOrd.eq_swap
    | _ => rfl
  | aggregate n =>
    cases b with
    | aggregate n' => exact OrientedOrd.eq_swap
    | _ => rfl

theorem composes_of_position (a b c : CType)
    (h : a.position = b.position → b.position = c.position →
      Composes (order a b) (order b c) (order a c)) :
    Composes (order a b) (order b c) (order a c) := by
  have hall := (Composes.of_transCmp compare a.position b.position c.position).then fun hab hbc =>
    h (Std.compare_eq_iff_eq.1 hab) (Std.compare_eq_iff_eq.1 hbc)
  rwa [← order_eq_then a b, ← order_eq_then b c, ← order_eq_then a c] at hall

theorem order_composes (a b c : CType) : Composes (order a b) (order b c) (order a c) := by
  induction a generalizing b c with
  | void | function =>
    refine composes_of_position _ b c fun hab hbc => ?_
    cases b <;> cases hab
    cases c <;> cases hbc
    exact ⟨fun _ => rfl, fun _ => rfl, fun _ => rfl⟩
  | int n s =>
    refine composes_of_position _ b c fun hab hbc => ?_
    cases b <;> cases hab
    cases c <;> cases hbc
    exact (Composes.of_transCmp _ _ _ _).then fun _ _ => .of_transCmp _ _ _ _
  | float n | aggregate n =>
    refine composes_of_position _ b c fun hab hbc => ?_
    cases b <;> cases hab
    cases c <;> cases hbc
    exact .of_compare _ _ _
  | pointer t ih =>
    refine composes_of_position _ b c fun hab hbc => ?_
    cases b <;> cases hab
    cases c <;> cases hbc
    exact ih _ _
  | array t n ih =>
    refine composes_of_position _ b c fun hab hbc => ?_
    cases b <;> cases hab
    cases c <;> cases hbc
    exact (ih _ _).then fun _ _ => .of_transCmp _ _ _ _

theorem eq_of_order (a b : CType) (h : order a b = .eq) : a = b := by
  induction a generalizing b with
  | void | function => cases b <;> first | rfl | cases h
  | int n s =>
    cases b with
    | int n' s' =>
      simp only [order, Ordering.then_eq_eq, Std.compare_eq_iff_eq] at h
      rw [h.1, h.2]
    | _ => cases h
  | float n =>
    cases b with
    | float n' => rw [Std.compare_eq_iff_eq.1 h]
    | _ => cases h
  | pointer t ih =>
    cases b with
    | pointer t' => rw [ih t' h]
    | _ => cases h
  | array t n ih =>
    cases b with
    | array t' n' =>
      simp only [order, Ordering.then_eq_eq, Std.compare_eq_iff_eq] at h
      rw [ih t' h.1, h.2]
    | _ => cases h
  | aggregate n =>
    cases b with
    | aggregate n' => rw [LawfulEqOrd.eq_of_compare h]
    | _ => cases h

instance : TransCmp order := Composes.transCmp order_swap order_composes

instance : LawfulEqCmp order where
  compare_self := eq_of_eq_swap (order_swap _ _)
  eq_of_compare h := eq_of_order _ _ h

end CType

namespace Field

instance : TransCmp order := by
  refine Composes.transCmp (fun a b => ?_) fun a b c => ?_
  · exact swap_then (swap_then OrientedCmp.eq_swap fun _ => OrientedCmp.eq_swap)
      fun _ => OrientedCmp.eq_swap
  · exact ((Composes.of_transCmp _ _ _ _).then fun _ _ => .of_transCmp _ _ _ _).then
      fun _ _ => .of_transCmp _ _ _ _

instance : LawfulEqCmp order where
  compare_self := by simp [order]
  eq_of_compare {a b} h := by
    obtain ⟨name, owner, type⟩ := a
    simp only [order, Ordering.then_eq_eq, LawfulEqCmp.compare_eq_iff_eq] at h
    obtain ⟨⟨rfl, rfl⟩, rfl⟩ := h
    rfl

end Field

section Optional

variable {α : Type} {cmp : α → α → Ordering}

theorem orderOption_swap (a b : Option α) (h : ∀ x ∈ a, ∀ y, cmp x y = (cmp y x).swap) :
    orderOption cmp a b = (orderOption cmp b a).swap := by
  match a, b with
  | none, none | none, some _ | some _, none => rfl
  | some x, some y => exact h x rfl y

theorem orderOption_composes (a b c : Option α)
    (h : ∀ x ∈ a, ∀ y z, Composes (cmp x y) (cmp y z) (cmp x z)) :
    Composes (orderOption cmp a b) (orderOption cmp b c) (orderOption cmp a c) := by
  match a, b, c with
  | none, none, _ => exact ⟨fun _ => rfl, fun h => h, fun h => h.symm⟩
  | some _, none, none => exact ⟨nofun, fun _ => rfl, nofun⟩
  | some _, none, some _ => exact ⟨nofun, nofun, nofun⟩
  | none, some _, none => exact ⟨nofun, nofun, nofun⟩
  | none, some _, some _ => exact ⟨nofun, fun _ => rfl, fun _ => rfl⟩
  | some _, some _, none => exact ⟨fun _ => rfl, nofun, fun h => h.symm⟩
  | some x, some y, some z => exact h x rfl y z

theorem eq_of_orderOption (a b : Option α) (h : ∀ x ∈ a, ∀ y, cmp x y = .eq → x = y)
    (hab : orderOption cmp a b = .eq) : a = b := by
  match a, b, hab with
  | none, none, _ => rfl
  | some x, some y, hab => rw [h x rfl y hab]

instance [TransCmp cmp] : TransCmp (orderOption cmp) :=
  Composes.transCmp (fun a b => orderOption_swap a b fun _ _ _ => OrientedCmp.eq_swap)
    fun a b c => orderOption_composes a b c fun x _ y z => .of_transCmp cmp x y z

instance [ReflCmp cmp] : ReflCmp (orderOption cmp) where
  compare_self {a} := by
    cases a with
    | none => rfl
    | some a => exact @ReflCmp.compare_self α cmp _ a

instance [LawfulEqCmp cmp] : LawfulEqCmp (orderOption cmp) where
  eq_of_compare h := eq_of_orderOption _ _ (fun _ _ _ => LawfulEqCmp.eq_of_compare) h

end Optional

section Lexicographic

variable {α : Type} {cmp : α → α → Ordering}

/-- In a recursive order the laws are known of the elements of the first list only. -/
theorem compareLex_swap (as bs : List α) (h : ∀ x ∈ as, ∀ y, cmp x y = (cmp y x).swap) :
    as.compareLex cmp bs = (bs.compareLex cmp as).swap := by
  induction as generalizing bs with
  | nil => cases bs <;> rfl
  | cons a as ih =>
    obtain ⟨ha, has⟩ := List.forall_mem_cons.1 h
    cases bs with
    | nil => rfl
    | cons b bs =>
      rw [List.compareLex_cons_cons, List.compareLex_cons_cons]
      exact swap_then (ha b) fun _ => ih bs has

theorem compareLex_composes (as bs cs : List α)
    (h : ∀ x ∈ as, ∀ y z, Composes (cmp x y) (cmp y z) (cmp x z)) :
    Composes (as.compareLex cmp bs) (bs.compareLex cmp cs) (as.compareLex cmp cs) := by
  induction as generalizing bs cs with
  | nil =>
    match bs, cs with
    | [], _ => exact ⟨fun _ => rfl, fun h => h, fun h => h.symm⟩
    | _ :: _, [] => exact ⟨nofun, nofun, nofun⟩
    | _ :: _, _ :: _ => exact ⟨nofun, fun _ => rfl, fun _ => rfl⟩
  | cons a as ih =>
    obtain ⟨ha, has⟩ := List.forall_mem_cons.1 h
    match bs, cs with
    | [], [] => exact ⟨nofun, fun _ => rfl, nofun⟩
    | [], _ :: _ => exact ⟨nofun, nofun, nofun⟩
    | _ :: _, [] => exact ⟨fun _ => rfl, nofun, fun h => h.symm⟩
    | b :: bs, c :: cs =>
      rw [List.compareLex_cons_cons, List.compareLex_cons_cons, List.compareLex_cons_cons]
      exact (ha b c).then fun _ _ => ih bs cs has

theorem eq_of_compareLex (as bs : List α) (h : ∀ x ∈ as, ∀ y, cmp x y = .eq → x = y)
    (hab : as.compareLex cmp bs = .eq) : as = bs := by
  induction as generalizing bs with
  | nil => exact (List.compareLex_nil_left_eq_eq.1 hab).symm
  | cons a as ih =>
    obtain ⟨ha, has⟩ := List.forall_mem_cons.1 h
    cases bs with
    | nil => cases hab
    | cons b bs =>
      rw [List.compareLex_cons_cons, Ordering.then_eq_eq] at hab
      rw [ha b hab.1, ih bs has hab.2]

end Lexicographic

end Retrace
