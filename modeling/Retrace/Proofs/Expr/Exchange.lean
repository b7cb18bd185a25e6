import Retrace.Proofs.Expr.Obtainable
import Mathlib.Data.List.Forall2

/-!
What becomes of a node when locations below it are exchanged for other ones. Nodes that were built are
simplified as far as their factories go. Constants stay, so nothing folds, and operators keep suiting the
nodes around them; only going in and out of a field can cancel, where what came in brings the one step along.
-/

set_option autoImplicit false

namespace Retrace

/-- What the factories would simplify does not stand in the layer. -/
def Shape.Reduced : Shape Expr → Prop
  | .unary .coerce w _ => w.bits ≠ 0
  | .unary .neg _ a => ∀ w inner, a.shape ≠ .unary .neg w inner
  | .binary op _ _ l r => Expr.identity? op l r = none
  | .access (.field f) t => ∀ inner, t.shape ≠ .access (.container f) inner
  | .access (.container f) t => ∀ inner, t.shape ≠ .access (.field f) inner
  | _ => True

namespace Expr

structure Standing (e : Expr) : Prop where
  reduced : e.shape.Reduced
  accepts : e.acceptsTarget e.children = true
  leaf : e.children = [] → e.shape.make = .ok e

variable {s : Shape Expr} {e t : Expr}

theorem standing_of (hreduced : s.Reduced) (haccepts : (of s).acceptsTarget s.children = true)
    (hne : s.children ≠ []) : (of s).Standing :=
  ⟨hreduced, haccepts, fun hleaf => absurd hleaf hne⟩

theorem standing_int (v : Int) : (int v).Standing := ⟨trivial, rfl, fun _ => rfl⟩

theorem standing_leaf (hleaf : s.children = []) (h : s.make = .ok e) : e.Standing := by
  have heq := eq_of_make hleaf h
  have hreduced : s.Reduced := by
    cases s with
    | access | index | unary | binary => cases hleaf
    | _ => trivial
  have haccepts : (of s).acceptsTarget s.children = true := by
    rw [hleaf]
    unfold acceptsTarget
    split <;> trivial
  rw [heq] at h ⊢
  exact ⟨hreduced, haccepts, fun _ => h⟩

theorem standing_field {f : Field} (ht : t.Everywhere Standing) (h : field t f = .ok e) : e.Standing := by
  rcases field_cases h with ⟨hreduced, rfl⟩ | hshape
  · exact standing_of hreduced (checkLvalueTarget_of_bind h) (by simp [Shape.children])
  · exact (ht.part (by simp [parts, hshape, Shape.parts])).here

theorem standing_container {f : Field} (ht : t.Everywhere Standing) (h : container t f = .ok e) :
    e.Standing := by
  rcases container_cases h with ⟨hreduced, rfl⟩ | hshape
  · exact standing_of hreduced (checkLvalueTarget_of_bind h) (by simp [Shape.children])
  · exact (ht.part (by simp [parts, hshape, Shape.parts])).here

theorem standing_unary (op : UnOp) (w : Width) (ht : t.Everywhere Standing) : (unary op w t).Standing := by
  unfold unary
  split
  · exact standing_int _
  split
  · exact ht.here
  rename_i hconversion
  split
  · have hshape := ‹t.shape = .unary .neg _ _›
    exact (ht.part (by simp [parts, hshape, Shape.parts])).here
  · exact standing_of trivial rfl (by simp [Shape.children])
  · rename_i op _ _ _ _ hneg
    refine standing_of ?_ rfl (by simp [Shape.children])
    cases op with
    | coerce => exact fun hbits => hconversion ⟨rfl, hbits⟩
    | neg => exact fun w' inner hshape => hneg w' inner rfl hshape
    | _ => trivial

theorem standing_simplifyBinary (op : BinOp) (w : Width) (stride : Option CType) {l r : Expr} (hl : l.Standing)
    (hr : r.Standing) : (simplifyBinary op w stride l r).Standing := by
  unfold simplifyBinary
  split
  · exact standing_int _
  split
  · rename_i hidentity
    rcases identity?_cases hidentity with rfl | rfl | rfl
    · exact hl
    · exact hr
    · exact standing_int 0
  · rename_i hidentity
    exact standing_of hidentity rfl (by simp [Shape.children])

theorem standing_of_make (h : s.make = .ok e) (hcs : ∀ c ∈ s.children, c.Everywhere Standing) : e.Standing := by
  by_cases hleaf : s.children = []
  · exact standing_leaf hleaf h
  cases s with
  | access step t =>
    have ht := hcs t List.mem_cons_self
    cases step with
    | deref =>
      change deref t = .ok e at h
      unfold deref at h
      split at h <;> cases h
      exact standing_of (s := .access .deref t) trivial ‹_› hleaf
    | field f => exact standing_field ht h
    | container f => exact standing_container ht h
    | vtable slot =>
      have htarget := checkLvalueTarget_of_bind h
      cases checkLvalueTarget_bind h
      exact standing_of (s := .access (.vtable slot) t) trivial htarget hleaf
  | index t element i =>
    have htarget := checkLvalueTarget_of_bind h
    cases checkLvalueTarget_bind h
    exact standing_of (s := .index t element i) trivial htarget hleaf
  | unary op w a =>
    cases h
    exact standing_unary op w (hcs a List.mem_cons_self)
  | binary op w stride l r =>
    change binary op w stride l r = .ok e at h
    unfold binary at h
    split at h <;> cases h
    exact standing_simplifyBinary op w stride (hcs l List.mem_cons_self).here
      (hcs r (by simp [Shape.children])).here
  | bound side t stride =>
    cases h
    exact standing_of (s := .bound side t stride) trivial rfl hleaf
  | terminator t stride test sentinel =>
    rw [terminator_eq h]
    exact standing_of (s := .terminator t stride test sentinel) trivial rfl hleaf
  | _ => exact absurd rfl hleaf

theorem Obtainable.standing (h : Obtainable e) : e.Standing := by
  suffices heverywhere : e.Everywhere Standing from heverywhere.here
  induction h with
  | @make s e parts made ih =>
    have hcs : ∀ c ∈ s.children, c.Everywhere Standing :=
      fun c hc => ih c (mem_parts_of_mem_children (e := of s) hc)
    exact everywhere_of_remade (remade_of_make made) (fun _ => standing_of_make made hcs) standing_int hcs ih

/-- What a node can become: itself, a node with its operator or, if it is a location, one that came in. -/
inductive Kin (K : Expr → Prop) (e : Expr) : Expr → Prop
  | self : Kin K e e
  | node {e' : Expr} (kind : e.shape.SameOperator e'.shape) : Kin K e e'
  | came {e' : Expr} (location : e.isLvalueTarget = true) (came : K e') : Kin K e e'

def fieldBase? (e : Expr) : Option Expr :=
  match e.shape with
  | .access (.field _) t => some t
  | .access (.container _) t => some t
  | _ => none

theorem mem_children_of_fieldBase? {y : Expr} (h : e.fieldBase? = some y) : y ∈ e.children := by
  obtain ⟨d, s⟩ := e
  cases s with
  | access step t => cases step <;> cases h <;> exact List.mem_singleton_self _
  | _ => cases h

/-- Locations `K` that come in for others, and what is left of them when a step into or out of a field
cancels. -/
structure Incoming (K L : Expr → Prop) : Prop where
  target : ∀ x, K x → x.isLvalueTarget = true
  left : ∀ x, L x → K x
  base : ∀ x y, K x → x.fieldBase? = some y → L y

theorem incoming_of_moment {K : Expr → Prop} (h : ∀ x, K x → ∃ m t kind, x.shape = .moment m t kind) :
    Incoming K fun _ => False where
  target x hx := by
    obtain ⟨m, t, kind, hshape⟩ := h x hx
    rw [isLvalueTarget, group, hshape]
    rfl
  left x hx := hx.elim
  base x y hx hbase := by
    obtain ⟨m, t, kind, hshape⟩ := h x hx
    rw [fieldBase?, hshape] at hbase
    cases hbase

end Expr

theorem Shape.SameOperator.isLvalueTarget_eq {e e' : Expr} (h : SameOperator e.shape e'.shape) :
    e'.isLvalueTarget = e.isLvalueTarget := by
  obtain ⟨d, s⟩ := e
  obtain ⟨d', s'⟩ := e'
  rw [Expr.shape_node, Expr.shape_node] at h
  cases h <;> rfl

theorem Shape.SameOperator.isDereferenceable_eq {e e' : Expr} (h : SameOperator e.shape e'.shape) :
    e'.isDereferenceable = e.isDereferenceable := by
  obtain ⟨d, s⟩ := e
  obtain ⟨d', s'⟩ := e'
  rw [Expr.shape_node, Expr.shape_node] at h
  cases h <;> rfl

theorem Shape.SameOperator.int?_eq {e e' : Expr} (h : SameOperator e.shape e'.shape) :
    e.int? = none ∧ e'.int? = none := by
  obtain ⟨d, s⟩ := e
  obtain ⟨d', s'⟩ := e'
  rw [Expr.shape_node, Expr.shape_node] at h
  cases h <;> exact ⟨rfl, rfl⟩

namespace Expr

theorem int?_of_isLvalueTarget {x : Expr} (h : x.isLvalueTarget = true) : x.int? = none := by
  obtain ⟨d, s⟩ := x
  cases s with
  | int v => cases h
  | _ => rfl

theorem isLvalueTarget_of_access {x : Expr} {step : Step} {t : Expr} (h : x.shape = .access step t) :
    x.isLvalueTarget = true := by
  rw [isLvalueTarget, group, h]
  rfl

theorem isDereferenceable_of_isLvalueTarget {x : Expr} (h : x.isLvalueTarget = true) :
    x.isDereferenceable = true := by
  obtain ⟨d, s⟩ := x
  cases s with
  | guard | float | bound | terminator => cases h
  | _ => rfl

section Kin

variable {K L : Expr → Prop} {e e' value : Expr} {cs : List Expr}

theorem Kin.int?_eq (incoming : Incoming K L) (h : Kin K e e') : e'.int? = e.int? := by
  cases h with
  | self => rfl
  | node kind => rw [kind.int?_eq.1, kind.int?_eq.2]
  | came location came => rw [int?_of_isLvalueTarget location, int?_of_isLvalueTarget (incoming.target _ came)]

theorem Kin.isLvalueTarget_eq (incoming : Incoming K L) (h : Kin K e e') :
    e'.isLvalueTarget = e.isLvalueTarget := by
  cases h with
  | self => rfl
  | node kind => exact kind.isLvalueTarget_eq
  | came location came => rw [location, incoming.target _ came]

/-- What of a child matters to the simplifications of its node: constants do not come in, and no step or negation
stands in the new child that was not in the old one, except where a step into or out of a field leaves `L` behind. -/
structure Akin (L : Expr → Prop) (e e' : Expr) : Prop where
  fixed : e' = e ∨ e'.int? = none
  negation : ∀ w a, e'.shape = .unary .neg w a → ∃ w a, e.shape = .unary .neg w a
  access : ∀ step t, e'.shape = .access step t →
    (∃ t, e.shape = .access step t) ∨ ∀ y, e'.fieldBase? = some y → L y

structure Kindred (L : Expr → Prop) (e e' : Expr) : Prop extends Akin L e e' where
  target : e.isLvalueTarget = true → e'.isLvalueTarget = true
  pointer : e.isDereferenceable = true → e'.isDereferenceable = true

theorem kindred_self : Kindred L e e :=
  ⟨⟨.inl rfl, fun w a h => ⟨w, a, h⟩, fun _ t h => .inl ⟨t, h⟩⟩, id, id⟩

theorem kindred_of_sameOperator (kind : e.shape.SameOperator e'.shape) : Kindred L e e' where
  fixed := .inr kind.int?_eq.2
  target h := kind.isLvalueTarget_eq.trans h
  pointer h := kind.isDereferenceable_eq.trans h
  negation w a hshape := by
    rw [hshape] at kind
    generalize e.shape = s at kind ⊢
    cases kind
    exact ⟨_, _, rfl⟩
  access step t hshape := by
    rw [hshape] at kind
    generalize e.shape = s at kind ⊢
    cases kind
    exact .inl ⟨_, rfl⟩

theorem kindred_of_target (htarget : e'.isLvalueTarget = true) (hbase : ∀ y, e'.fieldBase? = some y → L y) :
    Kindred L e e' where
  fixed := .inr (int?_of_isLvalueTarget htarget)
  target _ := htarget
  pointer _ := isDereferenceable_of_isLvalueTarget htarget
  negation w a hshape := by
    rw [isLvalueTarget, hshape] at htarget
    cases htarget
  access _ _ _ := .inr hbase

theorem Kin.kindred (incoming : Incoming K L) (h : Kin K e e') : Kindred L e e' := by
  cases h with
  | self => exact kindred_self
  | node kind => exact kindred_of_sameOperator kind
  | came _ came => exact kindred_of_target (incoming.target _ came) fun y hy => incoming.base _ y came hy

theorem acceptsTarget_of_kindred (hcs : List.Forall₂ (Kindred L) e.children cs)
    (h : e.acceptsTarget e.children = true) : e.acceptsTarget cs = true := by
  obtain ⟨d, s⟩ := e
  cases s with
  | access step t =>
    cases hcs with
    | cons first rest =>
      cases step with
      | deref => exact first.pointer h
      | _ => exact first.target h
  | index t element i =>
    cases hcs with
    | cons first rest => exact first.target h
  | _ => rfl

def HasNeutral : BinOp → Option Int → Option Int → Prop
  | .add, l, r => l = some 0 ∨ r = some 0
  | .sub, _, r => r = some 0
  | .mul, l, r => l = some 0 ∨ l = some 1 ∨ r = some 0 ∨ r = some 1
  | .div, _, r => r = some 1
  | .pointerAdd, _, r => r = some 0
  | .pointerSub, _, r => r = some 0
  | _, _, _ => False

theorem identity?_ne_none_iff {op : BinOp} {l r : Expr} :
    identity? op l r ≠ none ↔ HasNeutral op l.int? r.int? := by
  unfold identity?
  cases op with
  | add | sub | mul | div | pointerAdd | pointerSub => split <;> simp_all [HasNeutral]
  | _ => simp [HasNeutral]

theorem Akin.hasNeutral {op : BinOp} {l r c c' : Expr} (hl : Akin L l c) (hr : Akin L r c')
    (h : HasNeutral op c.int? c'.int?) : HasNeutral op l.int? r.int? := by
  have hl : c.int? = l.int? ∨ c.int? = none := hl.fixed.imp (congrArg int?) id
  have hr : c'.int? = r.int? ∨ c'.int? = none := hr.fixed.imp (congrArg int?) id
  cases op with
  | add | sub | mul | div | pointerAdd | pointerSub => grind [HasNeutral]
  | _ => exact h

/-- The ways in which a node is rebuilt: not at all, with its operator, or as what is left of something that
came in as its target. -/
inductive Renewed (L : Expr → Prop) (e : Expr) (cs : List Expr) : Expr → Prop
  | same (unchanged : cs = e.children) : Renewed L e cs e
  | node {value : Expr} (kind : e.shape.SameOperator value.shape) (operands : value.children = cs) :
    Renewed L e cs value
  | left {value c : Expr} (location : e.isLvalueTarget = true) (left : L value) (mem : c ∈ cs)
    (part : value ∈ c.children) : Renewed L e cs value

theorem renewed_of_remade (hreduced : e.shape.Reduced) (hcs : List.Forall₂ (Akin L) e.children cs)
    (hne : cs ≠ e.children) (h : Remade e cs value) : Renewed L e cs value := by
  have constant {c a : Expr} {x : Int} (hc : Akin L a c) (hx : c.shape = .int x) : c = a := by
    refine hc.fixed.resolve_right fun hnone => ?_
    rw [int?, hx] at hnone
    cases hnone
  rw [children] at hcs hne
  cases h with
  | leaf childless => exact .same childless.symm
  | node kind => exact .node kind rfl
  | foldUnary shape operand =>
    rw [shape] at hcs hne
    obtain ⟨hc, -⟩ := List.forall₂_cons.1 hcs
    exact absurd (by rw [constant hc operand]; rfl) hne
  | foldBinary shape left right =>
    rw [shape] at hcs hne
    obtain ⟨hc, hrest⟩ := List.forall₂_cons.1 hcs
    obtain ⟨hc', -⟩ := List.forall₂_cons.1 hrest
    exact absurd (by rw [constant hc left, constant hc' right]; rfl) hne
  | convert c shape any =>
    rw [shape] at hreduced
    exact absurd any hreduced
  | negate shape negation =>
    rw [shape] at hcs hreduced
    obtain ⟨hc, -⟩ := List.forall₂_cons.1 hcs
    obtain ⟨w, a, ha⟩ := hc.negation _ _ negation
    exact absurd ha (hreduced w a)
  | enter shape container =>
    have hlocation := isLvalueTarget_of_access shape
    rw [shape] at hcs hreduced
    obtain ⟨hc, -⟩ := List.forall₂_cons.1 hcs
    rcases hc.access _ _ container with ⟨x, hx⟩ | hleft
    · exact absurd hx (hreduced x)
    · have hleft := hleft _ (by rw [fieldBase?, container])
      exact .left hlocation hleft List.mem_cons_self (by simp [children, container, Shape.children])
  | leave shape field =>
    have hlocation := isLvalueTarget_of_access shape
    rw [shape] at hcs hreduced
    obtain ⟨hc, -⟩ := List.forall₂_cons.1 hcs
    rcases hc.access _ _ field with ⟨x, hx⟩ | hleft
    · exact absurd hx (hreduced x)
    · have hleft := hleft _ (by rw [fieldBase?, field])
      exact .left hlocation hleft List.mem_cons_self (by simp [children, field, Shape.children])
  | neutral shape left =>
    rw [shape] at hcs hreduced
    obtain ⟨hc, hrest⟩ := List.forall₂_cons.1 hcs
    obtain ⟨hc', -⟩ := List.forall₂_cons.1 hrest
    have hneutral := identity?_ne_none_iff.1 (left ▸ Option.some_ne_none _)
    exact absurd hreduced (identity?_ne_none_iff.2 (hc.hasNeutral hc' hneutral))

theorem Renewed.kin (incoming : Incoming K L) (h : Renewed L e cs value) : Kin K e value := by
  cases h with
  | same => exact .self
  | node kind => exact .node kind
  | left location left => exact .came location (incoming.left _ left)

theorem Renewed.kindred (hleft : ∀ x, L x → Kindred L e x) (h : Renewed L e cs value) : Kindred L e value := by
  cases h with
  | same => exact kindred_self
  | node kind => exact kindred_of_sameOperator kind
  | left _ left => exact hleft value left

/-- Children that a node can be rebuilt over without being simplified, but for steps into and out of fields. -/
structure Rebuildable (L : Expr → Prop) (e : Expr) (cs : List Expr) : Prop where
  akin : List.Forall₂ (Akin L) e.children cs
  accepts : e.acceptsTarget cs = true

theorem Obtainable.rebuildable (he : e.Obtainable) (hkin : List.Forall₂ (Kindred L) e.children cs) :
    Rebuildable L e cs :=
  ⟨hkin.imp fun _ _ hc => hc.toAkin, acceptsTarget_of_kindred hkin he.standing.accepts⟩

/-- What was built can be rebuilt over what its children became. -/
theorem Obtainable.exists_renewed (he : e.Obtainable) (h : Rebuildable L e cs) (hcs : ∀ c ∈ cs, c.Obtainable)
    (hne : cs ≠ e.children) :
    ∃ value, e.rebuild? cs = .ok (some value) ∧ value.Obtainable ∧ Renewed L e cs value := by
  obtain ⟨r, hr, hobtainable⟩ := he.exists_rebuild? hcs h.akin.length_eq.symm
  rw [rebuild?, if_pos h.accepts] at hr ⊢
  cases hvalue : e.withChildren cs with
  | error fault =>
    rw [hvalue] at hr
    cases hr
  | ok value =>
    rw [hvalue] at hr
    cases hr
    have hremade := remade_of_withChildren hvalue
    exact ⟨value, rfl, hobtainable value rfl, renewed_of_remade he.standing.reduced h.akin hne hremade⟩

def Readable (e : Expr) : Prop :=
  ∀ a, e.Reaches a → ∀ t, a.dereferenced? = some t → t.int?.isSome = true ∨ t.isLvalueTarget = true

theorem Readable.child {c : Expr} (h : e.Readable) (hc : c ∈ e.children) : c.Readable :=
  fun a ha => h a (.child hc ha)

theorem readable_of_children
    (here : ∀ t, e.dereferenced? = some t → t.int?.isSome = true ∨ t.isLvalueTarget = true)
    (hcs : ∀ c ∈ e.children, c.Readable) : e.Readable := by
  intro a ha
  cases ha with
  | refl => exact here
  | child mem reaches => exact hcs _ mem a reaches

theorem shape_of_dereferenced? {t : Expr} (h : e.dereferenced? = some t) : e.shape = .access .deref t := by
  obtain ⟨d, s⟩ := e
  cases s with
  | access step x => cases step <;> cases h; rfl
  | _ => cases h

theorem dereferenced?_cases (kind : e.shape.SameOperator value.shape) :
    e.dereferenced? = none ∧ value.dereferenced? = none ∨
      ∃ t t', e.dereferenced? = some t ∧ value.dereferenced? = some t' ∧
        e.children = [t] ∧ value.children = [t'] := by
  obtain ⟨d, s⟩ := e
  obtain ⟨d', s'⟩ := value
  rw [shape_node, shape_node] at kind
  cases kind with
  | access step t t' =>
    cases step with
    | deref => exact .inr ⟨t, t', rfl, rfl, rfl, rfl⟩
    | _ => exact .inl ⟨rfl, rfl⟩
  | _ => exact .inl ⟨rfl, rfl⟩

theorem Kin.fixed_or_location_iff (incoming : Incoming K L) (h : Kin K e e') :
    e'.int?.isSome = true ∨ e'.isLvalueTarget = true ↔ e.int?.isSome = true ∨ e.isLvalueTarget = true := by
  rw [h.int?_eq incoming, h.isLvalueTarget_eq incoming]

theorem Renewed.readable (incoming : Incoming K L) (hkin : List.Forall₂ (Kin K) e.children cs)
    (h : Renewed L e cs value) (he : e.Readable) (hcs : ∀ c ∈ cs, c.Readable) : value.Readable := by
  cases h with
  | same => exact he
  | node kind operands =>
    refine readable_of_children (fun t ht => ?_) (operands ▸ hcs)
    rcases dereferenced?_cases kind with ⟨-, hnone⟩ | ⟨t', _, ht', hsome, hchildren, hvalue⟩
    · rw [hnone] at ht
      cases ht
    · rw [ht] at hsome
      cases hsome
      rw [hchildren, ← operands, hvalue] at hkin
      obtain ⟨htarget, -⟩ := List.forall₂_cons.1 hkin
      exact (htarget.fixed_or_location_iff incoming).2 (he e (.refl e) t' ht')
  | left _ _ mem part => exact (hcs _ mem).child part

end Kin

end Expr
end Retrace
