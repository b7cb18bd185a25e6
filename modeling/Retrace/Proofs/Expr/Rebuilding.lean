import Retrace.Walk.Map
import Mathlib.Data.List.Basic

/-!
What a rebuilt node can be. A factory gives a new node of its kind, a constant, or a part of one of its
arguments; so properties of the nodes of an expression that constants and operators have on their own
account survive when nodes are rebuilt over other children.
-/

set_option autoImplicit false

namespace Retrace

theorem bind_ne_ok {α β : Type} {x : Except Fault α} {f : α → Except Fault β} {b : β}
    (h : ∀ a, x = .ok a → f a ≠ .ok b) : (x >>= f) ≠ .ok b := by
  cases x with
  | ok a => exact h a rfl
  | error fault =>
    intro hok
    cases hok

namespace Expr

/-- The children and what a leaf stands for: all that a mapping may look at. -/
def inward (e : Expr) : List Expr := e.children ++ e.hidden

/-- A property of all nodes that can be come to by going inward. -/
inductive Throughout (p : Shape Expr → Prop) : Expr → Prop
  | intro {e : Expr} (here : p e.shape) (inside : ∀ c ∈ e.inward, Throughout p c) : Throughout p e

inductive Reaches : Expr → Expr → Prop
  | refl (e : Expr) : Reaches e e
  | child {e c a : Expr} (mem : c ∈ e.children) (reaches : Reaches c a) : Reaches e a

theorem mem_children_of_unary {e a : Expr} {op : UnOp} {w : Width} (h : e.shape = .unary op w a) :
    a ∈ e.children := by
  rw [children, h]
  exact List.mem_singleton_self a

theorem Reaches.eq_of_leaf {e a : Expr} (h : e.Reaches a) (hleaf : e.children = []) : a = e := by
  cases h with
  | refl => rfl
  | child mem => rw [hleaf] at mem; cases mem

theorem Reaches.sizeOf_le {e a : Expr} (h : e.Reaches a) : sizeOf a ≤ sizeOf e := by
  induction h with
  | refl => exact Nat.le_refl _
  | child mem _ ih =>
    have := sizeOf_lt_of_mem_children mem
    omega

namespace Throughout

variable {p q : Shape Expr → Prop} {e c : Expr}

theorem here (h : Throughout p e) : p e.shape := by
  obtain ⟨here, -⟩ := h
  exact here

theorem child (h : Throughout p e) (hc : c ∈ e.children) : Throughout p c := by
  obtain ⟨-, inside⟩ := h
  exact inside c (List.mem_append_left _ hc)

theorem hidden (h : Throughout p e) (hc : c ∈ e.hidden) : Throughout p c := by
  obtain ⟨-, inside⟩ := h
  exact inside c (List.mem_append_right _ hc)

theorem leaf (here : p e.shape) (hleaf : e.inward = []) : Throughout p e :=
  ⟨here, by rw [hleaf]; exact List.forall_mem_nil _⟩

theorem imp (hpq : ∀ s, p s → q s) (h : Throughout p e) : Throughout q e := by
  induction h with
  | intro here _ ih => exact ⟨hpq _ here, ih⟩

theorem of_reaches {a : Expr} (h : Throughout p e) (ha : e.Reaches a) : p a.shape := by
  induction ha with
  | refl e => exact h.here
  | child mem _ ih => exact ih (h.child mem)

end Throughout

/-- Where no node hides anything, its children are all there is inward. -/
theorem throughout_of_forall_reaches {p : Shape Expr → Prop} (hleaf : ∀ e : Expr, p e.shape → e.hidden = [])
    (e : Expr) (h : ∀ a, e.Reaches a → p a.shape) : e.Throughout p := by
  induction e using inductionOnParts with
  | step e ih =>
    have here := h e (.refl e)
    refine ⟨here, fun c hc => ?_⟩
    rw [inward, hleaf e here, List.append_nil] at hc
    exact ih c (mem_parts_of_mem_children hc) fun a ha => h a (.child hc ha)

end Expr

inductive Shape.SameOperator : Shape Expr → Shape Expr → Prop
  | access (step : Step) (t t' : Expr) : SameOperator (.access step t) (.access step t')
  | index (element : CType) (t t' i i' : Expr) : SameOperator (.index t element i) (.index t' element i')
  | unary {op : UnOp} {w w' : Width} (conversion : op = .coerce → w' = w) (e e' : Expr) :
    SameOperator (.unary op w e) (.unary op w' e')
  | binary (op : BinOp) (w w' : Width) (stride : Option CType) (l l' r r' : Expr) :
    SameOperator (.binary op w stride l r) (.binary op w' stride l' r')
  | bound (side : BoundSide) (stride : CType) (t t' : Expr) :
    SameOperator (.bound side (some t) stride) (.bound side (some t') stride)
  | terminator (stride : CType) (test sentinel t t' : Expr) :
    SameOperator (.terminator (some t) stride test sentinel) (.terminator (some t') stride test sentinel)

theorem Shape.SameOperator.hidden_eq {s s' : Shape Expr} (h : SameOperator s s') : s'.hidden = [] := by
  cases h <;> rfl

theorem Shape.sameOperator_self {s : Shape Expr} (h : s.children ≠ []) : SameOperator s s := by
  cases s with
  | access step t => exact .access step t t
  | index t element i => exact .index element t t i i
  | unary op w e => exact .unary (fun _ => rfl) e e
  | binary op w stride l r => exact .binary op w w stride l l r r
  | bound side t stride =>
    cases t with
    | none => exact absurd rfl h
    | some t => exact .bound side stride t t
  | terminator t stride test sentinel =>
    cases t with
    | none => exact absurd rfl h
    | some t => exact .terminator stride test sentinel t t
  | _ => exact absurd rfl h

namespace Expr

inductive Remade (e : Expr) : List Expr → Expr → Prop
  | leaf (childless : e.children = []) : Remade e [] e
  | node {s : Shape Expr} (kind : e.shape.SameOperator s) : Remade e s.children (of s)
  | foldUnary {op : UnOp} {w : Width} {a c : Expr} {x v : Int} (shape : e.shape = .unary op w a)
    (operand : c.shape = .int x) (folded : Constant.unary op x = some v) (fits : w.fits v = true) :
    Remade e [c] (int v)
  | foldBinary {op : BinOp} {w : Width} {stride : Option CType} {l r c c' : Expr} {x y v : Int}
    (shape : e.shape = .binary op w stride l r) (left : c.shape = .int x) (right : c'.shape = .int y)
    (folded : Constant.binary op x y = some v) : Remade e [c, c'] (int v)
  | convert {w : Width} {a : Expr} (c : Expr) (shape : e.shape = .unary .coerce w a) (any : w.bits = 0) :
    Remade e [c] c
  | negate {w w' : Width} {a c inner : Expr} (shape : e.shape = .unary .neg w a)
    (negation : c.shape = .unary .neg w' inner) : Remade e [c] inner
  | enter {f : Field} {t c inner : Expr} (shape : e.shape = .access (.field f) t)
    (container : c.shape = .access (.container f) inner) : Remade e [c] inner
  | leave {f : Field} {t c inner : Expr} (shape : e.shape = .access (.container f) t)
    (field : c.shape = .access (.field f) inner) : Remade e [c] inner
  | neutral {op : BinOp} {w : Width} {stride : Option CType} {l r c c' value : Expr}
    (shape : e.shape = .binary op w stride l r) (left : identity? op c c' = some value) :
    Remade e [c, c'] value

theorem shape_of_int? {e : Expr} {v : Int} (h : e.int? = some v) : e.shape = .int v := by
  obtain ⟨d, s⟩ := e
  cases s <;> simp_all [int?]

theorem deref_eq {t r : Expr} (h : deref t = .ok r) : r = of (.access .deref t) := by
  unfold deref at h
  split at h <;> cases h
  rfl

theorem checkLvalueTarget_bind {α : Type} {t : Expr} {x : Except Fault α} {a : α}
    (h : (t.checkLvalueTarget >>= fun _ => x) = .ok a) : x = .ok a := by
  unfold checkLvalueTarget at h
  split at h
  · exact h
  · cases h

theorem checkLvalueTarget_of_bind {α : Type} {t : Expr} {x : Except Fault α} {a : α}
    (h : (t.checkLvalueTarget >>= fun _ => x) = .ok a) : t.isLvalueTarget = true := by
  unfold checkLvalueTarget at h
  split at h
  · assumption
  · cases h

theorem field_cases {t r : Expr} {f : Field} (h : field t f = .ok r) :
    (∀ inner, t.shape ≠ .access (.container f) inner) ∧ r = of (.access (.field f) t) ∨
      t.shape = .access (.container f) r := by
  have hmade := checkLvalueTarget_bind h
  split at hmade
  · rename_i f' inner hshape
    cases hmade
    split
    · rename_i hf
      exact .inr (hf ▸ hshape)
    · rename_i hf
      exact .inl ⟨by simp [hshape, hf], rfl⟩
  · rename_i hshape
    cases hmade
    exact .inl ⟨hshape f, rfl⟩

theorem container_cases {t r : Expr} {f : Field} (h : container t f = .ok r) :
    (∀ inner, t.shape ≠ .access (.field f) inner) ∧ r = of (.access (.container f) t) ∨
      t.shape = .access (.field f) r := by
  have hmade := checkLvalueTarget_bind h
  split at hmade
  · rename_i f' inner hshape
    cases hmade
    split
    · rename_i hf
      exact .inr (hf ▸ hshape)
    · rename_i hf
      exact .inl ⟨by simp [hshape, hf], rfl⟩
  · rename_i hshape
    cases hmade
    exact .inl ⟨hshape f, rfl⟩

theorem terminator_eq {t : Option Expr} {stride : CType} {test sentinel r : Expr}
    (h : terminator t stride test sentinel = .ok r) : r = of (.terminator t stride test sentinel) := by
  unfold terminator at h
  split at h
  · cases h
  split at h <;> cases h
  rfl

theorem moment_eq {m : Moment} {t r : Expr} {kind : Option Expr} (h : moment m t kind = .ok r) :
    r = of (.moment m t kind) := by
  unfold moment at h
  cases hkind : checkValueKind kind with
  | error fault => rw [hkind] at h; cases h
  | ok u =>
    rw [hkind] at h
    cases checkLvalueTarget_bind h
    rfl

theorem withChildren_nil {e : Expr} (h : e.children = []) : e.withChildren [] = .ok e := by
  unfold withChildren
  rw [if_pos (by rw [h])]
  split <;> trivial

theorem rebuild?_nil {e : Expr} (h : e.children = []) : e.rebuild? [] = .ok (some e) := by
  have haccepts : e.acceptsTarget [] = true := by
    unfold acceptsTarget
    split <;> trivial
  rw [rebuild?, if_pos haccepts, withChildren_nil h]
  rfl

section Operations

variable {e : Expr}

theorem remade_unary {op : UnOp} {w : Width} {a : Expr} (c : Expr) (shape : e.shape = .unary op w a) :
    Remade e [c] (unary op w c) := by
  have node {w' : Width} (conversion : op = .coerce → w' = w) : Remade e [c] (of (.unary op w' c)) :=
    .node (s := .unary op w' c) (shape ▸ .unary conversion a c)
  unfold unary
  split
  · rename_i v hfold
    obtain ⟨x, hx, hfilter⟩ := Option.bind_eq_some_iff.1 hfold
    obtain ⟨hv, hfits⟩ := Option.filter_eq_some_iff.1 hfilter
    exact .foldUnary shape (shape_of_int? hx) hv hfits
  split
  · rename_i hcoerce
    obtain ⟨rfl, hany⟩ := hcoerce
    exact .convert c shape hany
  split
  · exact .negate shape ‹c.shape = .unary .neg _ _›
  · exact node fun hcoerce => by cases hcoerce
  · exact node fun _ => rfl

theorem remade_simplifyBinary {op : BinOp} {w : Width} {stride : Option CType} {l r : Expr} (c c' : Expr)
    (shape : e.shape = .binary op w stride l r) : Remade e [c, c'] (simplifyBinary op w stride c c') := by
  unfold simplifyBinary
  split
  · rename_i v hfold
    unfold foldBinary? at hfold
    split at hfold
    · rename_i x y hx hy
      obtain ⟨hv, -⟩ := Option.filter_eq_some_iff.1 hfold
      exact .foldBinary shape (shape_of_int? hx) (shape_of_int? hy) hv
    · cases hfold
  split
  · rename_i hidentity
    exact .neutral shape hidentity
  · exact .node (s := .binary op (storedWidth op w) stride c c') (shape ▸ .binary op w _ stride l c r c')

theorem remade_binary {op : BinOp} {w : Width} {stride : Option CType} {l r c c' value : Expr}
    (shape : e.shape = .binary op w stride l r) (h : binary op w stride c c' = .ok value) :
    Remade e [c, c'] value := by
  unfold binary at h
  split at h <;> cases h
  exact remade_simplifyBinary c c' shape

theorem remade_access {step : Step} {t c value : Expr} (shape : e.shape = .access step t)
    (h : e.replaceTarget c = .ok value) : Remade e [c] value := by
  have node (hvalue : value = of (.access step c)) : Remade e [c] value :=
    hvalue ▸ .node (s := .access step c) (shape ▸ .access step t c)
  rw [replaceTarget, shape] at h
  cases step with
  | deref => exact node (deref_eq h)
  | field f =>
    rcases field_cases h with ⟨-, hvalue⟩ | hcontainer
    · exact node hvalue
    · exact .enter shape hcontainer
  | container f =>
    rcases container_cases h with ⟨-, hvalue⟩ | hfield
    · exact node hvalue
    · exact .leave shape hfield
  | vtable slot =>
    cases checkLvalueTarget_bind h
    exact node rfl

theorem remade_of_withChildren {value : Expr} {cs : List Expr} (h : e.withChildren cs = .ok value) :
    Remade e cs value := by
  unfold withChildren at h
  split at h
  case isFalse => cases h
  case isTrue hlength =>
  rw [children] at hlength
  -- The shape says how many children there are, and with that which factory is called.
  have childless (hnone : e.shape.children = []) (hvalue : Except.ok e = Except.ok (ε := Fault) value) :
      Remade e cs value := by
    cases hvalue
    rw [hnone] at hlength
    rw [List.length_eq_zero_iff.1 hlength]
    exact .leaf hnone
  cases shape : e.shape with
  | access step t =>
    rw [shape] at h hlength
    obtain ⟨c, rfl⟩ := List.length_eq_one_iff.1 hlength
    exact remade_access shape h
  | index t element i =>
    rw [shape] at h hlength
    obtain ⟨c, c', rfl⟩ := List.length_eq_two.1 hlength
    cases checkLvalueTarget_bind h
    exact .node (s := .index c element c') (shape ▸ .index element t c i c')
  | unary op w a =>
    rw [shape] at h hlength
    obtain ⟨c, rfl⟩ := List.length_eq_one_iff.1 hlength
    cases h
    exact remade_unary c shape
  | binary op w stride l r =>
    rw [shape] at h hlength
    obtain ⟨c, c', rfl⟩ := List.length_eq_two.1 hlength
    exact remade_binary shape h
  | bound side t stride =>
    cases t with
    | none => exact childless (by rw [shape]; rfl) (by rw [shape] at h; exact h)
    | some t =>
      rw [shape] at h hlength
      obtain ⟨c, rfl⟩ := List.length_eq_one_iff.1 hlength
      change e.replaceTarget c = .ok value at h
      rw [replaceTarget, shape] at h
      cases h
      exact .node (s := .bound side (some c) stride) (shape ▸ .bound side stride t c)
  | terminator t stride test sentinel =>
    cases t with
    | none => exact childless (by rw [shape]; rfl) (by rw [shape] at h; exact h)
    | some t =>
      rw [shape] at h hlength
      obtain ⟨c, rfl⟩ := List.length_eq_one_iff.1 hlength
      change e.replaceTarget c = .ok value at h
      rw [replaceTarget, shape] at h
      rw [terminator_eq h]
      exact .node (s := .terminator (some c) stride test sentinel) (shape ▸ .terminator stride test sentinel t c)
  | _ => exact childless (by rw [shape]; rfl) (by rw [shape] at h; exact h)

end Operations

end Expr

structure Shape.Folds (p : Shape Expr → Prop) : Prop where
  zero : p (.int 0)
  unary : ∀ op x v, p (.int x) → Constant.unary op x = some v → p (.int v)
  binary : ∀ op x y v, p (.int x) → p (.int y) → Constant.binary op x y = some v → p (.int v)

/-- A property that rebuilding cannot take away, because other nodes have it by their operator. -/
structure Shape.Lasting (p : Shape Expr → Prop) : Prop extends Folds p where
  sameOperator : ∀ s s', SameOperator s s' → p s → p s'

namespace Expr

/-- A neutral operand leaves the other one, and zero absorbs products. -/
theorem identity?_cases {op : BinOp} {l r e : Expr} (h : identity? op l r = some e) :
    e = l ∨ e = r ∨ e = int 0 := by
  unfold identity? at h
  split at h <;> cases h <;> simp

theorem throughout_of_remade {p : Shape Expr → Prop} (folds : Shape.Folds p) {e value : Expr} {cs : List Expr}
    (hleaf : cs = e.children → e.Throughout p) (hsame : ∀ s, e.shape.SameOperator s → p s)
    (hcs : ∀ c ∈ cs, c.Throughout p) (h : Remade e cs value) : value.Throughout p := by
  have const {v : Int} (hv : p (.int v)) : (int v).Throughout p := .leaf hv rfl
  cases h with
  | leaf childless => exact hleaf childless.symm
  | @node s kind =>
    refine ⟨hsame s kind, fun c hc => hcs c ?_⟩
    rwa [inward, Expr.hidden, shape_of, kind.hidden_eq, List.append_nil] at hc
  | foldUnary shape operand folded fits =>
    have hc := (hcs _ List.mem_cons_self).here
    rw [operand] at hc
    exact const (folds.unary _ _ _ hc folded)
  | foldBinary shape left right folded =>
    have hc := (hcs _ List.mem_cons_self).here
    have hc' := (hcs _ (List.mem_cons_of_mem _ List.mem_cons_self)).here
    rw [left] at hc
    rw [right] at hc'
    exact const (folds.binary _ _ _ _ hc hc' folded)
  | convert => exact hcs _ List.mem_cons_self
  | negate shape negation => exact (hcs _ List.mem_cons_self).child (by simp [children, negation, Shape.children])
  | enter shape container => exact (hcs _ List.mem_cons_self).child (by simp [children, container, Shape.children])
  | leave shape field => exact (hcs _ List.mem_cons_self).child (by simp [children, field, Shape.children])
  | neutral shape left =>
    rcases identity?_cases left with rfl | rfl | rfl
    · exact hcs _ List.mem_cons_self
    · exact hcs _ (by simp)
    · exact const folds.zero

theorem Remade.forall_reaches {p : Expr → Prop} {e value : Expr} {cs : List Expr} (h : Remade e cs value)
    (hself : p e) (hsame : ∀ s, e.shape.SameOperator s → p (of s)) (hint : ∀ v, p (int v))
    (hcs : ∀ c ∈ cs, ∀ a, c.Reaches a → p a) : ∀ a, value.Reaches a → p a := by
  have const (v : Int) : ∀ a, (int v).Reaches a → p a := by
    intro a ha
    rw [ha.eq_of_leaf rfl]
    exact hint v
  have below {c inner : Expr} (hc : c ∈ cs) (hinner : inner ∈ c.children) : ∀ a, inner.Reaches a → p a :=
    fun a ha => hcs c hc a (.child hinner ha)
  intro a ha
  cases h with
  | leaf childless =>
    rw [ha.eq_of_leaf childless]
    exact hself
  | @node s kind =>
    cases ha with
    | refl => exact hsame s kind
    | child mem reaches => exact hcs _ mem a reaches
  | foldUnary | foldBinary => exact const _ a ha
  | convert => exact hcs _ List.mem_cons_self a ha
  | negate _ shape | enter _ shape | leave _ shape =>
    exact below List.mem_cons_self (by simp [children, shape, Shape.children]) a ha
  | neutral _ left =>
    rcases identity?_cases left with rfl | rfl | rfl
    · exact hcs _ List.mem_cons_self a ha
    · exact hcs _ (by simp) a ha
    · exact const 0 a ha

end Expr
end Retrace
