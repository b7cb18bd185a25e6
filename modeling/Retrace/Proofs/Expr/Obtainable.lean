import Retrace.Proofs.Expr.Rebuilding

/-!
What the factories of expressions can build, and that it can be rebuilt. A factory that simplifies may give a
part of one of its arguments, so the parts of what is built have to be known as well: they were built in
their turn, and keep to the rules that rebuilding relies on without a check of its own.
-/

set_option autoImplicit false

namespace Retrace

def Shape.make : Shape Expr → Except Fault Expr
  | .empty => .ok .empty
  | .var v => .ok (.var v)
  | .text bytes => .ok (.text bytes)
  | .int v => .ok (.int v)
  | .float digits => .ok (.float digits)
  | .guard point => Expr.guard point
  | .access .deref t => Expr.deref t
  | .access (.field f) t => Expr.field t f
  | .access (.container f) t => Expr.container t f
  | .access (.vtable slot) t => Expr.vtable t slot
  | .index t element i => Expr.index t element i
  | .unary op w e => .ok (.unary op w e)
  | .binary op w stride l r => Expr.binary op w stride l r
  | .clobber callee kind overwrite point => Expr.clobber callee kind overwrite point
  | .moment m t kind => Expr.moment m t kind
  | .value lval kind point relative => Expr.value lval kind point relative
  | .frame inner id => Expr.frame inner id
  | .bound side t stride => .ok (.bound side t stride)
  | .terminator t stride test sentinel => Expr.terminator t stride test sentinel

def Shape.over : Shape Expr → List Expr → Shape Expr
  | .access step _, [t] => .access step t
  | .index _ element _, [t, i] => .index t element i
  | .unary op w _, [e] => .unary op w e
  | .binary op w stride _ _, [l, r] => .binary op w stride l r
  | .bound side (some _) stride, [t] => .bound side (some t) stride
  | .terminator (some _) stride test sentinel, [t] => .terminator (some t) stride test sentinel
  | s, _ => s

/-- What rebuilding relies on besides the target: a stride, and the constant and the test of a terminator. -/
def Shape.Sound : Shape Expr → Prop
  | .binary op _ stride _ _ => (stride.isNone && op.isPointerArithmetic) = false
  | .terminator _ _ test sentinel => sentinel.int?.isNone = false ∧ test.isRelative = true
  | _ => True

namespace Expr

/-- What can be built by the factories, each from what was built before. -/
inductive Obtainable : Expr → Prop
  | make {s : Shape Expr} {e : Expr} (parts : ∀ c ∈ s.parts, Obtainable c) (made : s.make = .ok e) : Obtainable e

inductive Everywhere (p : Expr → Prop) : Expr → Prop
  | intro {e : Expr} (here : p e) (parts : ∀ c ∈ e.parts, Everywhere p c) : Everywhere p e

variable {e value : Expr} {s : Shape Expr} {cs : List Expr}

theorem withChildren_eq_make (hlength : cs.length = e.children.length) (hne : e.children ≠ []) :
    e.withChildren cs = (e.shape.over cs).make := by
  unfold withChildren
  rw [if_pos hlength]
  rw [children] at hlength hne
  cases shape : e.shape with
  | access step t =>
    rw [shape] at hlength
    obtain ⟨c, rfl⟩ := List.length_eq_one_iff.1 hlength
    change e.replaceTarget c = _
    rw [replaceTarget, shape]
    cases step <;> rfl
  | index t element i =>
    rw [shape] at hlength
    obtain ⟨c, c', rfl⟩ := List.length_eq_two.1 hlength
    rfl
  | unary op w a =>
    rw [shape] at hlength
    obtain ⟨c, rfl⟩ := List.length_eq_one_iff.1 hlength
    rfl
  | binary op w stride l r =>
    rw [shape] at hlength
    obtain ⟨c, c', rfl⟩ := List.length_eq_two.1 hlength
    rfl
  | bound side t stride =>
    cases t with
    | none => exact absurd (by rw [shape]; rfl) hne
    | some t =>
      rw [shape] at hlength
      obtain ⟨c, rfl⟩ := List.length_eq_one_iff.1 hlength
      change e.replaceTarget c = _
      rw [replaceTarget, shape]
      rfl
  | terminator t stride test sentinel =>
    cases t with
    | none => exact absurd (by rw [shape]; rfl) hne
    | some t =>
      rw [shape] at hlength
      obtain ⟨c, rfl⟩ := List.length_eq_one_iff.1 hlength
      change e.replaceTarget c = _
      rw [replaceTarget, shape]
      rfl
  | _ => exact absurd (by rw [shape]; rfl) hne

theorem over_children (s : Shape Expr) : s.over s.children = s := by
  cases s with
  | bound side t stride => cases t <;> rfl
  | terminator t stride test sentinel => cases t <;> rfl
  | _ => rfl

theorem checkValueKind_bind {α : Type} {kind : Option Expr} {x : Except Fault α} {a : α}
    (h : (checkValueKind kind >>= fun _ => x) = .ok a) : x = .ok a := by
  cases hkind : checkValueKind kind with
  | error fault =>
    rw [hkind] at h
    cases h
  | ok u =>
    rw [hkind] at h
    exact h

theorem checkValueKind_of_bind {α : Type} {kind : Option Expr} {x : Except Fault α} {a : α}
    (h : (checkValueKind kind >>= fun _ => x) = .ok a) : checkValueKind kind = .ok () := by
  cases hkind : checkValueKind kind with
  | error fault =>
    rw [hkind] at h
    cases h
  | ok u => rfl

theorem isValueKind_of_bind {α : Type} {kind : Option Expr} {x : Except Fault α} {a : α}
    (h : (checkValueKind kind >>= fun _ => x) = .ok a) : ∀ k ∈ kind, k.isValueKind = true := by
  rintro k rfl
  cases hkind : k.isValueKind with
  | true => rfl
  | false =>
    rw [checkValueKind, hkind] at h
    cases h

theorem clobber_eq {callee overwrite : Expr} {kind : Option Expr} {point : Nat}
    (h : clobber callee kind overwrite point = .ok e) : e = of (.clobber callee kind overwrite point) := by
  unfold clobber at h
  dsimp only at h
  split at h
  · cases h
  · cases checkLvalueTarget_bind (checkValueKind_bind h)
    rfl

theorem value_eq {lval : Expr} {kind : Option Expr} {point : Nat} {relative : Bool}
    (h : Expr.value lval kind point relative = .ok e) : e = of (.value lval kind point relative) := by
  cases checkValueKind_bind h
  rfl

theorem frame_eq {inner : Expr} {id : Nat} (h : frame inner id = .ok e) : e = of (.frame inner id) := by
  unfold frame at h
  split at h <;> cases h
  rfl

theorem guard_eq {point : Nat} (h : guard point = .ok e) : e = of (.guard point) := by
  unfold guard at h
  split at h <;> cases h
  rfl

theorem eq_of_make (hleaf : s.children = []) (h : s.make = .ok e) : e = of s := by
  cases s with
  | access | index | unary | binary => cases hleaf
  | bound side t stride =>
    cases h
    rfl
  | terminator t stride test sentinel => exact terminator_eq h
  | moment m t kind => exact moment_eq h
  | clobber callee kind overwrite point => exact clobber_eq h
  | value lval kind point relative => exact value_eq h
  | frame inner id => exact frame_eq h
  | guard point => exact guard_eq h
  | _ =>
    cases h
    rfl

theorem remade_of_make (h : s.make = .ok e) : Remade (of s) s.children e := by
  by_cases hleaf : s.children = []
  · rw [eq_of_make hleaf h, hleaf]
    exact .leaf hleaf
  · have hover : (of s).withChildren s.children = (s.over s.children).make :=
      withChildren_eq_make (e := of s) rfl hleaf
    rw [over_children, h] at hover
    exact remade_of_withChildren hover

end Expr

namespace Shape

variable {s s' : Shape Expr} {cs : List Expr} {c e : Expr}

theorem SameOperator.mem_parts (h : SameOperator s s') (hc : c ∈ s'.parts) : c ∈ s'.children ∨ c ∈ s.parts := by
  cases h with
  | terminator =>
    simp only [parts, children, Option.toList_some, List.cons_append, List.nil_append, List.mem_cons] at hc ⊢
    rcases hc with hc | hc
    · exact .inl (.inl hc)
    · exact .inr (.inr hc)
  | _ => exact .inl hc

theorem SameOperator.acceptsTarget_eq {e' : Expr} (h : SameOperator e.shape e'.shape) (cs : List Expr) :
    e'.acceptsTarget cs = e.acceptsTarget cs := by
  obtain ⟨d, s⟩ := e
  obtain ⟨d', s'⟩ := e'
  rw [Expr.shape_node, Expr.shape_node] at h
  cases h with
  | access step => cases step <;> cases cs <;> rfl
  | _ => cases cs <;> rfl

theorem SameOperator.sound (h : SameOperator s s') (hs : s.Sound) : s'.Sound := by
  cases h with
  | binary | terminator => exact hs
  | _ => trivial

theorem sameOperator_over (hne : s.children ≠ []) (hlength : cs.length = s.children.length) :
    SameOperator s (s.over cs) ∧ (s.over cs).children = cs := by
  cases s with
  | access step t =>
    obtain ⟨c, rfl⟩ := List.length_eq_one_iff.1 hlength
    exact ⟨.access step t c, rfl⟩
  | index t element i =>
    obtain ⟨c, c', rfl⟩ := List.length_eq_two.1 hlength
    exact ⟨.index element t c i c', rfl⟩
  | unary op w a =>
    obtain ⟨c, rfl⟩ := List.length_eq_one_iff.1 hlength
    exact ⟨.unary (fun _ => rfl) a c, rfl⟩
  | binary op w stride l r =>
    obtain ⟨c, c', rfl⟩ := List.length_eq_two.1 hlength
    exact ⟨.binary op w w stride l c r c', rfl⟩
  | bound side t stride =>
    cases t with
    | none => exact absurd rfl hne
    | some t =>
      obtain ⟨c, rfl⟩ := List.length_eq_one_iff.1 hlength
      exact ⟨.bound side stride t c, rfl⟩
  | terminator t stride test sentinel =>
    cases t with
    | none => exact absurd rfl hne
    | some t =>
      obtain ⟨c, rfl⟩ := List.length_eq_one_iff.1 hlength
      exact ⟨.terminator stride test sentinel t c, rfl⟩
  | _ => exact absurd rfl hne

theorem sound_of_make (h : s.make = .ok e) : s.Sound := by
  cases s with
  | binary op w stride l r =>
    change Expr.binary op w stride l r = .ok e at h
    unfold Expr.binary at h
    split at h
    · cases h
    · rename_i hstride
      exact Bool.eq_false_iff.2 hstride
  | terminator t stride test sentinel =>
    change Expr.terminator t stride test sentinel = .ok e at h
    unfold Expr.terminator at h
    split at h
    · cases h
    rename_i hsentinel
    split at h
    · cases h
    rename_i htest
    exact ⟨Bool.eq_false_iff.2 hsentinel, by simpa using htest⟩
  | _ => trivial

theorem acceptsTarget_of_make (h : s.make = .ok e) : (Expr.of s).acceptsTarget s.children = true := by
  cases s with
  | access step t =>
    cases step with
    | deref =>
      change Expr.deref t = .ok e at h
      unfold Expr.deref at h
      split at h
      · assumption
      · cases h
    | _ => exact Expr.checkLvalueTarget_of_bind h
  | index t element i => exact Expr.checkLvalueTarget_of_bind h
  | _ => rfl

/-- A layer that keeps to the rules can be made over all children the first of which suits it as a target. -/
theorem exists_make (hs : s.Sound) (haccepts : (Expr.of s).acceptsTarget s.children = true)
    (hne : s.children ≠ []) : ∃ e, s.make = .ok e := by
  cases s with
  | access step t =>
    cases step with
    | deref => exact ⟨_, if_pos haccepts⟩
    | field f =>
      have htarget : t.checkLvalueTarget = .ok () := if_pos haccepts
      change ∃ e, Expr.field t f = .ok e
      rw [Expr.field, htarget]
      dsimp only [bind, Except.bind]
      split <;> exact ⟨_, rfl⟩
    | container f =>
      have htarget : t.checkLvalueTarget = .ok () := if_pos haccepts
      change ∃ e, Expr.container t f = .ok e
      rw [Expr.container, htarget]
      dsimp only [bind, Except.bind]
      split <;> exact ⟨_, rfl⟩
    | vtable slot =>
      have htarget : t.checkLvalueTarget = .ok () := if_pos haccepts
      change ∃ e, Expr.vtable t slot = .ok e
      rw [Expr.vtable, htarget]
      exact ⟨_, rfl⟩
  | index t element i =>
    have htarget : t.checkLvalueTarget = .ok () := if_pos haccepts
    change ∃ e, Expr.index t element i = .ok e
    rw [Expr.index, htarget]
    exact ⟨_, rfl⟩
  | unary op w a => exact ⟨_, rfl⟩
  | binary op w stride l r =>
    change ∃ e, Expr.binary op w stride l r = .ok e
    rw [Expr.binary, if_neg (Bool.eq_false_iff.1 hs)]
    exact ⟨_, rfl⟩
  | bound side t stride => exact ⟨_, rfl⟩
  | terminator t stride test sentinel =>
    obtain ⟨hsentinel, htest⟩ := hs
    change ∃ e, Expr.terminator t stride test sentinel = .ok e
    rw [Expr.terminator, if_neg (Bool.eq_false_iff.1 hsentinel), if_neg (by simp [htest])]
    exact ⟨_, rfl⟩
  | _ => exact absurd rfl hne

end Shape

namespace Expr

variable {e value c : Expr} {s : Shape Expr} {cs : List Expr}

theorem Everywhere.here {p : Expr → Prop} (h : e.Everywhere p) : p e := by
  obtain ⟨here, -⟩ := h
  exact here

theorem Everywhere.part {p : Expr → Prop} (h : e.Everywhere p) (hc : c ∈ e.parts) : c.Everywhere p := by
  obtain ⟨-, parts⟩ := h
  exact parts c hc

theorem everywhere_of_remade {p : Expr → Prop} (h : Remade e cs value)
    (hnew : value = e ∨ e.shape.SameOperator value.shape → p value) (hint : ∀ v, p (int v))
    (hcs : ∀ c ∈ cs, c.Everywhere p) (hparts : ∀ c ∈ e.parts, c.Everywhere p) : value.Everywhere p := by
  have const (v : Int) : (int v).Everywhere p := ⟨hint v, List.forall_mem_nil _⟩
  cases h with
  | leaf => exact ⟨hnew (.inl rfl), hparts⟩
  | node kind =>
    refine ⟨hnew (.inr kind), fun c hc => ?_⟩
    rcases kind.mem_parts hc with hchild | hpart
    · exact hcs c hchild
    · exact hparts c hpart
  | foldUnary => exact const _
  | foldBinary => exact const _
  | convert => exact hcs _ List.mem_cons_self
  | negate shape negation => exact (hcs _ List.mem_cons_self).part (by simp [parts, negation, Shape.parts])
  | enter shape container => exact (hcs _ List.mem_cons_self).part (by simp [parts, container, Shape.parts])
  | leave shape field => exact (hcs _ List.mem_cons_self).part (by simp [parts, field, Shape.parts])
  | neutral shape left =>
    rcases identity?_cases left with rfl | rfl | rfl
    · exact hcs _ List.mem_cons_self
    · exact hcs _ (by simp)
    · exact const 0

/-- The parts of what can be built can be built, and all keep to the rules. -/
theorem Obtainable.everywhere (h : Obtainable e) : e.Everywhere fun e => Obtainable e ∧ e.shape.Sound := by
  induction h with
  | @make s e parts made ih =>
    have hsound := Shape.sound_of_make made
    have hchildren : ∀ c ∈ s.children, c.Everywhere fun e => Obtainable e ∧ e.shape.Sound :=
      fun c hc => ih c (mem_parts_of_mem_children (e := of s) hc)
    refine everywhere_of_remade (remade_of_make made) (fun hnew => ⟨.make parts made, ?_⟩) (fun v => ?_)
      hchildren ih
    · rcases hnew with rfl | hkind
      · exact hsound
      · exact hkind.sound hsound
    · exact ⟨.make (s := .int v) (List.forall_mem_nil _) rfl, trivial⟩

theorem Obtainable.sound (h : Obtainable e) : e.shape.Sound := h.everywhere.here.2

theorem Obtainable.part (h : Obtainable e) (hc : c ∈ e.parts) : Obtainable c := (h.everywhere.part hc).here.1

theorem exists_rebuild?_of_sound (h : e.shape.Sound) (hne : e.children ≠ [])
    (hlength : cs.length = e.children.length) :
    ∃ r, e.rebuild? cs = .ok r ∧ ∀ value ∈ r, (e.shape.over cs).make = .ok value := by
  unfold rebuild?
  split
  · rename_i haccepts
    obtain ⟨hkind, hchildren⟩ := Shape.sameOperator_over hne hlength
    have htarget : (of (e.shape.over cs)).acceptsTarget cs = e.acceptsTarget cs :=
      Shape.SameOperator.acceptsTarget_eq hkind cs
    have haccepts : (of (e.shape.over cs)).acceptsTarget (e.shape.over cs).children = true := by
      rw [hchildren, htarget, haccepts]
    have hne' : (e.shape.over cs).children ≠ [] := by
      rw [hchildren]
      exact fun hnil => hne (List.length_eq_zero_iff.1 (by rw [← hlength, hnil]; rfl))
    obtain ⟨value, hvalue⟩ := Shape.exists_make (hkind.sound h) haccepts hne'
    refine ⟨some value, by rw [withChildren_eq_make hlength hne, hvalue]; rfl, fun value' hvalue' => ?_⟩
    cases hvalue'
    exact hvalue
  · exact ⟨none, rfl, fun value hvalue => by cases hvalue⟩

/-- Over any children a node is rebuilt, or the first of them is refused. -/
theorem exists_rebuild?_any (h : e.children ≠ [] → e.shape.Sound) (hlength : cs.length = e.children.length) :
    ∃ r, e.rebuild? cs = .ok r := by
  by_cases hleaf : e.children = []
  · rw [hleaf] at hlength
    rw [List.length_eq_zero_iff.1 hlength]
    exact ⟨some e, rebuild?_nil hleaf⟩
  · obtain ⟨r, hr, -⟩ := exists_rebuild?_of_sound (h hleaf) hleaf hlength
    exact ⟨r, hr⟩

theorem Obtainable.exists_rebuild? (h : Obtainable e) (hcs : ∀ c ∈ cs, Obtainable c)
    (hlength : cs.length = e.children.length) :
    ∃ r, e.rebuild? cs = .ok r ∧ ∀ value ∈ r, Obtainable value := by
  by_cases hleaf : e.children = []
  · rw [hleaf] at hlength
    cases List.length_eq_zero_iff.1 hlength
    refine ⟨some e, rebuild?_nil hleaf, fun value hvalue => ?_⟩
    cases hvalue
    exact h
  obtain ⟨r, hr, hmade⟩ := exists_rebuild?_of_sound h.sound hleaf hlength
  obtain ⟨hkind, hchildren⟩ := Shape.sameOperator_over hleaf hlength
  refine ⟨r, hr, fun value hvalue => .make (fun c hc => ?_) (hmade value hvalue)⟩
  rcases hkind.mem_parts hc with hchild | hpart
  · exact hcs c (hchildren ▸ hchild)
  · exact h.part hpart

end Expr
end Retrace
