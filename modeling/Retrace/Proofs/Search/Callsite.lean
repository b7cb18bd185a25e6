import Retrace.Proofs.Meaning.Rewriting
import Retrace.Proofs.Search.Frames
import Retrace.Proofs.Walk.Reach
import Retrace.Search.Precondition

/-!
From the frame of a callee to the frame of its caller, one node at a time. A conversion keeps the values of
nodes and leaves no variable of the callee, but for the address of something passed that has no address in
the caller: that address is left as it is, and the node around it is dropped. Taking references to the
caller's own frame off then keeps values where nothing that it changes is shifted to the left.
-/

set_option autoImplicit false

namespace Retrace.Search

open Returning

def Known (s : Shape Expr) : Prop := unknownToCaller true (.of s) = false

theorem known_shape_iff (e : Expr) : Known e.shape ↔ unknownToCaller true e = false := by
  rw [Known, unknownToCaller, Expr.shape_of, unknownToCaller]

theorem hidden_of_known {e : Expr} (h : Known e.shape) : e.hidden = [] := by
  rw [known_shape_iff] at h
  obtain ⟨d, s⟩ := e
  cases s <;> first | rfl | cases h

theorem storage_of_known {e : Expr} {v : Variable} (h : Known e.shape) (hv : e.shape = .var v) :
    v.isGlobal = true ∨ Call.passes v = true := by
  rw [known_shape_iff, unknownToCaller, hv] at h
  unfold Variable.isGlobal Call.passes
  cases hs : v.storage <;> simp_all

theorem known_of_suitsCaller {limits : Limits} {b : Formula} (h : suitsCaller limits true b = true) :
    ∀ e ∈ b.terms, e.Throughout Known := by
  intro e he
  have hmentions : Walk.mentions (unknownToCaller true) b = false := by
    simpa using (Bool.and_eq_true_iff.1 h).2
  refine Expr.throughout_of_forall_reaches (fun _ => hidden_of_known) e fun a ha => ?_
  exact (known_shape_iff a).2 ((Walk.mentions_eq_false_iff b).1 hmentions e he a ha)

section Conversion

variable {c : Call} {e value e' : Expr}

theorem lacksAddress_of_var {v : Variable} (hv : e.shape = .var v) :
    c.lacksAddress e = (Call.passes v && ((c.actual? v).bind Expr.dereferenced?).isNone) := by
  rw [Call.lacksAddress, Expr.var?, hv]

theorem convert_var {v : Variable} (hv : e.shape = .var v) (h : c.convert value e = some e') :
    (∃ a, c.actual? v = some a ∧ a.dereferenced? = some e') ∨ (c.lacksAddress e = true ∧ e' = value) ∨
      v.storage = .result ∨ (v.isGlobal = true ∧ e' = value) := by
  have passed (hpasses : Call.passes v = true)
      (h : ((c.actual? v).map fun a => a.dereferenced?.getD value) = some e') :
      (∃ a, c.actual? v = some a ∧ a.dereferenced? = some e') ∨ (c.lacksAddress e = true ∧ e' = value) := by
    obtain ⟨a, ha, he'⟩ := Option.map_eq_some_iff.1 h
    cases hd : a.dereferenced? with
    | some t =>
      rw [hd] at he'
      exact .inl ⟨a, ha, he' ▸ hd⟩
    | none =>
      rw [hd] at he'
      rw [lacksAddress_of_var hv, hpasses, ha, Option.bind_some, hd]
      exact .inr ⟨rfl, he'.symm⟩
  unfold Call.convert at h
  rw [hv] at h
  dsimp only at h
  cases hs : v.storage with
  | argument =>
    rw [hs] at h
    exact (passed (by rw [Call.passes, hs]) h).imp_right .inl
  | receiver =>
    rw [hs] at h
    exact (passed (by rw [Call.passes, hs]) h).imp_right .inl
  | result => exact .inr (.inr (.inl rfl))
  | «local» => rw [hs] at h; cases h
  | temporary => rw [hs] at h; cases h
  | global =>
    rw [hs] at h
    exact .inr (.inr (.inr ⟨by rw [Variable.isGlobal, hs], (Option.some.inj h).symm⟩))
  | function =>
    rw [hs] at h
    exact .inr (.inr (.inr ⟨by rw [Variable.isGlobal, hs], (Option.some.inj h).symm⟩))

theorem convert_deref {t : Expr} (ht : e.shape = .access .deref t) (h : c.convert value e = some e') :
    (∃ v, t.shape = .var v ∧ c.actual? v = some e') ∨ (c.lacksAddress t = false ∧ e' = value) := by
  unfold Call.convert at h
  rw [ht] at h
  dsimp only at h
  cases hv : t.var? with
  | none =>
    rw [hv] at h
    refine .inr ⟨?_, (Option.some.inj h).symm⟩
    rw [Call.lacksAddress, hv]
  | some v =>
    rw [hv] at h
    dsimp only at h
    split at h
    · refine .inl ⟨v, ?_, h⟩
      obtain ⟨d, s⟩ := t
      cases s <;> cases hv
      rfl
    · rename_i hpasses
      refine .inr ⟨?_, (Option.some.inj h).symm⟩
      rw [Call.lacksAddress, hv]
      simp [hpasses]

/-- What conversion can do with a node: the address of something passed becomes an address of the caller
or stays for the node around it to see to, its contents become what is passed, the result becomes that of
the call, and all else is the node over its converted children. -/
theorem convert_cases (h : c.convert value e = some e') :
    (∃ v a, e.shape = .var v ∧ c.actual? v = some a ∧ a.dereferenced? = some e') ∨
    (e.children = [] ∧ c.lacksAddress e = true ∧ e' = value) ∨
    (∃ t v, e.shape = .access .deref t ∧ t.shape = .var v ∧ c.actual? v = some e') ∨
    (∃ v, e.shape = .var v ∧ v.storage = .result) ∨
    ((∀ v, e.shape = .var v → v.isGlobal = true) ∧ (∀ t ∈ e.children, c.lacksAddress t = false) ∧
      e' = value) := by
  have other (hvar : ∀ v, e.shape ≠ .var v)
      (h : (if e.children.any c.lacksAddress then none else some value) = some e') :
      (∀ v, e.shape = .var v → v.isGlobal = true) ∧ (∀ t ∈ e.children, c.lacksAddress t = false) ∧
        e' = value := by
    obtain ⟨hnone, hvalue⟩ := Option.ite_none_left_eq_some.1 h
    refine ⟨fun v hv => absurd hv (hvar v), fun t ht => ?_, (Option.some.inj hvalue).symm⟩
    exact Bool.eq_false_iff.2 fun hlacks => hnone (List.any_eq_true.2 ⟨t, ht, hlacks⟩)
  obtain ⟨d, s⟩ := e
  cases s with
  | var v =>
    rcases convert_var rfl h with ⟨a, ha, hd⟩ | ⟨hlacks, rfl⟩ | hresult | ⟨hglobal, rfl⟩
    · exact .inl ⟨v, a, rfl, ha, hd⟩
    · exact .inr (.inl ⟨rfl, hlacks, rfl⟩)
    · exact .inr (.inr (.inr (.inl ⟨v, rfl, hresult⟩)))
    · refine .inr (.inr (.inr (.inr ⟨fun v' hv' => ?_, List.forall_mem_nil _, rfl⟩)))
      cases hv'
      exact hglobal
  | access step t =>
    cases step with
    | deref =>
      rcases convert_deref rfl h with ⟨v, hv, ha⟩ | ⟨hlacks, rfl⟩
      · exact .inr (.inr (.inl ⟨t, v, rfl, hv, ha⟩))
      · exact .inr (.inr (.inr (.inr ⟨fun _ h => (by cases h), List.forall_mem_singleton.2 hlacks, rfl⟩)))
    | _ => exact .inr (.inr (.inr (.inr (other (by simp) h))))
  | _ => exact .inr (.inr (.inr (.inr (other (by simp) h))))

/-- What a relation between nodes of the callee and nodes of the caller has to satisfy so that conversion
gives related nodes. -/
structure Converts (c : Call) (P : Expr → Expr → Prop) : Prop where
  address : ∀ e v a t, e.shape = .var v → c.actual? v = some a → a.dereferenced? = some t → P e t
  contents : ∀ e t v a, e.shape = .access .deref t → t.shape = .var v → c.actual? v = some a → P e a
  rebuilt : ∀ e cs value, Known e.shape → (∀ v, e.shape = .var v → v.isGlobal = true) →
    List.Forall₂ P e.children cs → Walk.rebuilt .drop e cs = .ok (some value) → P e value

/-- The address of something passed may be left as it is, but then nothing stands around it yet. -/
theorem Converts.stepKeeps {P : Expr → Expr → Prop} (converts : Converts c P) (function : Expr) :
    Walk.StepKeeps .all .drop
      (callsiteMapper (some (.call function c.arguments c.result c.receiver)) false)
      fun e e' => e.Throughout Known → (c.lacksAddress e = true ∧ e' = e) ∨ P e e' := by
  refine Walk.stepKeeps_of_answered fun e cs value hcs hvalue e' he' hknown => ?_
  have hconvert : c.convert value e = some e' := (of_pure (m := ExceptT Fault Id) he').symm
  rcases convert_cases hconvert with ⟨v, a, hv, ha, hd⟩ | ⟨hleaf, hlacks, rfl⟩ | ⟨t, v, ht, hv, ha⟩ |
    ⟨v, hv, hresult⟩ | ⟨hglobal, haddress, rfl⟩
  · exact .inr (converts.address e v a e' hv ha hd)
  · rw [hleaf] at hcs
    cases hcs
    rw [Walk.rebuilt, if_pos hleaf.symm] at hvalue
    cases hvalue
    exact .inl ⟨hlacks, rfl⟩
  · exact .inr (converts.contents e t v e' ht hv ha)
  · -- A caller is not shown formulas about the result.
    rcases storage_of_known hknown.here hv with h | h
    · rw [Variable.isGlobal, hresult] at h
      cases h
    · rw [Call.passes, hresult] at h
      cases h
  · have hchildren := (List.forall₂_and_left _ _).2
      ⟨fun t ht => And.intro (hknown.child ht) (haddress t ht), hcs⟩
    refine .inr (converts.rebuilt e cs e' hknown.here hglobal (hchildren.imp fun t t' ht => ?_) hvalue)
    -- An address left as it is would have had this node dropped.
    refine (ht.2 ht.1.1).resolve_left fun hlacks => ?_
    rw [ht.1.2] at hlacks
    cases hlacks.1

def Convertible (c : Call) (e : Expr) : Prop := e.Throughout Known ∧ c.lacksAddress e = false

theorem Converts.mapFormula {P : Expr → Expr → Prop} {R : Formula → Formula → Prop} (converts : Converts c P)
    (layer : Walk.LayerKeeps (fun e e' => Convertible c e → P e e') R)
    {function : Expr} {b b' : Formula}
    (h : (Walk.mapFormula .all .drop
      (callsiteMapper (some (.call function c.arguments c.result c.receiver)) false) b).run = .ok (some b')) :
    R b b' := by
  refine Walk.mapFormula_related (m := Id) (converts.stepKeeps function) (layer.imp fun e e' he hc => ?_) h
  refine (he hc.1).resolve_left fun hlacks => ?_
  rw [hc.2] at hlacks
  cases hlacks.1

end Conversion

section Meaning

variable {c : Call} {I : Interpretation} {σ τ : Valuation} {id : Nat}

/-- Constants are in range, and what is shifted to the left does not change when references to a frame
are taken off. -/
def Steady (id : Nat) (s : Shape Expr) : Prop :=
  s.InRange ∧ (s.ShiftFree ∨ ∀ t ∈ s.children, Unreferenced id t)

theorem folds_steady (id : Nat) : Shape.Folds (Steady id) where
  zero := ⟨Shape.lasting_inRange.zero, .inl trivial⟩
  unary op x v hx h := ⟨Shape.lasting_inRange.unary op x v hx.1 h, .inl trivial⟩
  binary op x y v hx hy h := ⟨Shape.lasting_inRange.binary op x y v hx.1 hy.1 h, .inl trivial⟩

theorem steady_of_exact {s : Shape Expr} (h : s.Exact) : Steady id s := ⟨h.1, .inl h.2⟩

/-- What the frames of a call agree on. A formal is the location of what is passed, which the caller may know
by an address of its own. -/
structure Linked (c : Call) (I : Interpretation) (σ τ : Valuation) : Prop where
  globals : ∀ v, v.isGlobal = true → τ.var v = σ.var v
  contents : ∀ v a, c.actual? v = some a → I.access .deref (σ.var v) = I.eval τ a
  address : ∀ v a t, c.actual? v = some a → a.dereferenced? = some t → σ.var v = I.eval τ t

theorem eval_leaf (linked : Linked c I σ τ) {e : Expr} (hknown : Known e.shape)
    (hglobal : ∀ v, e.shape = .var v → v.isGlobal = true) (hleaf : e.children = []) :
    I.eval τ e = I.eval σ e := by
  rw [known_shape_iff] at hknown
  obtain ⟨d, s⟩ := e
  cases s with
  | var v => exact linked.globals v (hglobal v rfl)
  | empty | text | int | float => rfl
  | bound side t stride =>
    cases t with
    | none => rfl
    | some t => cases hleaf
  | terminator t stride test sentinel =>
    cases t with
    | none => rfl
    | some t => cases hleaf
  | access | index | unary | binary => cases hleaf
  | guard | clobber | moment | value | frame => cases hknown

theorem mem_children_of_dereferenced? {a t : Expr} (h : a.dereferenced? = some t) : t ∈ a.children := by
  obtain ⟨d, s⟩ := a
  cases s with
  | access step t' =>
    cases step <;> cases h
    exact List.mem_singleton_self t
  | _ => cases h

/-- Converted expressions have in the caller the values that they had in the callee. -/
theorem converts_eval (linked : Linked c I σ τ)
    (hactuals : ∀ v a, c.actual? v = some a → a.Throughout (Steady id)) :
    Converts c fun e e' => e.Exact → e'.Throughout (Steady id) ∧ I.eval τ e' = I.eval σ e where
  address e v a t hv ha ht _ := by
    refine ⟨(hactuals v a ha).child (mem_children_of_dereferenced? ht), ?_⟩
    rw [Interpretation.eval_eq e, hv, Interpretation.layer, linked.address v a t ha ht]
  contents e t v a ht hv ha _ := by
    refine ⟨hactuals v a ha, ?_⟩
    rw [Interpretation.eval_eq e, ht, Interpretation.layer, Interpretation.eval_eq t, hv,
      Interpretation.layer, linked.contents v a ha]
  rebuilt e cs value hknown hglobal hcs hvalue he := by
    have hchildren := (List.forall₂_and_left _ _).2 ⟨fun t ht => he.child ht, hcs⟩
    have hsteady : ∀ t ∈ cs, t.Throughout (Steady id) :=
      Walk.forall_mem_of_forall₂ (fun _ _ ht => (ht.2 ht.1).1) hchildren
    have hsame : ∀ s, e.shape.SameOperator s → Steady id s := fun s hs =>
      steady_of_exact (Shape.lasting_exact.sameOperator _ s hs he.here)
    have hdropped : Walk.Policy.drop = .keep → I.eval τ e = I.eval σ e := fun h => by cases h
    constructor
    · exact Walk.throughout_rebuilt (folds_steady id) (fun _ => he.imp fun _ => steady_of_exact) hsame hsteady
        hvalue
    · exact Walk.eval_rebuilt (hchildren.imp fun _ _ ht => (ht.2 ht.1).2)
        (fun t ht => (hsteady t ht).here.1) (.inl he.here.2) (eval_leaf linked hknown hglobal) hdropped hvalue

theorem eval_withoutReference (hframe : ∀ x, τ.frame id x = x) (e : Expr) :
    I.eval τ (withoutReference id e) = I.eval τ e := by
  rcases withoutReference_cases id e with hreference | ⟨-, hsame⟩
  · rw [Interpretation.eval_eq e, hreference, Interpretation.layer, hframe]
  · rw [hsame]

/-- Taking references to a frame off keeps values inside that frame, and does nothing where there are
none. -/
theorem stepKeeps_referenceMapper (hframe : ∀ x, τ.frame id x = x) :
    Walk.StepKeeps .all .drop (referenceMapper id) fun e e' =>
      (Unreferenced id e → e' = e) ∧
      (e.Throughout (Steady id) → e'.InRange ∧ I.eval τ e' = I.eval τ e) := by
  refine Walk.stepKeeps_of_answered fun e cs value hcs hvalue e' he' => ?_
  cases eq_withoutReference he'
  have hunchanged (h : ∀ t ∈ e.children, Unreferenced id t) : cs = e.children :=
    (eq_of_forall₂ hcs fun t ht _ _ hkept => (hkept.1 (h t ht)).symm).symm
  constructor
  · intro hun
    rw [Walk.rebuilt, if_pos (hunchanged fun t ht => hun.child ht)] at hvalue
    cases hvalue
    rcases withoutReference_cases id e with hframe | ⟨-, hsame⟩
    · exact absurd hframe (hun e (.refl e) _)
    · exact hsame
  · intro he
    have hchildren := (List.forall₂_and_left _ _).2 ⟨fun t ht => he.child ht, hcs⟩
    have hrange : ∀ t ∈ cs, t.InRange := Walk.forall_mem_of_forall₂ (fun _ _ ht => (ht.2.2 ht.1).1) hchildren
    have hvalueRange : value.InRange :=
      Walk.throughout_rebuilt Shape.lasting_inRange.toFolds (fun _ => he.imp fun _ h => h.1)
        (fun s hs => Shape.lasting_inRange.sameOperator _ s hs he.here.1) hrange hvalue
    -- A shift is over children that stay as they are, so that it is not folded again.
    have hsame : I.eval τ value = I.eval τ e :=
      Walk.eval_rebuilt (hchildren.imp fun _ _ ht => (ht.2.2 ht.1).2) (fun t ht => (hrange t ht).here)
        (he.here.2.imp_right hunchanged) (fun _ => rfl) (fun _ => rfl) hvalue
    exact ⟨throughout_withoutReference id hvalueRange, (eval_withoutReference hframe value).trans hsame⟩

end Meaning

section Variables

variable {c : Call}

def GlobalOnly (s : Shape Expr) : Prop := ∀ v, s = .var v → v.isGlobal = true

theorem lasting_globalOnly : Shape.Lasting GlobalOnly where
  zero _ h := by cases h
  unary _ _ _ _ _ _ h := by cases h
  binary _ _ _ _ _ _ _ _ h := by cases h
  sameOperator s s' h _ v hv := by cases h <;> cases hv

theorem converts_globalOnly (hactuals : ∀ v a, c.actual? v = some a → a.Throughout GlobalOnly) :
    Converts c fun _ e' => e'.Throughout GlobalOnly where
  address e v a t _ ha ht := (hactuals v a ha).child (mem_children_of_dereferenced? ht)
  contents e t v a _ _ ha := hactuals v a ha
  rebuilt e cs value hknown hglobal hcs hvalue := by
    have hchildren : ∀ t ∈ cs, t.Throughout GlobalOnly := Walk.forall_mem_of_forall₂ (fun _ _ ht => ht) hcs
    refine Walk.throughout_rebuilt lasting_globalOnly.toFolds (fun hkept => ⟨hglobal, fun t ht => ?_⟩)
      (fun s hs => lasting_globalOnly.sameOperator _ s hs hglobal) hchildren hvalue
    rw [Expr.inward, hidden_of_known hknown, List.append_nil] at ht
    rcases hkept with rfl | hkeep
    · exact hchildren t ht
    · cases hkeep

theorem stepKeeps_referenceMapper_throughout {q : Shape Expr → Prop} (lasting : Shape.Lasting q) (id : Nat) :
    Walk.StepKeeps .all .drop (referenceMapper id) fun e e' => e.Throughout q → e'.Throughout q := by
  refine Walk.stepKeeps_of_answered fun e cs value hcs hvalue e' he' he => ?_
  cases eq_withoutReference he'
  have hchildren := (List.forall₂_and_left _ _).2 ⟨fun t ht => he.child ht, hcs⟩
  refine throughout_withoutReference id (Walk.throughout_rebuilt lasting.toFolds (fun _ => he) ?_ ?_ hvalue)
  · exact fun s hs => lasting.sameOperator _ s hs he.here
  · exact Walk.forall_mem_of_forall₂ (fun _ _ ht => ht.2 ht.1) hchildren

end Variables
end Retrace.Search
