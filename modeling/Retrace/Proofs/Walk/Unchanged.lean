import Retrace.Proofs.Expr.Refolding
import Retrace.Proofs.Walk.Completion

/-!
Traversals that change nothing. A mapping does not rebuild a node whose children stayed, so it gives back the
expression it was given. An expansion rebuilds every node: it gives back the expression exactly where no
logical operation on constants is left in it to fold.
-/

set_option autoImplicit false

namespace Retrace.Walk

open Guarantee (sure_iff)

variable {S : Type} {f : Mapper (StateM S)} {g : Expander (StateM S)} {e : Expr}

def Mapper.Keeps (f : Mapper (StateM S)) : Prop :=
  ∀ (e : Expr) (s : S), ((f.map e e).run.run s).1 = .ok (some e)

def Expander.Keeps (g : Expander (StateM S)) : Prop :=
  ∀ (value : Expr) (s : S), ((g value []).run.run s).1 = .ok [value]

theorem map_eq_of_keeps (hf : f.Keeps) (scope : Scope) (policy : Policy) (e : Expr) (s : S) :
    ((map scope policy f e).run.run s).1 = .ok (some e) := by
  have step : StepGives (.returned (StateM S)) (fun _ => False) scope policy f (fun _ => True)
      fun e r => r = some e := by
    refine stepGives_unchanged (fun _ _ _ _ => trivial) fun e _ => ?_
    exact sure_iff.2 fun s => ⟨some e, hf e s, rfl⟩
  obtain ⟨r, hr, rfl⟩ := sure_iff.1 (step.map trivial) s
  exact hr

structure Refolds (e : Expr) (o : Option Expr) : Prop where
  obtainable : ∀ e' ∈ o, e'.Obtainable
  folded : ∀ e' ∈ o, e'.Folded
  same : e.Folded → o = some e

theorem refolds_of_rebuild? {cs : List Expr} (he : e.Obtainable) (hcs : Over Refolds e cs) :
    ∃ r, e.rebuild? cs = .ok r ∧ Refolds e r := by
  have hlength : cs.length = e.children.length := hcs.length_eq.symm
  have hobtainable : ∀ c ∈ cs, c.Obtainable := forall_mem_of_forall₂ (fun _ c hc => hc.obtainable c rfl) hcs
  have hfolded : ∀ c ∈ cs, c.Folded := forall_mem_of_forall₂ (fun _ c hc => hc.folded c rfl) hcs
  obtain ⟨r, hr, hvalue⟩ := he.exists_rebuild? hobtainable hlength
  refine ⟨r, hr, hvalue, fun value hmem => ?_, fun hself => ?_⟩
  · cases hmem
    exact he.folded_of_rebuild? hlength hfolded hr
  · -- Nothing to fold in the node, so nothing in its children, and they come back as they are.
    have hunchanged : e.children = cs := by
      refine eq_of_forall₂ hcs fun c hc c' _ hrefolds => ?_
      exact (Option.some.inj (hrefolds.same (hself.child hc))).symm
    rw [← hunchanged, he.rebuild?_children, Expr.refolded_of_none (hself e (.refl e))] at hr
    exact (Except.ok.inj hr).symm

theorem stepSingle_of_keeps (hg : Expander.Keeps g) (scope : Scope) :
    StepSingle (.returned (StateM S)) (fun _ => False) scope g Expr.Obtainable Refolds := by
  constructor
  case child => exact fun e he c hc => he.part (Expr.mem_parts_of_mem_children hc)
  case lost =>
    intro e _ c hc hnone
    refine ⟨forall_mem_none, forall_mem_none, fun hself => ?_⟩
    cases hnone.same (hself.child hc)
  case rebuilt =>
    intro e cs he hcs
    obtain ⟨r, hr, hrefolds⟩ := refolds_of_rebuild? he hcs
    rw [hr]
    refine ⟨fun hnone => hnone ▸ hrefolds, fun value hvalue _ => ?_⟩
    cases hvalue
    exact hrefolds
  case answered =>
    intro e cs value he _ hcs hvalue
    obtain ⟨r, hr, hrefolds⟩ := refolds_of_rebuild? he hcs
    rw [hvalue] at hr
    cases hr
    exact sure_iff.2 fun s => ⟨[value], hg value s, some value, rfl, hrefolds⟩

theorem expand_eq_iff_of_keeps (hg : Expander.Keeps g) (he : e.Obtainable) (scope : Scope) (limit : Nat)
    (s : S) : ((expand scope limit g e).run.run s).1 = .ok [e] ↔ e.Folded := by
  obtain ⟨_, hr, o, rfl, hrefolds⟩ := sure_iff.1 (expand_single (stepSingle_of_keeps hg scope) limit e he) s
  rw [hr]
  constructor
  · intro h
    cases o with
    | none => cases h
    | some e' =>
      cases h
      exact hrefolds.folded e rfl
  · intro hself
    rw [hrefolds.same hself]
    rfl

/-- Rebuilt over its own children, a node that can be built stays as it is, unless it is a logical operation on
constants: that becomes its truth. A mapping that changes no node gives every expression back; an expansion
that changes no node gives back those without such operations. -/
theorem unchanged_iff_folded (hf : f.Keeps) (hg : Expander.Keeps g) (he : e.Obtainable) (scope : Scope)
    (policy : Policy) (limit : Nat) (s : S) :
    (e.withChildren e.children = .ok e ↔ e.truth? = none) ∧
    (∀ b, e.truth? = some b → e.withChildren e.children = .ok (.int (Constant.ofTruth b))) ∧
    ((map scope policy f e).run.run s).1 = .ok (some e) ∧
    (((expand scope limit g e).run.run s).1 = .ok [e] ↔ e.Folded) := by
  refine ⟨?_, fun b hb => ?_, map_eq_of_keeps hf scope policy e s, expand_eq_iff_of_keeps hg he scope limit s⟩
  · rw [he.withChildren_children, Except.ok.injEq, Expr.refolded_eq_self_iff]
  · rw [he.withChildren_children, Expr.refolded, hb]

section Instances

def sameMapper : Mapper (StateM Unit) where
  map value _ := pure (some value)

def sameExpander : Expander (StateM Unit) := fun value _ => pure [value]

theorem keeps_sameMapper : sameMapper.Keeps := fun _ _ => rfl

theorem keeps_sameExpander : Expander.Keeps sameExpander := fun _ _ => rfl

/-- A sum that does not fit in its eight bits stays a sum, however often it is rebuilt. -/
theorem unchanged_of_wide_sum :
    sameMapper.Keeps ∧ Expander.Keeps sameExpander ∧
    ∃ e : Expr, e = .simplifyBinary .add ⟨8, false⟩ none (.int 200) (.int 100) ∧ e.Obtainable ∧ e.Folded ∧
      e.int? = none ∧ e.withChildren e.children = .ok e ∧
      ((map .all .drop sameMapper e).run.run ()).1 = .ok (some e) ∧
      ((expand .all 0 sameExpander e).run.run ()).1 = .ok [e] := by
  refine ⟨keeps_sameMapper, keeps_sameExpander, _, rfl, ?_⟩
  have he : (Expr.simplifyBinary .add ⟨8, false⟩ none (.int 200) (.int 100)).Obtainable := by
    refine .make (s := .binary .add ⟨8, false⟩ none (.int 200) (.int 100)) ?_ rfl
    exact List.forall_mem_cons.2 ⟨obtainable_int 200, List.forall_mem_singleton.2 (obtainable_int 100)⟩
  have hfolded : (Expr.simplifyBinary .add ⟨8, false⟩ none (.int 200) (.int 100)).Folded :=
    Expr.folded_simplifyBinary rfl (Expr.folded_int 200) (Expr.folded_int 100)
  obtain ⟨hrebuilt, -, hmap, hexpand⟩ :=
    unchanged_iff_folded keeps_sameMapper keeps_sameExpander he .all .drop 0 ()
  exact ⟨he, hfolded, rfl, hrebuilt.2 (hfolded _ (.refl _)), hmap, hexpand.2 hfolded⟩

/-- The negation of zero does not fold in one signed bit, where its truth has no room. The node has no width,
so rebuilding it folds it, and an expansion replaces it. -/
theorem negated_zero_refolds :
    ∃ e : Expr, e = .unary .not ⟨1, true⟩ (.int 0) ∧ e.Obtainable ∧ e.children = [.int 0] ∧
      e.withChildren [.int 0] = .ok (.int 1) ∧ e ≠ .int 1 ∧
      ((map .all .drop sameMapper e).run.run ()).1 = .ok (some e) ∧
      ((expand .all 0 sameExpander e).run.run ()).1 ≠ .ok [e] := by
  have he : (Expr.unary .not ⟨1, true⟩ (.int 0)).Obtainable :=
    .make (s := .unary .not ⟨1, true⟩ (.int 0)) (List.forall_mem_singleton.2 (obtainable_int 0)) rfl
  refine ⟨_, rfl, he, rfl, rfl, fun h => ?_, map_eq_of_keeps keeps_sameMapper .all .drop _ (), fun h => ?_⟩
  · cases congrArg Expr.shape h
  · have htruth := (expand_eq_iff_of_keeps keeps_sameExpander he .all 0 ()).1 h _ (.refl _)
    cases htruth

end Instances

end Retrace.Walk
