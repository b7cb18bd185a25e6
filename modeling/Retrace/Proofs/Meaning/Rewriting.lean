import Retrace.Proofs.Meaning.Truth
import Retrace.Proofs.Meaning.Valuation
import Retrace.Proofs.Walk.Entering

/-!
Rewriting keeps the meaning. A mapper that gives back nodes of the same value maps expressions to
expressions of the same value and formulas to formulas of the same truth, whatever it is asked about and
whatever is simplified on the way. Replacing a node by one of the same value is such a mapping.
-/

set_option autoImplicit false

namespace Retrace

/-- Constants are in range and nothing is shifted to the left, so that arithmetic never wraps around. -/
def Shape.Exact (s : Shape Expr) : Prop := s.InRange ∧ s.ShiftFree

namespace Expr

def InRange (e : Expr) : Prop := e.Throughout Shape.InRange

def Exact (e : Expr) : Prop := e.Throughout Shape.Exact

end Expr

theorem Shape.lasting_exact : Shape.Lasting Shape.Exact := lasting_inRange.and lasting_shiftFree

namespace Walk

open Returning

theorem remade_of_rebuilt {policy : Policy} {e value : Expr} {cs : List Expr}
    (h : rebuilt policy e cs = .ok (some value)) :
    (value = e ∧ (cs = e.children ∨ policy = .keep)) ∨ (cs ≠ e.children ∧ e.Remade cs value) := by
  unfold rebuilt at h
  split at h
  · rename_i hsame
    cases h
    exact .inl ⟨rfl, .inl hsame⟩
  rename_i hchanged
  obtain ⟨r, hr, hvalue⟩ := of_map (m := Except Fault) h
  unfold Expr.rebuild? at hr
  split at hr
  · obtain ⟨made, hmade, rfl⟩ := of_map (m := Except Fault) hr
    cases hvalue
    exact .inr ⟨hchanged, Expr.remade_of_withChildren hmade⟩
  · cases hr
    obtain ⟨hkeep, rfl⟩ := Policy.keep_of_fallback hvalue.symm
    exact .inl ⟨rfl, .inr hkeep⟩

theorem forall_reaches_rebuilt {p : Expr → Prop} {e value : Expr} {cs : List Expr}
    (h : rebuilt .drop e cs = .ok (some value)) (hself : p e) (hsame : ∀ s, e.shape.SameOperator s → p (.of s))
    (hint : ∀ v, p (.int v)) (hcs : ∀ c ∈ cs, ∀ a, c.Reaches a → p a) : ∀ a, value.Reaches a → p a := by
  rcases remade_of_rebuilt h with ⟨rfl, rfl | hkeep⟩ | ⟨-, hmade⟩
  · intro a ha
    cases ha with
    | refl => exact hself
    | child mem reaches => exact hcs _ mem a reaches
  · cases hkeep
  · exact hmade.forall_reaches hself hsame hint hcs

section Rebuilding

variable {I : Interpretation} {σ τ : Valuation} {q : Shape Expr → Prop} {policy : Policy} {e value : Expr}
  {cs : List Expr}

theorem throughout_rebuilt (folds : Shape.Folds q) (hkept : cs = e.children ∨ policy = .keep → e.Throughout q)
    (hsame : ∀ s, e.shape.SameOperator s → q s) (hcs : ∀ c ∈ cs, c.Throughout q)
    (h : rebuilt policy e cs = .ok (some value)) : value.Throughout q := by
  rcases remade_of_rebuilt h with ⟨rfl, hself⟩ | ⟨-, hmade⟩
  · exact hkept hself
  · exact Expr.throughout_of_remade folds (fun hself => hkept (.inl hself)) hsame hcs hmade

/-- A node that is rebuilt has its value, unless it shifts something else to the left than before. -/
theorem eval_rebuilt (hcs : List.Forall₂ (fun c c' => I.eval τ c' = I.eval σ c) e.children cs)
    (hrange : ∀ c ∈ cs, c.shape.InRange) (hshift : e.shape.ShiftFree ∨ cs = e.children)
    (hleaf : e.children = [] → I.eval τ e = I.eval σ e) (hkeep : policy = .keep → I.eval τ e = I.eval σ e)
    (h : rebuilt policy e cs = .ok (some value)) : I.eval τ value = I.eval σ e := by
  rcases remade_of_rebuilt h with ⟨rfl, rfl | hpolicy⟩ | ⟨hchanged, hmade⟩
  · exact Interpretation.eval_congr (List.forall₂_same.1 hcs) hleaf
  · exact hkeep hpolicy
  · have hfree := hshift.resolve_right hchanged
    refine Interpretation.eval_remade hmade hcs (fun c hc v hv => ?_) (fun w stride l r hshape => ?_) hleaf
    · have hint := hrange c hc
      rwa [hv] at hint
    · rw [hshape] at hfree
      exact hfree rfl

end Rebuilding

section Mapping

variable {m : Type → Type} [Monad m] [Returning m] {I : Interpretation} {σ : Valuation}
  {q : Shape Expr → Prop} {f : Mapper m}

def Mapper.Preserves (I : Interpretation) (σ : Valuation) (q : Shape Expr → Prop) (f : Mapper m) : Prop :=
  ∀ value node e', value.Throughout q → I.eval σ value = I.eval σ node →
    Returns (f.map value node) (some e') → e'.Throughout q ∧ I.eval σ e' = I.eval σ value

theorem Mapper.Preserves.stepKeeps (hf : f.Preserves I σ q) (lasting : Shape.Lasting q)
    (hexact : ∀ s : Shape Expr, s.Exact → q s) (hrange : ∀ s, q s → s.InRange) (scope : Scope)
    (policy : Policy) :
    StepKeeps scope policy f fun e e' => e.Exact → e'.Throughout q ∧ I.eval σ e' = I.eval σ e := by
  have step {e value : Expr} {cs : List Expr}
      (hcs : List.Forall₂ (fun c c' => c.Exact → c'.Throughout q ∧ I.eval σ c' = I.eval σ c) e.children cs)
      (h : rebuilt policy e cs = .ok (some value)) (he : e.Exact) :
      value.Throughout q ∧ I.eval σ value = I.eval σ e := by
    -- The operator of the node is still that of an exact node; of its new children only `q` is known.
    have hchildren := (List.forall₂_and_left _ _).2 ⟨fun c hc => he.child hc, hcs⟩
    have hq : ∀ c ∈ cs, c.Throughout q := forall_mem_of_forall₂ (fun _ _ hc => (hc.2 hc.1).1) hchildren
    have hsame : ∀ s, e.shape.SameOperator s → q s := fun s hs =>
      lasting.sameOperator _ s hs (hexact _ he.here)
    refine ⟨throughout_rebuilt lasting.toFolds (fun _ => he.imp hexact) hsame hq h, ?_⟩
    exact eval_rebuilt (hchildren.imp fun _ _ hc => (hc.2 hc.1).2) (fun c hc => hrange _ (hq c hc).here)
      (.inl he.here.2) (fun _ => rfl) (fun _ => rfl) h
  constructor
  · exact fun _ e he => ⟨he.imp hexact, rfl⟩
  · exact fun e cs value hcs hvalue _ he => step hcs hvalue he
  · intro e cs value hcs hvalue e' he' he
    obtain ⟨hq, hsame⟩ := step hcs hvalue he
    obtain ⟨hq', hsame'⟩ := hf value e e' hq hsame he'
    exact ⟨hq', hsame'.trans hsame⟩

theorem sensible_eval : Formula.Sensible (I.eval σ) where
  int e v h := by rw [Interpretation.eval_eq, h, Interpretation.layer]
  not e w a h := by rw [Interpretation.eval_eq, h, Interpretation.layer]; rfl

theorem layerKeeps_eval (I : Interpretation) (σ : Valuation) (q : Shape Expr → Prop) :
    LayerKeeps (fun e e' => e.Exact → e'.Throughout q ∧ I.eval σ e' = I.eval σ e)
      fun b b' => (∀ e ∈ b.terms, e.Exact) → b'.holds (I.eval σ) = b.holds (I.eval σ) :=
  (Formula.layerKeeps_holds Expr.Exact (I.eval σ) sensible_eval).imp fun _ _ h he => (h he).2

end Mapping

section Replacement

variable {I : Interpretation} {σ : Valuation} {old new : Expr}

theorem eval_reclose {e i h r : Expr} (hi : i.Exact) (hh : h ∈ e.hidden)
    (hsame : I.eval σ i = I.eval σ h) (hr : reclose e i = .ok r) : r.Exact ∧ I.eval σ r = I.eval σ e := by
  obtain ⟨d, s⟩ := e
  cases s with
  | frame inner id =>
    cases List.mem_singleton.1 hh
    change Expr.frame i id = .ok r at hr
    unfold Expr.frame at hr
    split at hr <;> cases hr
    refine ⟨⟨⟨trivial, trivial⟩, List.forall_mem_singleton.2 hi⟩, ?_⟩
    rw [Interpretation.eval_of, Interpretation.layer, Interpretation.eval, hsame]
  | moment m t kind =>
    cases List.mem_singleton.1 hh
    change Expr.moment m i kind = .ok r at hr
    have hr := Expr.moment_eq hr
    subst hr
    refine ⟨⟨⟨trivial, trivial⟩, List.forall_mem_singleton.2 hi⟩, ?_⟩
    rw [Interpretation.eval_of, Interpretation.layer, Interpretation.eval, hsame]
  | clobber | value => cases hr
  | _ => cases hh

theorem exact_of_map {f : Mapper Option} (hf : f.Preserves I σ Shape.Exact) {e : Expr} {r : Option Expr}
    (he : e.Exact) (h : (map .all .keep f e).run = some (.ok r)) :
    (r.getD e).Exact ∧ I.eval σ (r.getD e) = I.eval σ e := by
  cases r with
  | none => exact ⟨he, rfl⟩
  | some e' =>
    have hstep := hf.stepKeeps Shape.lasting_exact (fun _ hs => hs) (fun _ hs => hs.1) .all .keep
    exact map_related (m := Option) hstep h he

/-- A replacement by something of the same value preserves values if what it enters keeps its value. -/
theorem preserves_entering {again : Expr → Option (Except Fault (Option Expr))} (hnew : new.Exact)
    (hsame : I.eval σ new = I.eval σ old)
    (hagain : ∀ i r, i.Exact → again i = some (.ok r) → (r.getD i).Exact ∧ I.eval σ (r.getD i) = I.eval σ i) :
    (entering (replacing old new) again).Preserves I σ Shape.Exact := by
  intro value node e' hvalue hnode he'
  by_cases hold : node = old
  · rw [hold, entering_of_answer replacing_old] at he'
    cases returns_lift he'
    exact ⟨hnew, by rw [hsame, hnode, hold]⟩
  cases hopened : isOpened value with
  | false =>
    rw [entering_of_answer (replacing_closed hold hopened)] at he'
    cases returns_lift he'
    exact ⟨hvalue, rfl⟩
  | true =>
    obtain ⟨i, hi⟩ := exists_hidden_of_isOpened hopened
    rw [entering_of_enter (replacing_opened hold hopened hi)] at he'
    obtain ⟨r, hr, he'⟩ := of_bind he'
    obtain ⟨hi', hsame'⟩ := hagain i r (hvalue.hidden hi) hr
    obtain ⟨_, hmade, hsome⟩ := of_map (m := Except Fault) (returns_lift he')
    cases hsome
    exact eval_reclose hi' hi hsame' hmade

theorem preserves_enterer (hnew : new.Exact) (hsame : I.eval σ new = I.eval σ old) :
    (enterer .all .keep (replacing old new)).Preserves I σ Shape.Exact := by
  have hentered := mapEntering.partial_correctness .all .keep (replacing old new)
    (fun e r => ∀ r', r = .ok r' → e.Exact → (r'.getD e).Exact ∧ I.eval σ (r'.getD e) = I.eval σ e)
    fun again ih e r hr r' hr' he => by
      subst hr'
      exact exact_of_map (preserves_entering hnew hsame fun i r hi hr => ih i _ hr r rfl hi) he hr
  exact preserves_entering hnew hsame fun i r hi hr => hentered i _ hr r rfl hi

end Replacement

/-- Mappings preserve values and truth if their mapper preserves values, and so do replacements by something
of the same value. -/
theorem mapping_preserves_meaning {S : Type} (I : Interpretation) (σ : Valuation) (f : Mapper (StateM S))
    (hf : f.Preserves I σ Shape.InRange) (scope : Scope) (policy : Policy) (s : S) :
    (∀ e e', e.Exact → ((map scope policy f e).run.run s).1 = .ok (some e') → I.eval σ e' = I.eval σ e) ∧
    (∀ b b' : Formula, (∀ e ∈ b.terms, e.Exact) →
      ((mapFormula scope policy f b).run.run s).1 = .ok (some b') →
      b'.holds (I.eval σ) = b.holds (I.eval σ)) ∧
    ∀ old new, new.Exact → I.eval σ new = I.eval σ old →
      (∀ e e', e.Exact → replace old new e = .ok e' → I.eval σ e' = I.eval σ e) ∧
      ∀ b b' : Formula, (∀ e ∈ b.terms, e.Exact) → replaceFormula old new b = .ok b' →
        b'.holds (I.eval σ) = b.holds (I.eval σ) := by
  have hstep := hf.stepKeeps Shape.lasting_inRange (fun _ hs => hs.1) (fun _ hs => hs) scope policy
  refine ⟨fun e e' he h => ?_, fun b b' hb h => ?_, fun old new hnew hsame => ⟨fun e e' he h => ?_, ?_⟩⟩
  · exact (map_related hstep ⟨s, h⟩ he).2
  · exact mapFormula_related hstep (layerKeeps_eval I σ _) ⟨s, h⟩ hb
  · obtain ⟨r, hr, rfl⟩ := of_map (m := Except Fault) h
    have hrun := (run_map_enterer e).trans (eq_some_of_concluded hr)
    exact (exact_of_map (preserves_enterer hnew hsame) he hrun).2
  · intro b b' hb h
    obtain ⟨r, hr, rfl⟩ := of_map (m := Except Fault) h
    cases r with
    | none => rfl
    | some b' =>
      have hstep := (preserves_enterer hnew hsame).stepKeeps Shape.lasting_exact
        (fun _ hs => hs) (fun _ hs => hs.1) .all .keep
      exact mapFormula_related (m := Option) hstep (layerKeeps_eval I σ _) (eq_some_of_concluded hr) hb

def knownMapper (x : Variable) (v : Int) : Mapper (StateM Unit) where
  map value node := pure (some (if node.var? = some x then .int v else value))

theorem preserves_knownMapper {I : Interpretation} {σ : Valuation} {x : Variable} {v : Int}
    (hv : Constant.isInRange v = true) (hx : σ.var x = v) : (knownMapper x v).Preserves I σ Shape.InRange := by
  intro value node e' hvalue hnode he'
  have hmade := of_pure he'
  split at hmade
  · rename_i hvar
    cases hmade
    obtain ⟨d, s⟩ := node
    cases s with
    | var y =>
      cases hvar
      refine ⟨.leaf hv rfl, ?_⟩
      rw [Interpretation.eval_int, hnode, Interpretation.eval, hx]
    | _ => cases hvar
  · cases hmade
    exact ⟨hvalue, rfl⟩

theorem applied_knownMapper (x : Variable) (v : Int) (value node : Expr) :
    applied .drop (knownMapper x v) value node =
      pure (some (if node.var? = some x then .int v else value)) := by
  simp [applied, knownMapper]

def aboveFive (x : Variable) : Expr := .of (.binary .sub ⟨32, true⟩ none (.var x) (.int 5))

theorem exact_aboveFive (x : Variable) : (aboveFive x).Exact := by
  have hfive : Constant.isInRange 5 = true := by decide
  refine ⟨⟨trivial, fun h => by cases h⟩, ?_⟩
  change ∀ c ∈ [Expr.var x, .int 5], c.Exact
  rw [List.forall_mem_cons, List.forall_mem_singleton]
  exact ⟨.leaf ⟨trivial, trivial⟩ rfl, .leaf ⟨hfive, trivial⟩ rfl⟩

theorem mapFormula_knownMapper (x : Variable) :
    mapFormula .all .drop (knownMapper x 5) (.of (.nonzero (aboveFive x))) = pure (some (.const false)) := by
  have hne : Expr.int 5 ≠ .var x := of_ne_of (by simp)
  have hchanged : Expr.int 0 ≠ aboveFive x := of_ne_of (by simp)
  have hx : (Expr.var x).var? = some x := rfl
  have hfive : (Expr.int 5).var? ≠ some x := Option.some_ne_none x |>.symm
  have hnode : (aboveFive x).var? ≠ some x := Option.some_ne_none x |>.symm
  have hvalue : rebuilt .drop (aboveFive x) [.int 5, .int 5] = .ok (some (.int 0)) := by
    rw [rebuilt, if_neg]
    · rfl
    · intro h
      exact hne (List.cons.inj h).1
  have hmap := run_mapExpr_pair rfl hne rfl rfl
    (by rw [applied_knownMapper, if_pos hx]) (by rw [applied_knownMapper, if_neg hfive]) hvalue
    (by rw [applied_knownMapper, if_neg hnode])
  rw [Formula.of, run_mapFormula_nonzero _ hmap, Option.map_some, if_neg hchanged, Expr.int, Expr.of,
    Formula.nonzero]
  rfl

/-- A variable that is known to be five is tested for not being five: the test folds to a constant. -/
theorem mapping_preserves_meaning_of_known :
    ∃ (σ : Valuation) (f : Mapper (StateM Unit)) (b : Formula),
      b = .of (.nonzero (aboveFive (.ofGlobal "x"))) ∧
      f.Preserves .flat σ Shape.InRange ∧ (∀ e ∈ b.terms, e.Exact) ∧
      ((mapFormula .all .drop f b).run.run ()).1 = .ok (some (.const false)) ∧
      (Formula.const false).holds (Interpretation.flat.eval σ) = b.holds (Interpretation.flat.eval σ) := by
  let fives : Valuation := ⟨fun _ => 5, fun _ => 0, fun _ _ x => x, fun _ x => x⟩
  have hf : (knownMapper (.ofGlobal "x") 5).Preserves .flat fives Shape.InRange :=
    preserves_knownMapper (by decide) rfl
  have hexact : ∀ e ∈ (Formula.of (.nonzero (aboveFive (.ofGlobal "x")))).terms, e.Exact := by
    rw [Formula.of, Formula.terms]
    exact List.forall_mem_singleton.2 (exact_aboveFive _)
  have hmap : ((mapFormula .all .drop (knownMapper (.ofGlobal "x") 5)
      (.of (.nonzero (aboveFive (.ofGlobal "x"))))).run.run ()).1 = .ok (some (.const false)) := by
    rw [mapFormula_knownMapper]
    rfl
  exact ⟨fives, _, _, rfl, hf, hexact, hmap,
    (mapping_preserves_meaning .flat fives _ hf .all .drop ()).2.1 _ _ hexact hmap⟩

end Walk
end Retrace
