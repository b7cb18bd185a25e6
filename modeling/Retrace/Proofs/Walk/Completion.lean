import Retrace.Proofs.Expr.Obtainable
import Retrace.Proofs.Formula.Normal

/-!
Traversals come to an end without a fault. Whatever a mapper answers, the node around the answer is rebuilt
only where the answer suits it as a target, and everything else that its factory asks for it has by being a
node that could be built.
-/

set_option autoImplicit false

namespace Retrace

theorem Formula.exists_withOperands {f : Formula} {gs : List Formula} (h : gs.length = f.operands.length) :
    ∃ g, f.withOperands gs = .ok g := by
  unfold withOperands
  rw [if_pos h]
  split <;> exact ⟨_, rfl⟩

namespace Walk

open Guarantee (sure sure_iff)

variable {S : Type} {scope : Scope} {policy : Policy} {limit : Nat} {f : Mapper (StateM S)}
  {g : Expander (StateM S)} {e : Expr} {cs : List Expr}

def Mapper.Safe (f : Mapper (StateM S)) : Prop :=
  ∀ value node : Expr, value.Obtainable → node.Obtainable →
    ∀ s, ∃ r, ((f.map value node).run.run s).1 = .ok r ∧ ∀ e ∈ r, e.Obtainable

def Expander.Safe (g : Expander (StateM S)) : Prop :=
  ∀ (value : Expr) (found : List Expr), value.Obtainable → (∀ e ∈ found, e.Obtainable) →
    ∀ s, ∃ r, ((g value found).run.run s).1 = .ok r ∧ ∀ e ∈ r, e.Obtainable

/-- A result that can be built, and that is there where nodes are kept. -/
def Completes (policy : Policy) (r : Option Expr) : Prop :=
  (∀ e ∈ r, e.Obtainable) ∧ (policy = .keep → r.isSome = true)

theorem completes_some (he : e.Obtainable) : Completes policy (some e) := by
  refine ⟨fun e' he' => ?_, fun _ => rfl⟩
  cases he'
  exact he

theorem completes_or_fallback {r : Option Expr} (hr : ∀ e ∈ r, e.Obtainable) (he : e.Obtainable) :
    Completes policy (r.or (policy.fallback e)) := by
  cases r with
  | some e' => exact completes_some (hr e' rfl)
  | none =>
    cases policy with
    | drop => exact ⟨forall_mem_none, fun hkeep => by cases hkeep⟩
    | keep => exact completes_some he

theorem exists_rebuilt (policy : Policy) (he : e.Obtainable) (hcs : ∀ c ∈ cs, c.Obtainable)
    (hlength : cs.length = e.children.length) : ∃ r, rebuilt policy e cs = .ok r ∧ Completes policy r := by
  unfold rebuilt
  split
  · exact ⟨some e, rfl, completes_some he⟩
  · obtain ⟨r, hr, hvalue⟩ := he.exists_rebuild? hcs hlength
    rw [hr]
    exact ⟨_, rfl, completes_or_fallback hvalue he⟩

/-- A mapper that keeps to what can be built comes to a result everywhere, or to its own faults. -/
theorem stepGives_completes {m : Type → Type} [Monad m] [LawfulMonad m] {G : Guarantee m} {q : Fault → Prop}
    {f : Mapper m} (hf : ∀ value node, value.Obtainable → node.Obtainable →
      (G.throwing q).Gives (f.map value node) fun r => ∀ e ∈ r, e.Obtainable) (scope : Scope)
    (policy : Policy) : StepGives G q scope policy f Expr.Obtainable fun _ => Completes policy := by
  have rebuilt {e : Expr} {cs : List Expr} (he : e.Obtainable) (hcs : Over (fun _ => Completes policy) e cs) :
      ∃ r, rebuilt policy e cs = .ok r ∧ Completes policy r := by
    refine exists_rebuilt policy he ?_ hcs.length_eq.symm
    exact forall_mem_of_forall₂ (fun _ c hc => hc.1 c rfl) hcs
  constructor
  case child => exact fun e he c hc => he.part (Expr.mem_parts_of_mem_children hc)
  case kept => exact fun _ e he _ => completes_some he
  case lost => exact fun e _ c _ hnone => hnone
  case rebuilt =>
    intro e cs he hcs
    obtain ⟨r, hr, hcompletes⟩ := rebuilt he hcs
    rw [hr]
    exact ⟨fun hnone => hnone ▸ hcompletes, fun value hvalue _ => completes_some (hcompletes.1 value hvalue)⟩
  case answered =>
    intro e cs value he _ hcs hvalue
    obtain ⟨r, hr, hcompletes⟩ := rebuilt he hcs
    rw [hvalue] at hr
    cases hr
    have hvalue := hcompletes.1 value rfl
    exact (G.throwing q).imp (hf value e hvalue he) fun r hr => completes_or_fallback hr hvalue

theorem Mapper.Safe.stepGives (hf : f.Safe) (scope : Scope) (policy : Policy) :
    StepGives (.returned (StateM S)) (fun _ => False) scope policy f Expr.Obtainable fun _ => Completes policy :=
  stepGives_completes (fun value node hvalue hnode => sure_iff.2 (hf value node hvalue hnode)) scope policy

theorem layerGives_completes {q : Fault → Prop} (policy : Policy) :
    LayerGives q Expr.Obtainable (fun _ => Completes policy)
      (fun b => ∀ e ∈ b.terms, e.Obtainable) fun _ r => policy = .keep → r.isSome = true where
  tested _ e hb he := hb e (Formula.mem_terms_of_clause he)
  operand b hb g hg e he := hb e (Formula.mem_terms_of_mem_operands hg he)
  lost b _ h := by
    obtain ⟨e, -, hnone⟩ | ⟨g, -, hnone⟩ := h
    · exact hnone.2
    · exact hnone
  nonzero _ _ _ _ _ _ _ := rfl
  operands b bs _ _ hbs := by
    obtain ⟨b', hb'⟩ := Formula.exists_withOperands hbs.length_eq.symm
    rw [hb']
    exact fun _ => rfl

theorem Expander.Safe.stepExpands (hg : Expander.Safe g) (scope : Scope) :
    StepExpands (.returned (StateM S)) (fun _ => False) scope g Expr.Obtainable fun _ => Expr.Obtainable := by
  have rebuilt {e : Expr} {cs : List Expr} (he : e.Obtainable)
      (hcs : List.Forall₂ (fun _ => Expr.Obtainable) e.children cs) :
      ∃ r, e.rebuild? cs = .ok r ∧ ∀ value ∈ r, value.Obtainable :=
    he.exists_rebuild? (forall_mem_of_forall₂ (fun _ _ hc => hc) hcs) hcs.length_eq.symm
  constructor
  case child => exact fun e he c hc => he.part (Expr.mem_parts_of_mem_children hc)
  case self => exact fun e he => he
  case rebuilt =>
    intro e cs he hcs
    obtain ⟨r, hr, hvalue⟩ := rebuilt he hcs
    rw [hr]
    exact fun value hmem _ => hvalue value hmem
  case answered =>
    intro e cs value found he _ hcs hvalue hfound
    obtain ⟨r, hr, hobtainable⟩ := rebuilt he hcs
    rw [hvalue] at hr
    cases hr
    exact sure_iff.2 (hg value found (hobtainable value rfl) hfound)

theorem layerExpandsTo_obtainable {P : Expr → Expr → Prop} :
    LayerExpandsTo (fun _ => False) Expr.Obtainable P (fun b => ∀ e ∈ b.terms, e.Obtainable)
      fun _ _ => True where
  tested _ e hb he := hb e (Formula.mem_terms_of_clause he)
  operand b hb g hg e he := hb e (Formula.mem_terms_of_mem_operands hg he)
  self _ _ := trivial
  nonzero _ _ _ _ _ _ := trivial
  operands b bs _ hbs := by
    obtain ⟨b', hb'⟩ := Formula.exists_withOperands hbs.length_eq.symm
    rw [hb']
    trivial

/-- Mapping and expanding what can be built comes to a result without a fault, whatever unsuitable children
nodes are given. Where nodes are kept, a mapping is never without a result. -/
theorem traversals_complete (hf : f.Safe) (hg : Expander.Safe g) (scope : Scope) (policy : Policy) (limit : Nat)
    (s : S) :
    (∀ e : Expr, e.Obtainable →
      (∃ r, ((map scope policy f e).run.run s).1 = .ok r ∧ (∀ e' ∈ r, e'.Obtainable) ∧
        (policy = .keep → r.isSome = true)) ∧
      ∃ r, ((expand scope limit g e).run.run s).1 = .ok r ∧ ∀ e' ∈ r, e'.Obtainable) ∧
    ∀ b : Formula, (∀ e ∈ b.terms, e.Obtainable) →
      (∃ r, ((mapFormula scope policy f b).run.run s).1 = .ok r ∧ (policy = .keep → r.isSome = true)) ∧
      ∃ r, ((expandFormula scope limit g b).run.run s).1 = .ok r := by
  have step := hf.stepGives scope policy
  have hexpand (e : Expr) (he : e.Obtainable) :
      (sure (StateM S)).Gives (expand scope limit g e) fun r => ∀ e' ∈ r, e'.Obtainable :=
    expand_gives (hg.stepExpands scope) e he
  refine ⟨fun e he => ⟨sure_iff.1 (step.map he) s, sure_iff.1 (hexpand e he) s⟩, fun b hb => ⟨?_, ?_⟩⟩
  · exact sure_iff.1 (step.mapFormula (layerGives_completes policy) hb) s
  · obtain ⟨r, hr, -⟩ := sure_iff.1 (expandFormula_gives layerExpandsTo_obtainable hexpand b hb) s
    exact ⟨r, hr⟩

/-- Exchanges variables for a constant that no location can be based on, declines everything else, and counts
how often it is asked. -/
def unsuitableMapper : Mapper (StateM Nat) where
  map _ node := do
    modify (· + 1)
    return if node.var?.isSome then some (.float "1.5") else none

def unsuitableExpander : Expander (StateM Nat) := fun value found => do
  modify (· + 1)
  return if value.var?.isSome then addDistinct (addDistinct found value) (.float "1.5")
    else addDistinct found value

theorem obtainable_float (digits : String) : (Expr.float digits).Obtainable :=
  .make (s := .float digits) (List.forall_mem_nil _) rfl

theorem obtainable_int (v : Int) : (Expr.int v).Obtainable :=
  .make (s := .int v) (List.forall_mem_nil _) rfl

theorem obtainable_var (v : Variable) : (Expr.var v).Obtainable :=
  .make (s := .var v) (List.forall_mem_nil _) rfl

theorem obtainable_deref_var (v : Variable) : (Expr.of (.access .deref (.var v))).Obtainable :=
  .make (s := .access .deref (.var v)) (List.forall_mem_singleton.2 (obtainable_var v)) rfl

theorem safe_unsuitableMapper : unsuitableMapper.Safe := by
  intro value node _ _ s
  refine ⟨if node.var?.isSome then some (.float "1.5") else none, rfl, fun e he => ?_⟩
  split at he
  · cases he
    exact obtainable_float _
  · cases he

theorem safe_unsuitableExpander : Expander.Safe unsuitableExpander := by
  intro value found hvalue hfound s
  refine ⟨_, rfl, ?_⟩
  split
  · exact forall_mem_addDistinct (forall_mem_addDistinct hfound hvalue) (obtainable_float _)
  · exact forall_mem_addDistinct hfound hvalue

/-- The target of a dereference is exchanged for a constant that cannot be dereferenced. -/
theorem traversals_complete_of_unsuitable :
    unsuitableMapper.Safe ∧ Expander.Safe unsuitableExpander ∧
    ∃ e : Expr, e = .of (.access .deref (.var (.ofGlobal "x"))) ∧ e.Obtainable ∧
      e.rebuild? [.float "1.5"] = .ok none ∧
      ∀ (scope : Scope) (policy : Policy) (limit s : Nat),
        (∃ r, ((map scope policy unsuitableMapper e).run.run s).1 = .ok r ∧ (policy = .keep → r.isSome = true)) ∧
        (∃ r, ((expand scope limit unsuitableExpander e).run.run s).1 = .ok r) ∧
        (∃ r, ((mapFormula scope policy unsuitableMapper (.of (.nonzero e))).run.run s).1 = .ok r ∧
          (policy = .keep → r.isSome = true)) ∧
        ∃ r, ((expandFormula scope limit unsuitableExpander (.of (.nonzero e))).run.run s).1 = .ok r := by
  refine ⟨safe_unsuitableMapper, safe_unsuitableExpander, _, rfl, obtainable_deref_var _, rfl, ?_⟩
  intro scope policy limit s
  obtain ⟨hexpr, hformula⟩ :=
    traversals_complete safe_unsuitableMapper safe_unsuitableExpander scope policy limit s
  obtain ⟨⟨r, hr, -, hkeep⟩, r', hr', -⟩ := hexpr _ (obtainable_deref_var (.ofGlobal "x"))
  refine ⟨⟨r, hr, hkeep⟩, ⟨r', hr'⟩, hformula _ ?_⟩
  rw [Formula.of, Formula.terms]
  exact List.forall_mem_singleton.2 (obtainable_deref_var _)

end Walk
end Retrace
