import Retrace.Proofs.Formula.Junction
import Retrace.Proofs.Walk.Entering
import Retrace.Proofs.Walk.Expansion
import Retrace.Walk.Replace

/-!
The normal form of formulas is an invariant: whatever is built by the factories, by exchanging operands
and by mapping, expanding and replacing is in normal form at every level. Flattening a junction looks only
one level down, which is enough because the operands are in normal form themselves.
-/

set_option autoImplicit false

namespace Retrace

namespace Expr

def isLogicalNot (e : Expr) : Bool :=
  match e.shape with
  | .unary .not _ _ => true
  | _ => false

end Expr

namespace Formula

def isNot (f : Formula) : Bool :=
  match f.clause with
  | .not _ => true
  | _ => false

def isJunction (k : Connective) (f : Formula) : Bool :=
  match f.clause with
  | .junction k' _ => k' == k
  | _ => false

end Formula

open Formula in
def Clause.IsNormal : Clause Formula → Prop
  | .const _ => True
  | .nonzero e => e.int? = none ∧ e.isLogicalNot = false
  | .not g => g.const? = none ∧ g.isNot = false
  | .junction k gs => 2 ≤ gs.length ∧ (gs.Pairwise fun f g => order f g = .lt) ∧
      ∀ g ∈ gs, g.const? = none ∧ g.isJunction k = false

namespace Formula

/-- All layers are in normal form, and nodes store the digests of their structure. -/
inductive Normal : Formula → Prop
  | of {c : Clause Formula} (layer : c.IsNormal) (operands : ∀ g ∈ c.operands, Normal g) :
    Normal (Formula.of c)

inductive Within (g : Formula) : Formula → Prop
  | self : Within g g
  | operand {f h : Formula} (mem : h ∈ f.operands) (within : Within g h) : Within g f

theorem Normal.of_mem_operands {f g : Formula} (h : Normal f) (hg : g ∈ f.operands) : Normal g := by
  obtain ⟨-, operands⟩ := h
  exact operands g hg

theorem Normal.isNormal {f : Formula} (h : Normal f) : f.clause.IsNormal := by
  obtain ⟨layer, -⟩ := h
  exact layer

theorem Normal.isNormal_of_within {f g : Formula} (h : Normal f) (hg : Within g f) :
    g.clause.IsNormal := by
  induction hg with
  | self => exact h.isNormal
  | operand mem _ ih => exact ih (h.of_mem_operands mem)

theorem normal_const (b : Bool) : Normal (const b) := .of trivial (List.forall_mem_nil _)

theorem normal_not {f : Formula} (h : Normal f) : Normal (not f) := by
  obtain ⟨layer, operands⟩ := h
  rename_i c
  cases c with
  | const b => exact normal_const (!b)
  | not g => exact operands g (List.mem_singleton_self g)
  | nonzero e => exact .of ⟨rfl, rfl⟩ (List.forall_mem_singleton.2 (.of layer operands))
  | junction k gs => exact .of ⟨rfl, rfl⟩ (List.forall_mem_singleton.2 (.of layer operands))

theorem nonzero_eq {e : Expr} (hint : e.int? = none) (hnot : e.isLogicalNot = false) :
    nonzero e = of (.nonzero e) := by
  obtain ⟨d, s⟩ := e
  refine nonzero.eq_3 _ (fun d v h => ?_) fun d w a h => ?_
  · cases h
    cases hint
  · cases h
    cases hnot

theorem normal_nonzero (e : Expr) : Normal (nonzero e) := by
  fun_induction nonzero e with
  | case1 d v => exact normal_const _
  | case2 d w e ih => exact normal_not ih
  | case3 e hint hnot =>
    obtain ⟨d, s⟩ := e
    refine .of ⟨?_, ?_⟩ (List.forall_mem_nil _)
    · cases s with
      | int v => exact (hint d v rfl).elim
      | _ => rfl
    · cases s with
      | unary op w e =>
        cases op with
        | not => exact (hnot d w e rfl).elim
        | _ => rfl
      | _ => rfl

/-- What an operand in normal form contributes to a junction is no constant and no junction of the same
kind, unless the operand decides the junction. -/
theorem mem_flatten_of_normal {k : Connective} {f g : Formula} (h : Normal f)
    (hne : f.const? ≠ some (!k.neutral)) (hg : g ∈ flatten k f) :
    Normal g ∧ g.const? = none ∧ g.isJunction k = false := by
  obtain ⟨layer, operands⟩ := h
  rename_i c
  cases c with
  | const b =>
    have hb : b = k.neutral := by
      cases b <;> cases hk : k.neutral <;> simp_all [const?]
    rw [flatten, clause_of] at hg
    simp [hb] at hg
  | nonzero e =>
    cases List.mem_singleton.1 hg
    exact ⟨.of layer operands, rfl, rfl⟩
  | not f =>
    cases List.mem_singleton.1 hg
    exact ⟨.of layer operands, rfl, rfl⟩
  | junction k' gs =>
    rw [flatten, clause_of] at hg
    dsimp only at hg
    split at hg
    · rename_i hk
      subst hk
      exact ⟨operands g hg, layer.2.2 g hg⟩
    · rename_i hk
      cases List.mem_singleton.1 hg
      exact ⟨.of layer operands, rfl, by simpa [isJunction] using hk⟩

theorem normal_junction (k : Connective) {fs : List Formula} (h : ∀ f ∈ fs, Normal f) :
    Normal (junction k fs) := by
  rcases junction_cases k fs with ⟨-, hdecided⟩ | ⟨hne, hcases⟩
  · rw [hdecided]
    exact normal_const _
  have hflat : ∀ g ∈ canonical (fs.flatMap (flatten k)),
      Normal g ∧ g.const? = none ∧ g.isJunction k = false := by
    intro g hg
    obtain ⟨f, hf, hgf⟩ := List.mem_flatMap.1 ((mem_canonical _).1 hg)
    exact mem_flatten_of_normal (h f hf) (hne f hf) hgf
  rcases hcases with ⟨-, hnothing⟩ | ⟨f, hone, hleft⟩ | ⟨hmany, hnode⟩
  · rw [hnothing]
    exact normal_const _
  · rw [hleft]
    exact (hflat f (by rw [hone]; exact List.mem_singleton_self f)).1
  · rw [hnode]
    exact .of ⟨hmany, pairwise_canonical _, fun g hg => (hflat g hg).2⟩ fun g hg => (hflat g hg).1

theorem normal_withOperands {f g : Formula} {gs : List Formula} (hf : Normal f) (hgs : ∀ g ∈ gs, Normal g)
    (h : f.withOperands gs = .ok g) : Normal g := by
  unfold withOperands at h
  split at h
  · split at h
    · cases h
      exact normal_not (hgs _ List.mem_cons_self)
    · cases h
      exact normal_junction _ hgs
    · cases h
      exact hf
  · cases h

theorem flatten_eq_singleton {k : Connective} {g : Formula} (hconst : g.const? = none)
    (hjunction : g.isJunction k = false) : flatten k g = [g] := by
  obtain ⟨d, c⟩ := g
  cases c with
  | const b => cases hconst
  | not g => rfl
  | nonzero e => rfl
  | junction k' gs =>
    have hk : k' ≠ k := by simpa [isJunction] using hjunction
    simp [flatten, hk]

theorem Normal.withOperands_self {f : Formula} (h : Normal f) : f.withOperands f.operands = .ok f := by
  obtain ⟨layer, -⟩ := h
  rename_i c
  unfold withOperands
  rw [if_pos rfl]
  cases c with
  | const b => rfl
  | nonzero e => rfl
  | not g =>
    obtain ⟨hconst, hnot⟩ := layer
    obtain ⟨d, c⟩ := g
    cases c with
    | const b => cases hconst
    | not g => cases hnot
    | nonzero e => rfl
    | junction k gs => rfl
  | junction k gs =>
    obtain ⟨hlength, hsorted, hgs⟩ := layer
    have hsame : gs.flatMap (flatten k) = gs := by
      have hflatten : ∀ g ∈ gs, flatten k g = [g] := fun g hg =>
        flatten_eq_singleton (hgs g hg).1 (hgs g hg).2
      rw [List.flatMap_congr hflatten, List.flatMap_singleton']
    change Except.ok (junction k gs) = _
    -- None of the operands decides the junction, and two or more of them are left.
    rcases junction_cases k gs with ⟨⟨g, hg, hdecides⟩, -⟩ | ⟨-, ⟨hnothing, -⟩ | ⟨g, hone, -⟩ | ⟨-, hnode⟩⟩
    · rw [(hgs g hg).1] at hdecides
      cases hdecides
    · rw [hsame, canonical_of_pairwise hsorted] at hnothing
      rw [hnothing] at hlength
      cases hlength
    · rw [hsame, canonical_of_pairwise hsorted] at hone
      rw [hone] at hlength
      simp at hlength
    · rw [hnode, hsame, canonical_of_pairwise hsorted]

theorem mem_termsAll {t : Expr} {fs : List Formula} : t ∈ termsAll fs ↔ ∃ f ∈ fs, t ∈ f.terms := by
  induction fs with
  | nil => simp [termsAll]
  | cons f fs ih => simp [termsAll, ih]

theorem mem_terms_of_mem_operands {t : Expr} {f g : Formula} (hg : g ∈ f.operands) (ht : t ∈ g.terms) :
    t ∈ f.terms := by
  obtain ⟨d, c⟩ := f
  cases c with
  | const b => cases hg
  | nonzero e => cases hg
  | not f =>
    cases List.mem_singleton.1 hg
    rwa [terms]
  | junction k fs =>
    rw [terms]
    exact mem_termsAll.2 ⟨g, hg, ht⟩

theorem exists_mem_operands {b : Formula} {t : Expr} (hb : ∀ e, b.clause ≠ .nonzero e) (ht : t ∈ b.terms) :
    ∃ g ∈ b.operands, t ∈ g.terms := by
  obtain ⟨d, c⟩ := b
  cases c with
  | const v =>
    rw [terms] at ht
    cases ht
  | nonzero e => exact absurd rfl (hb e)
  | not g =>
    rw [terms] at ht
    exact ⟨g, List.mem_singleton_self g, ht⟩
  | junction k gs =>
    rw [terms] at ht
    exact mem_termsAll.1 ht

theorem mem_terms_of_clause {b : Formula} {e : Expr} (h : b.clause = .nonzero e) : e ∈ b.terms := by
  obtain ⟨d, c⟩ := b
  cases h
  rw [terms]
  exact List.mem_singleton_self e

theorem layerGives_self (q : Fault → Prop) (Q : Expr → Prop) :
    Walk.LayerGives q Q (fun e r => r = some e) (fun b => Normal b ∧ ∀ e ∈ b.terms, Q e)
      fun b r => r = some b where
  tested _ e hb he := hb.2 e (mem_terms_of_clause he)
  operand b hb g hg := ⟨hb.1.of_mem_operands hg, fun e he => hb.2 e (mem_terms_of_mem_operands hg he)⟩
  lost b _ h := by
    obtain ⟨e, -, hnone⟩ | ⟨g, -, hnone⟩ := h
    · cases hnone
    · cases hnone
  nonzero b e e' _ _ he' := by rw [if_pos (Option.some.inj he')]
  operands b bs hb _ hbs := by
    have hsame : b.operands = bs := eq_of_forall₂ hbs fun _ _ _ _ hg => (Option.some.inj hg).symm
    rw [← hsame, hb.1.withOperands_self]
    rfl

open Walk (Scope Policy Mapper Expander)

/-- What can be built: by the factories, from new operands, and by the traversals with any mapper or
expander, which may also keep a state of its own. -/
inductive Obtainable : Formula → Prop
  | const (b : Bool) : Obtainable (const b)
  | nonzero (e : Expr) : Obtainable (nonzero e)
  | comparison {op : BinOp} {l r : Expr} {f : Formula} (made : comparison op l r = .ok f) : Obtainable f
  | not {f : Formula} (hf : Obtainable f) : Obtainable (not f)
  | and {f g : Formula} (hf : Obtainable f) (hg : Obtainable g) : Obtainable (and f g)
  | all {fs : List Formula} (hfs : ∀ f ∈ fs, Obtainable f) : Obtainable (all fs)
  | or {f g : Formula} (hf : Obtainable f) (hg : Obtainable g) : Obtainable (or f g)
  | any {fs : List Formula} (hfs : ∀ f ∈ fs, Obtainable f) : Obtainable (any fs)
  | imply {f g : Formula} (hf : Obtainable f) (hg : Obtainable g) : Obtainable (imply f g)
  | withOperands {f g : Formula} {gs : List Formula} (hf : Obtainable f) (hgs : ∀ g ∈ gs, Obtainable g)
    (made : f.withOperands gs = .ok g) : Obtainable g
  | map {σ : Type} {scope : Scope} {policy : Policy} {mapper : Mapper (StateM σ)} {s : σ} {f g : Formula}
    (hf : Obtainable f) (made : ((Walk.mapFormula scope policy mapper f).run.run s).1 = .ok (some g)) :
    Obtainable g
  | expand {σ : Type} {scope : Scope} {limit : Nat} {expander : Expander (StateM σ)} {s : σ} {f g : Formula}
    {gs : List Formula} (hf : Obtainable f)
    (made : ((Walk.expandFormula scope limit expander f).run.run s).1 = .ok gs) (mem : g ∈ gs) :
    Obtainable g
  | replace {old new : Expr} {f g : Formula} (hf : Obtainable f)
    (made : Walk.replaceFormula old new f = .ok g) : Obtainable g

theorem normal_of_forall₂ {fs gs : List Formula} (hfs : ∀ f ∈ fs, Normal f)
    (h : List.Forall₂ (fun f g => Normal f → Normal g) fs gs) : ∀ g ∈ gs, Normal g :=
  Walk.forall_mem_of_forall₂ (fun _ _ hfg => hfg.2 hfg.1) ((List.forall₂_and_left fs gs).2 ⟨hfs, h⟩)

/-- The normal form does not depend on what the mapper makes of expressions. -/
theorem normal_of_mapFormula {m : Type → Type} [Monad m] [Returning m] {scope : Scope} {policy : Policy}
    {mapper : Mapper m} {f g : Formula} (hf : Normal f)
    (h : Returns (Walk.mapFormula scope policy mapper f) (some g)) : Normal g := by
  have step : Walk.StepKeeps scope policy mapper fun _ _ => True :=
    ⟨fun _ _ => trivial, fun _ _ _ _ _ _ => trivial, fun _ _ _ _ _ _ _ => trivial⟩
  have layer : Walk.LayerKeeps (fun _ _ => True) fun f g => Normal f → Normal g := by
    constructor
    · intro b e e' _ _ hb
      split
      · exact hb
      · exact normal_nonzero e'
    · intro b bs b' _ hbs hb' hb
      exact normal_withOperands hb (normal_of_forall₂ (fun _ => hb.of_mem_operands) hbs) hb'
  exact Walk.mapFormula_related step layer h hf

theorem normal_of_expandFormula {m : Type → Type} [Monad m] [Returning m] {scope : Scope} {limit : Nat}
    {expander : Expander m} {f g : Formula} {gs : List Formula} (hf : Normal f)
    (h : Returns (Walk.expandFormula scope limit expander f) gs) (hg : g ∈ gs) : Normal g := by
  have layer : Walk.LayerExpands fun f g => Normal f → Normal g := by
    constructor
    · exact fun b hb => hb
    · exact fun b e e' _ _ => normal_nonzero e'
    · intro b bs b' hbs hb' hb
      exact normal_withOperands hb (normal_of_forall₂ (fun _ => hb.of_mem_operands) hbs) hb'
  exact Walk.expandFormula_related layer f h g hg hf

theorem normal_of_replaceFormula {old new : Expr} {f g : Formula} (hf : Normal f)
    (h : Walk.replaceFormula old new f = .ok g) : Normal g := by
  obtain ⟨r, hr, rfl⟩ := Returning.of_map (m := Except Fault) h
  cases r with
  | none => exact hf
  | some g => exact normal_of_mapFormula (m := Option) hf (Walk.eq_some_of_concluded hr)

theorem Obtainable.normal {f : Formula} (h : Obtainable f) : Normal f := by
  induction h with
  | const b => exact normal_const b
  | nonzero e => exact normal_nonzero e
  | comparison made =>
    unfold Formula.comparison at made
    split at made
    · cases made
      exact normal_nonzero _
    · cases made
  | not _ ih => exact normal_not ih
  | and _ _ ihf ihg => exact normal_junction _ (by simp [ihf, ihg])
  | all _ ih => exact normal_junction _ ih
  | or _ _ ihf ihg => exact normal_junction _ (by simp [ihf, ihg])
  | any _ ih => exact normal_junction _ ih
  | imply _ _ ihf ihg => exact normal_junction _ (by simp [normal_not ihf, ihg])
  | withOperands _ _ made ihf ihgs => exact normal_withOperands ihf ihgs made
  | map _ made ih => exact normal_of_mapFormula (m := StateM _) ih ⟨_, made⟩
  | expand _ made mem ih => exact normal_of_expandFormula (m := StateM _) ih ⟨_, made⟩ mem
  | replace _ made ih => exact normal_of_replaceFormula ih made

/-- Every formula that can be built is in normal form at every level, and is what its layer makes of its
own operands. -/
theorem normalForm_of_obtainable {f : Formula} (h : Obtainable f) :
    (∀ g, Within g f → g.clause.IsNormal) ∧ f.withOperands f.operands = .ok f :=
  ⟨fun _ hg => h.normal.isNormal_of_within hg, h.normal.withOperands_self⟩

theorem nonzero_of {s : Shape Expr} (hint : ∀ v, s ≠ .int v) (hnot : ∀ w a, s ≠ .unary .not w a) :
    nonzero (.of s) = of (.nonzero (.of s)) := by
  refine nonzero.eq_3 _ (fun d v h => hint v ?_) (fun d w a h => hnot w a ?_)
  · exact congrArg Expr.shape h
  · exact congrArg Expr.shape h

def negatingMapper (x y : Variable) : Mapper (StateM Unit) where
  map value node :=
    pure (some (if node.var? = some y then .of (.unary .not .unbounded (.var x)) else value))

theorem mapFormula_negatingMapper (x y : Variable) :
    ((Walk.mapFormula .all .drop (negatingMapper x y) (nonzero (.var y))).run.run ()).1 =
      .ok (some (not (nonzero (.var x)))) := by
  have hne : Expr.of (.unary .not .unbounded (.var x)) ≠ .var y := Walk.of_ne_of (by simp)
  have happlied : Walk.applied .drop (negatingMapper x y) (.var y) (.var y) =
      pure (some (.of (.unary .not .unbounded (.var x)))) := by
    have hy : (Expr.var y).var? = some y := rfl
    simp [Walk.applied, negatingMapper, hy]
  have htest : nonzero (.var y) = of (.nonzero (.var y)) := nonzero_of (by simp) (by simp)
  have hmapped : nonzero (.of (.unary .not .unbounded (.var x))) = not (nonzero (.var x)) := by
    rw [Expr.of, nonzero]
  rw [htest, of,
    Walk.run_mapFormula_nonzero _ (Walk.run_mapExpr_leaf rfl rfl happlied), Option.map_some, if_neg hne,
    hmapped]
  rfl

/-- A tested variable is mapped to a negation, so that the formula becomes one and joins the operand that
it negates. -/
theorem normalForm_of_obtainable_of_negation :
    ∃ f : Formula, f = or (not (nonzero (.var (.ofGlobal "x")))) (nonzero (.var (.ofGlobal "x"))) ∧
      Obtainable f ∧ (∀ g, Within g f → g.clause.IsNormal) ∧ f.withOperands f.operands = .ok f := by
  have hmapped := Obtainable.map (.nonzero _)
    (mapFormula_negatingMapper (.ofGlobal "x") (.ofGlobal "y"))
  have hor := Obtainable.or hmapped (.nonzero (.var (.ofGlobal "x")))
  exact ⟨_, rfl, hor, normalForm_of_obtainable hor⟩

end Formula
end Retrace
