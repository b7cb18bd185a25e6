import Retrace.Proofs.Expr.Refolding
import Retrace.Proofs.Walk.Completion
import Retrace.Proofs.Walk.Recursion

/-!
Expansions that find one alternative or none for each value. Such an expansion comes to what a mapping comes to
that drops what is declined: its one alternative is the result of the mapping, and it has none where the mapping
has dropped the expression. An expansion rebuilds every node and a mapping only those whose children changed,
so the nodes have to be such that rebuilding one over its own children makes no difference.
-/

set_option autoImplicit false

namespace Retrace

namespace Expr

variable {e c value : Expr} {cs : List Expr}

/-- All nodes that can be come to from child to child come out as they are when rebuilt over their own
children. -/
def Stable (e : Expr) : Prop := ∀ a, e.Reaches a → a.withChildren a.children = .ok a

theorem Stable.here (h : e.Stable) : e.withChildren e.children = .ok e := h e (.refl e)

theorem Stable.child (h : e.Stable) (hc : c ∈ e.children) : c.Stable := fun a ha => h a (.child hc ha)

theorem Obtainable.stable (he : e.Obtainable) (h : e.Folded) : e.Stable := by
  intro a ha
  induction ha with
  | refl e => rw [he.withChildren_children, refolded_of_none (h e (.refl e))]
  | child mem _ ih => exact ih (he.part (mem_parts_of_mem_children mem)) (h.child mem)

theorem make_of_withChildren (h : e.withChildren e.children = .ok value) (hne : e.children ≠ []) :
    e.shape.make = .ok value := by
  rwa [withChildren_eq_make rfl hne, children, over_children] at h

theorem rebuild?_children_of_withChildren (h : e.withChildren e.children = .ok value) :
    e.rebuild? e.children = .ok (some value) := by
  by_cases hleaf : e.children = []
  · rw [hleaf, withChildren_nil hleaf] at h
    cases h
    rw [hleaf, rebuild?_nil hleaf]
  · have haccepts : e.acceptsTarget e.children = true := Shape.acceptsTarget_of_make (make_of_withChildren h hleaf)
    rw [rebuild?, if_pos haccepts, h]
    rfl

end Expr

namespace Walk

open Guarantee (exists_of_sure_id)

def partialMapper (g : Expr → Option Expr) : Mapper Id where
  map value _ := pure (g value)

def partialExpander (g : Expr → Option Expr) : Expander Id := pureExpander (addAll fun value => (g value).toList)

section Lists

variable {α β : Type} {f : α → Except Fault (Option β)} {as : List α} {bs : List β}

theorem mapEach_eq_some (h : List.Forall₂ (fun a b => f a = .ok (some b)) as bs) : mapEach f as = .ok (some bs) := by
  induction h with
  | nil => rfl
  | cons first _ ih => rw [mapEach, first, ih]; rfl

theorem mapEach_cases (h : ∀ a ∈ as, ∃ r, f a = .ok r) :
    mapEach f as = .ok none ∧ (∃ a ∈ as, f a = .ok none) ∨
      ∃ bs, mapEach f as = .ok (some bs) ∧ List.Forall₂ (fun a b => f a = .ok (some b)) as bs := by
  induction as with
  | nil => exact .inr ⟨[], rfl, .nil⟩
  | cons a as ih =>
    obtain ⟨⟨r, hr⟩, has⟩ := List.forall_mem_cons.1 h
    cases r with
    | none => exact .inl ⟨by rw [mapEach, hr]; rfl, a, List.mem_cons_self, hr⟩
    | some b =>
      rcases ih has with ⟨hnone, c, hc, hdeclined⟩ | ⟨bs, hsome, hbs⟩
      · exact .inl ⟨by rw [mapEach, hr, hnone]; rfl, c, List.mem_cons_of_mem a hc, hdeclined⟩
      · exact .inr ⟨b :: bs, by rw [mapEach, hr, hsome]; rfl, .cons hr hbs⟩

theorem mapEach_eq_none (h : ∀ a ∈ as, ∃ r, f a = .ok r) {a : α} (ha : a ∈ as) (hnone : f a = .ok none) :
    mapEach f as = .ok none := by
  rcases mapEach_cases h with ⟨hresult, -⟩ | ⟨bs, -, hbs⟩
  · exact hresult
  · have hsome : ∀ a ∈ as, f a ≠ .ok none := forall_mem_of_forall₂ (fun b a hb => by simp [hb]) hbs.flip
    exact absurd hnone (hsome a ha)

end Lists

section Images

variable {scope : Scope} {g : Expr → Option Expr} {e c : Expr} {cs : List Expr}

def Image (scope : Scope) (g : Expr → Option Expr) (e : Expr) (r : Option Expr) : Prop :=
  recurse scope .drop (fun value _ => .ok (g value)) e = .ok r

def answer (scope : Scope) (g : Expr → Option Expr) (e value : Expr) : Option Expr :=
  if scope.includes e then g value else some value

theorem rebuilt_drop (h : e.withChildren e.children = .ok e) (cs : List Expr) :
    rebuilt .drop e cs = e.rebuild? cs := by
  unfold rebuilt
  split
  · rename_i hsame
    rw [hsame, Expr.rebuild?_children_of_withChildren h]
  · cases e.rebuild? cs with
    | error fault => rfl
    | ok r => cases r <;> rfl

theorem image_of_over (he : e.Stable) (hcs : Over (Image scope g) e cs) :
    ∃ r, e.rebuild? cs = .ok r ∧ Image scope g e (r.bind (answer scope g e)) := by
  obtain ⟨r, hr⟩ := Expr.exists_rebuild?_any (fun hne => Shape.sound_of_make (Expr.make_of_withChildren he.here hne))
    hcs.length_eq.symm
  refine ⟨r, hr, ?_⟩
  have hchildren : mapEach (recurseChild scope .drop fun value _ => .ok (g value)) e.children = .ok (some cs) :=
    mapEach_eq_some (hcs.imp fun _ _ hc => by rw [recurseChild_drop]; exact hc)
  rw [Image, recurse_eq, hchildren]
  change combine scope .drop (fun value _ => .ok (g value)) e (some cs) = _
  rw [combine, rebuilt_drop he.here, hr]
  cases r with
  | none => rfl
  | some value =>
    change (if scope.includes e then _ else _) = Except.ok (answer scope g e value)
    unfold answer
    split
    · exact congrArg Except.ok (Option.or_none)
    · rfl

theorem exists_image (scope : Scope) (g : Expr → Option Expr) (he : e.Stable) : ∃ r, Image scope g e r := by
  induction e using Expr.inductionOnParts with
  | step e ih =>
    have hchildren : ∀ c ∈ e.children, ∃ r, Image scope g c r := fun c hc =>
      ih c (Expr.mem_parts_of_mem_children hc) (he.child hc)
    rcases mapEach_cases hchildren with ⟨hnone, -⟩ | ⟨cs, -, hcs⟩
    · refine ⟨none, ?_⟩
      rw [Image, recurse_eq, funext (recurseChild_drop _ _), hnone]
      rfl
    · obtain ⟨r, -, hr⟩ := image_of_over he hcs
      exact ⟨_, hr⟩

theorem image_of_lost (he : e.Stable) (hc : c ∈ e.children) (h : Image scope g c none) : Image scope g e none := by
  have hnone := mapEach_eq_none (fun c hc => exists_image scope g (he.child hc)) hc h
  rw [Image, recurse_eq, funext (recurseChild_drop _ _), hnone]
  rfl

theorem stepGives_image (scope : Scope) (g : Expr → Option Expr) :
    StepGives (.returned Id) (fun _ => False) scope .drop (partialMapper g) Expr.Stable (Image scope g) := by
  constructor
  case child => exact fun e he c hc => he.child hc
  case kept =>
    intro hkeep
    cases hkeep
  case lost => exact fun e he c hc => image_of_lost he hc
  case rebuilt =>
    intro e cs he hcs
    obtain ⟨r, hr, himage⟩ := image_of_over he hcs
    rw [rebuilt_drop he.here, hr]
    refine ⟨fun hnone => ?_, fun value hvalue hscope => ?_⟩
    · rwa [hnone] at himage
    · cases hvalue
      rwa [Option.bind_some, answer, hscope] at himage
  case answered =>
    intro e cs value he hscope hcs hvalue
    obtain ⟨r, hr, himage⟩ := image_of_over he hcs
    rw [rebuilt_drop he.here, hr] at hvalue
    cases hvalue
    rw [Option.bind_some, answer, if_pos hscope] at himage
    refine Guarantee.pure _ ?_
    change Image scope g e ((g value).or none)
    rwa [Option.or_none]

theorem stepSingle_image (scope : Scope) (g : Expr → Option Expr) :
    StepSingle (.returned Id) (fun _ => False) scope (partialExpander g) Expr.Stable (Image scope g) := by
  constructor
  case child => exact fun e he c hc => he.child hc
  case lost => exact fun e he c hc => image_of_lost he hc
  case rebuilt =>
    intro e cs he hcs
    obtain ⟨r, hr, himage⟩ := image_of_over he hcs
    rw [hr]
    refine ⟨fun hnone => ?_, fun value hvalue hscope => ?_⟩
    · rwa [hnone] at himage
    · cases hvalue
      rwa [Option.bind_some, answer, hscope] at himage
  case answered =>
    intro e cs value he hscope hcs hvalue
    obtain ⟨r, hr, himage⟩ := image_of_over he hcs
    rw [hr] at hvalue
    cases hvalue
    rw [Option.bind_some, answer, if_pos hscope] at himage
    refine Guarantee.pure _ ⟨g value, ?_, himage⟩
    rw [addAll]
    cases g value <;> rfl

end Images

section Formulas

variable {scope : Scope} {g : Expr → Option Expr} {b : Formula}

def ImageFormula (scope : Scope) (g : Expr → Option Expr) (b : Formula) (r : Option Formula) : Prop :=
  recurseFormula scope .drop (fun value _ => .ok (g value)) b = .ok r

structure StableTerms (b : Formula) : Prop where
  normal : b.Normal
  terms : ∀ e ∈ b.terms, e.Stable

theorem StableTerms.operand (h : StableTerms b) {f : Formula} (hf : f ∈ b.operands) : StableTerms f where
  normal := h.normal.of_mem_operands hf
  terms e he := h.terms e (Formula.mem_terms_of_mem_operands hf he)

theorem imageFormula_of_test {e : Expr} {r : Option Expr} (he : b.clause = .nonzero e) (hr : Image scope g e r) :
    ImageFormula scope g b (r.map fun e' => if e' = e then b else Formula.nonzero e') := by
  obtain ⟨d, c⟩ := b
  cases he
  rw [ImageFormula, recurseFormula_nonzero, hr]
  rfl

theorem recurseFormula_of_operands (hb : ∀ e, b.clause ≠ .nonzero e) {answers : Answers}
    {rs : Option (List Formula)} (h : mapEach (recurseFormula scope .drop answers) b.operands = .ok rs) :
    recurseFormula scope .drop answers b = relayered b rs := by
  rw [recurseFormula_eq _ _ _ hb, h]
  rfl

theorem exists_imageFormula (scope : Scope) (g : Expr → Option Expr) (hb : StableTerms b) :
    ∃ r, ImageFormula scope g b r := by
  induction b using Formula.inductionOnOperands with
  | step b ih =>
    by_cases htest : ∃ e, b.clause = .nonzero e
    · obtain ⟨e, he⟩ := htest
      obtain ⟨r, hr⟩ := exists_image scope g (hb.terms e (Formula.mem_terms_of_clause he))
      exact ⟨_, imageFormula_of_test he hr⟩
    · have htest : ∀ e, b.clause ≠ .nonzero e := fun e he => htest ⟨e, he⟩
      rcases mapEach_cases fun f hf => ih f hf (hb.operand hf) with ⟨hnone, -⟩ | ⟨fs, hsome, hfs⟩
      · exact ⟨none, recurseFormula_of_operands htest hnone⟩
      · obtain ⟨b', hb'⟩ := Formula.exists_withOperands hfs.length_eq.symm
        refine ⟨some b', (recurseFormula_of_operands htest hsome).trans ?_⟩
        rw [relayered, hb']
        rfl

theorem layerGives_image (scope : Scope) (g : Expr → Option Expr) :
    LayerGives (fun _ => False) Expr.Stable (Image scope g) StableTerms (ImageFormula scope g) where
  tested b e hb he := hb.terms e (Formula.mem_terms_of_clause he)
  operand b hb f hf := hb.operand hf
  lost b hb h := by
    obtain ⟨e, he, hnone⟩ | ⟨f, hf, hnone⟩ := h
    · exact imageFormula_of_test he hnone
    · have htest : ∀ e, b.clause ≠ .nonzero e := by
        intro e he
        rw [Formula.operands, he] at hf
        cases hf
      exact recurseFormula_of_operands htest
        (mapEach_eq_none (fun f hf => exists_imageFormula scope g (hb.operand hf)) hf hnone)
  nonzero b e e' _ he himage := imageFormula_of_test he himage
  operands b bs hb htest hbs := by
    obtain ⟨b', hb'⟩ := Formula.exists_withOperands hbs.length_eq.symm
    rw [hb']
    refine (recurseFormula_of_operands htest (mapEach_eq_some hbs)).trans ?_
    rw [relayered, hb']
    rfl

theorem StableTerms.nonzero_eq (h : StableTerms b) {e : Expr} (he : b.clause = .nonzero e) :
    Formula.nonzero e = b := by
  obtain ⟨layer, -⟩ := h.normal
  cases he
  exact Formula.nonzero_eq layer.1 layer.2

end Formulas

/-- An expansion with the alternative that a function gives, or none where it declines, has the result of the
mapping by that function as its only alternative, and none where the mapping has dropped the expression or
formula. Neither faults, and the limit plays no part. -/
theorem expansion_follows_mapping (g : Expr → Option Expr) (scope : Scope) (limit : Nat) :
    (∀ e : Expr, e.Stable → ∃ r : Option Expr, (map scope .drop (partialMapper g) e).run = .ok r ∧
      (expand scope limit (partialExpander g) e).run = .ok r.toList) ∧
    ∀ b : Formula, b.Normal → (∀ e ∈ b.terms, e.Stable) → ∃ r : Option Formula,
      (mapFormula scope .drop (partialMapper g) b).run = .ok r ∧
      (expandFormula scope limit (partialExpander g) b).run = .ok r.toList := by
  have hexpand (e : Expr) (he : e.Stable) := expand_single (stepSingle_image scope g) limit e he
  constructor
  · intro e he
    obtain ⟨r, hr, himage⟩ := exists_of_sure_id ((stepGives_image scope g).map he)
    obtain ⟨_, hl, r', rfl, himage'⟩ := exists_of_sure_id (hexpand e he)
    cases himage.symm.trans himage'
    exact ⟨r, hr, hl⟩
  · intro b hnormal hterms
    have hb : StableTerms b := ⟨hnormal, hterms⟩
    have layer := layerGives_image scope g
    obtain ⟨r, hr, himage⟩ := exists_of_sure_id ((stepGives_image scope g).mapFormula layer hb)
    obtain ⟨_, hl, r', rfl, himage'⟩ :=
      exists_of_sure_id (expandFormula_single layer (fun b e hb he => hb.nonzero_eq he) hexpand b hb)
    cases himage.symm.trans himage'
    exact ⟨r, hr, hl⟩

section Instances

variable (x y : Variable)

def exchange (x y : Variable) (value : Expr) : Option Expr :=
  if value.var? = some x then some (.var y)
  else if value.int?.isSome then none
  else some value

theorem stable_deref_var : (Expr.of (.access .deref (.var x))).Stable := by
  refine (obtainable_deref_var x).stable (Expr.folded_of_children rfl (List.forall_mem_singleton.2 ?_))
  exact Expr.folded_of_children rfl (List.forall_mem_nil _)

theorem map_exchange_deref (hne : y ≠ x) :
    (map .all .drop (partialMapper (exchange x y)) (.of (.access .deref (.var x)))).run =
      .ok (some (.of (.access .deref (.var y)))) := by
  have hvar : applied .drop (partialMapper (exchange x y)) (.var x) (.var x) = pure (some (.var y)) := by
    have hx : (Expr.var x).var? = some x := rfl
    simp [applied, partialMapper, exchange, hx]
  have hne' : [Expr.var y] ≠ (Expr.of (.access .deref (.var x))).children := by
    intro heq
    exact of_ne_of (by simpa using hne) (List.cons.inj heq).1
  have hvalue : rebuilt .drop (.of (.access .deref (.var x))) [.var y] =
      .ok (some (.of (.access .deref (.var y)))) := by
    rw [rebuilt, if_neg hne']
    rfl
  rw [map, StateT.run'_eq, run_mapExpr_single rfl rfl hvar hvalue rfl]
  rfl

theorem expansion_follows_mapping_of_exchange :
    ∃ e : Expr, e = .of (.access .deref (.var (.ofGlobal "x"))) ∧ e.Stable ∧ (Formula.not (.nonzero e)).Normal ∧
      (∀ e' ∈ (Formula.not (.nonzero e)).terms, e'.Stable) ∧ ∀ (scope : Scope) (limit : Nat),
      (expand .all limit (partialExpander (exchange (.ofGlobal "x") (.ofGlobal "y"))) e).run =
        .ok [.of (.access .deref (.var (.ofGlobal "y")))] ∧
      ∃ r : Option Formula,
        (mapFormula scope .drop (partialMapper (exchange (.ofGlobal "x") (.ofGlobal "y")))
          (Formula.not (.nonzero e))).run = .ok r ∧
        (expandFormula scope limit (partialExpander (exchange (.ofGlobal "x") (.ofGlobal "y")))
          (Formula.not (.nonzero e))).run = .ok r.toList := by
  have hstable := stable_deref_var (.ofGlobal "x")
  have hnormal := Formula.normal_not (Formula.normal_nonzero (.of (.access .deref (.var (.ofGlobal "x")))))
  have hterms : ∀ e ∈ (Formula.not (.nonzero (.of (.access .deref (.var (.ofGlobal "x")))))).terms, e.Stable := by
    rw [Formula.nonzero_of (by simp) (by simp)]
    change ∀ e ∈ (Formula.of (.not (.of (.nonzero _)))).terms, e.Stable
    rw [Formula.of, Formula.terms, Formula.of, Formula.terms]
    exact List.forall_mem_singleton.2 hstable
  refine ⟨_, rfl, hstable, hnormal, hterms, fun scope limit => ⟨?_, ?_⟩⟩
  · obtain ⟨r, hmap, hexpand⟩ :=
      (expansion_follows_mapping (exchange (.ofGlobal "x") (.ofGlobal "y")) .all limit).1 _ hstable
    rw [map_exchange_deref _ _ (by decide)] at hmap
    cases hmap
    exact hexpand
  · exact (expansion_follows_mapping _ scope limit).2 _ hnormal hterms

end Instances

end Walk
end Retrace
