import Retrace.Proofs.Order.Formula
import Mathlib.Data.List.Forall2

/-!
Nodes of one table store digests that are given by their structure, in whatever way. Then the canonical
orders tell apart exactly the nodes of different structure: which digests collide, and where, has an
influence on which of two nodes comes first, and on nothing else.
-/

set_option autoImplicit false

namespace Retrace

theorem eq_of_forall₂ {α : Type} {R : α → α → Prop} {as bs : List α} (h : List.Forall₂ R as bs)
    (hR : ∀ a ∈ as, ∀ b ∈ bs, R a b → a = b) : as = bs := by
  induction h with
  | nil => rfl
  | @cons a b as bs first _ ih =>
    have htail : as = bs := ih fun x hx y hy =>
      hR x (List.mem_cons_of_mem a hx) y (List.mem_cons_of_mem b hy)
    rw [hR a List.mem_cons_self b List.mem_cons_self first, htail]

namespace Expr

/-- All nodes of the expression store the digests that `hash` gives to their structure. -/
inductive HashedBy (hash : Shape Expr → Digest) : Expr → Prop
  | node {s : Shape Expr} (parts : ∀ c ∈ s.parts, HashedBy hash c) : HashedBy hash (.node (hash s) s)

/-- Expressions of one structure: kind, payload, width and sub-expressions, whatever digests they
store. -/
inductive Alike : Expr → Expr → Prop
  | node {d d' : Digest} {s s' : Shape Expr} (label : s.label = s'.label)
    (parts : List.Forall₂ Alike s.parts s'.parts) : Alike (.node d s) (.node d' s')

theorem Alike.refl (a : Expr) : a.Alike a := by
  induction a using inductionOnParts with
  | step a ih =>
    obtain ⟨d, s⟩ := a
    exact .node rfl (List.forall₂_same.2 ih)

theorem Alike.eq {hash : Shape Expr → Digest} {a b : Expr} (h : a.Alike b) (ha : a.HashedBy hash)
    (hb : b.HashedBy hash) : a = b := by
  induction a using inductionOnParts generalizing b with
  | step a ih =>
    obtain ⟨label, parts⟩ := h
    obtain ⟨ha⟩ := ha
    obtain ⟨hb⟩ := hb
    have hparts := eq_of_forall₂ parts fun x hx y hy hxy => ih x hx hxy (ha x hx) (hb y hy)
    rw [(Shape.eq_iff_label_parts _ _).2 ⟨label, hparts⟩]

end Expr

namespace Formula

inductive HashedBy (hash : Shape Expr → Digest) (clauseHash : Clause Formula → Digest) : Formula → Prop
  | const (b : Bool) : HashedBy hash clauseHash (.node (clauseHash (.const b)) (.const b))
  | nonzero {e : Expr} (tested : e.HashedBy hash) :
    HashedBy hash clauseHash (.node (clauseHash (.nonzero e)) (.nonzero e))
  | not {f : Formula} (operand : HashedBy hash clauseHash f) :
    HashedBy hash clauseHash (.node (clauseHash (.not f)) (.not f))
  | junction {k : Connective} {fs : List Formula} (operands : ∀ f ∈ fs, HashedBy hash clauseHash f) :
    HashedBy hash clauseHash (.node (clauseHash (.junction k fs)) (.junction k fs))

inductive Alike : Formula → Formula → Prop
  | const {d d' : Digest} (b : Bool) : Alike (.node d (.const b)) (.node d' (.const b))
  | nonzero {d d' : Digest} {e e' : Expr} (tested : e.Alike e') :
    Alike (.node d (.nonzero e)) (.node d' (.nonzero e'))
  | not {d d' : Digest} {f f' : Formula} (operand : Alike f f') :
    Alike (.node d (.not f)) (.node d' (.not f'))
  | junction {d d' : Digest} {k : Connective} {fs fs' : List Formula}
    (operands : List.Forall₂ Alike fs fs') : Alike (.node d (.junction k fs)) (.node d' (.junction k fs'))

theorem Alike.refl (f : Formula) : f.Alike f := by
  induction f using inductionOnOperands with
  | step f ih =>
    obtain ⟨d, c⟩ := f
    cases c with
    | const b => exact .const b
    | nonzero e => exact .nonzero (.refl e)
    | not g => exact .not (ih g (List.mem_singleton_self g))
    | junction k fs => exact .junction (List.forall₂_same.2 ih)

theorem Alike.eq {hash : Shape Expr → Digest} {clauseHash : Clause Formula → Digest} {f g : Formula}
    (h : f.Alike g) (hf : f.HashedBy hash clauseHash) (hg : g.HashedBy hash clauseHash) : f = g := by
  induction f using inductionOnOperands generalizing g with
  | step f ih =>
    cases h with
    | const b =>
      cases hf
      cases hg
      rfl
    | nonzero tested =>
      cases hf with
      | nonzero he =>
        cases hg with
        | nonzero he' => rw [tested.eq he he']
    | not operand =>
      cases hf with
      | not hf =>
        cases hg with
        | not hg => rw [ih _ (List.mem_singleton_self _) operand hf hg]
    | junction operands =>
      cases hf with
      | junction hfs =>
        cases hg with
        | junction hgs =>
          rw [eq_of_forall₂ operands fun x hx y hy hxy => ih x hx hxy (hfs x hx) (hgs y hy)]

end Formula

/-- The canonical orders of expressions and of formulas are total orders on nodes with any digests.
If digests are given by structure, nodes are equal in the order just if they have one structure. -/
theorem order_total (hash : Shape Expr → Digest) (clauseHash : Clause Formula → Digest) :
    (∀ a b c : Expr,
      a.order b = (b.order a).swap ∧
      (a.order b = .lt → b.order c = .lt → a.order c = .lt) ∧
      (a.order b = .eq ↔ a = b) ∧
      (a.HashedBy hash → b.HashedBy hash → (a.order b = .eq ↔ a.Alike b))) ∧
    (∀ f g h : Formula,
      f.order g = (g.order f).swap ∧
      (f.order g = .lt → g.order h = .lt → f.order h = .lt) ∧
      (f.order g = .eq ↔ f = g) ∧
      (f.HashedBy hash clauseHash → g.HashedBy hash clauseHash → (f.order g = .eq ↔ f.Alike g))) := by
  constructor
  · intro a b c
    refine ⟨Expr.order_swap a b, Std.TransCmp.lt_trans, Std.LawfulEqCmp.compare_eq_iff_eq, ?_⟩
    intro ha hb
    rw [Std.LawfulEqCmp.compare_eq_iff_eq]
    exact ⟨fun h => h ▸ .refl a, fun h => h.eq ha hb⟩
  · intro f g h
    refine ⟨Formula.order_swap f g, Std.TransCmp.lt_trans, Std.LawfulEqCmp.compare_eq_iff_eq, ?_⟩
    intro hf hg
    rw [Std.LawfulEqCmp.compare_eq_iff_eq]
    exact ⟨fun h => h ▸ .refl f, fun h => h.eq hf hg⟩

/-- Constants whose digests all collide, and formulas that test them, are still told apart. -/
theorem order_total_of_collisions :
    Expr.order (.node ⟨0⟩ (.int 1)) (.node ⟨0⟩ (.int 3)) = .lt ∧
    ¬ Expr.Alike (.node ⟨0⟩ (.int 1)) (.node ⟨0⟩ (.int 2)) ∧
    Formula.order (.node ⟨0⟩ (.nonzero (.node ⟨0⟩ (.int 1))))
      (.node ⟨0⟩ (.not (.node ⟨0⟩ (.const true)))) = .lt ∧
    ¬ Formula.Alike (.node ⟨0⟩ (.nonzero (.node ⟨0⟩ (.int 1))))
      (.node ⟨0⟩ (.nonzero (.node ⟨0⟩ (.int 2)))) := by
  have h := order_total (fun _ => ⟨0⟩) fun _ => ⟨0⟩
  have hashed (v : Int) : Expr.HashedBy (fun _ => ⟨0⟩) (.node ⟨0⟩ (.int v)) := .node nofun
  refine ⟨(h.1 _ (.node ⟨0⟩ (.int 2)) _).2.1 (by decide +kernel) (by decide +kernel), fun alike => ?_,
    (h.2 _ (.node ⟨0⟩ (.nonzero (.node ⟨0⟩ (.int 2)))) _).2.1 (by decide +kernel) (by decide +kernel),
    fun alike => ?_⟩
  · have hiff := (h.1 _ _ (.node ⟨0⟩ .empty)).2.2.2 (hashed 1) (hashed 2)
    exact absurd (hiff.2 alike) (by decide +kernel)
  · have hiff := (h.2 _ _ (.node ⟨0⟩ (.const true))).2.2.2 (.nonzero (hashed 1)) (.nonzero (hashed 2))
    exact absurd (hiff.2 alike) (by decide +kernel)

end Retrace
