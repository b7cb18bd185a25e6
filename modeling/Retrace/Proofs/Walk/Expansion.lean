import Retrace.Proofs.Expr.Rebuilding
import Retrace.Proofs.Walk.Mapping
import Retrace.Walk.Expand

/-!
A rule for expansions, as for mappings: every alternative of a node stands in a relation that holds of the
node itself and of what is made of the node rebuilt over related children; likewise for formulas, layer by
layer. An expansion ends early where it passes the limit, so its folds are followed to both ends.
-/

set_option autoImplicit false

namespace Retrace.Walk

open Returning

section Folds

variable {n : Type → Type} [Monad n] (G : Guarantee n) {σ α β : Type}

theorem foldChoices_gives {I : σ → Prop} {g : σ → List α → n σ} (lists : List (List α)) (chosen : List α)
    {s : σ} (hs : I s)
    (hg : ∀ s choice, I s → List.Forall₂ (· ∈ ·) choice lists → G.Gives (g s (chosen ++ choice)) I) :
    G.Gives (foldChoices g lists chosen s) I := by
  induction lists generalizing chosen s with
  | nil =>
    have hend := hg s [] hs .nil
    rw [List.append_nil] at hend
    exact hend
  | cons as lists ih =>
    rw [foldChoices]
    refine G.foldlM as hs fun s a ha hs => ih (chosen ++ [a]) hs fun t choice ht hchoice => ?_
    rw [List.append_assoc, List.singleton_append]
    exact hg t (a :: choice) ht (.cons ha hchoice)

theorem collect_ends [LawfulMonad n] {p : List β → Prop} {limit : Nat} {node : β}
    {g : List β → List α → n (List β)} {lists : List (List α)} (hnil : p []) (hnode : p [node])
    (hg : ∀ found choice, p found → List.Forall₂ (· ∈ ·) choice lists →
      G.Gives (g found choice) fun r => overLimit limit r = false → p r) :
    G.Gives (collect limit node g lists) p := by
  -- Past the limit the fold throws the node itself.
  let E := G.throwing p
  have hends : E.Gives (foldChoices (fun found choice => (do
        let found ← ExceptT.lift (g found choice)
        if overLimit limit found then throw [node] else pure found : ExceptT (List β) n (List β)))
      lists [] []) p := by
    refine foldChoices_gives E lists [] hnil fun found choice hfound hchoice => ?_
    refine E.bind (G.throwing_lift (hg found choice hfound hchoice)) fun found' hfound' => ?_
    split
    · exact G.throwing_throw hnode
    · rename_i hlimit
      exact E.pure (hfound' (by simpa using hlimit))
  refine G.bind hends fun r hr => ?_
  cases r with
  | ok found => exact G.pure hr
  | error found => exact G.pure hr

theorem collect_gives [LawfulMonad n] {Q : β → Prop} {limit : Nat} {node : β}
    {g : List β → List α → n (List β)} {lists : List (List α)} (hnode : Q node)
    (hg : ∀ found choice, (∀ b ∈ found, Q b) → List.Forall₂ (· ∈ ·) choice lists →
      G.Gives (g found choice) fun r => ∀ b ∈ r, Q b) :
    G.Gives (collect limit node g lists) fun r => ∀ b ∈ r, Q b :=
  collect_ends G (List.forall_mem_nil _) (List.forall_mem_singleton.2 hnode) fun found choice hfound hchoice =>
    G.imp (hg found choice hfound hchoice) fun _ hr _ => hr

theorem foldChoices_single [LawfulMonad n] (g : σ → List α → n σ) (as chosen : List α) (s : σ) :
    foldChoices g (as.map ([·])) chosen s = g s (chosen ++ as) := by
  induction as generalizing chosen with
  | nil => simp [foldChoices]
  | cons a as ih => simp [foldChoices, ih]

theorem collect_single [LawfulMonad n] (limit : Nat) (node : β) (f : List β → List α → n (List β)) (as : List α) :
    collect limit node f (as.map ([·])) = withinLimit limit node <$> f [] as := by
  unfold collect
  simp only [foldChoices_single, List.nil_append, ExceptT.run_bind, ExceptT.run_lift, map_eq_pure_bind,
    bind_assoc, pure_bind]
  refine bind_congr fun found => ?_
  unfold withinLimit
  split <;> simp

theorem withinLimit_toList (limit : Nat) (node : β) (o : Option β) :
    withinLimit limit node o.toList = o.toList := by
  cases o <;> simp [withinLimit, overLimit]

theorem attach_mapM [LawfulMonad n] (f : α → n β) (as : List α) :
    as.attach.mapM (fun a => f a.1) = as.mapM f := by
  conv_rhs => rw [← List.attach_map_subtype_val as, List.mapM_map]
  rfl

end Folds

variable {m : Type → Type} [Monad m] {scope : Scope} {limit : Nat} {f : Expander m}

def pureExpander (g : Expr → List Expr → List Expr) : Expander Id := fun value found => pure (g value found)

def addAll (alternatives : Expr → List Expr) (value : Expr) (found : List Expr) : List Expr :=
  (alternatives value).foldl addDistinct found

theorem forall_mem_addDistinct {α : Type} [DecidableEq α] {Q : α → Prop} {found : List α} {a : α}
    (hfound : ∀ b ∈ found, Q b) (ha : Q a) : ∀ b ∈ addDistinct found a, Q b := by
  unfold addDistinct
  split
  · exact hfound
  · simpa [or_imp, forall_and] using ⟨hfound, ha⟩

theorem forall_mem_withinLimit {β : Type} {Q : β → Prop} {node : β} {results : List β} (hnode : Q node)
    (hresults : ∀ b ∈ results, Q b) : ∀ b ∈ withinLimit limit node results, Q b := by
  unfold withinLimit
  split
  · exact List.forall_mem_singleton.2 hnode
  · exact hresults

theorem forall_mem_foldl_addDistinct {α β : Type} [DecidableEq β] {Q : β → Prop} {g : α → β} (as : List α)
    (hg : ∀ a ∈ as, Q (g a)) {found : List β} (hfound : ∀ b ∈ found, Q b) :
    ∀ b ∈ as.foldl (fun found a => addDistinct found (g a)) found, Q b := by
  induction as generalizing found with
  | nil => exact hfound
  | cons a as ih =>
    obtain ⟨ha, has⟩ := List.forall_mem_cons.1 hg
    exact ih has (forall_mem_addDistinct hfound ha)

theorem forall₂_of_choice {α β : Type} {R : α → β → Prop} {as : List α} {lists : List (List β)}
    {choice : List β} (h : List.Forall₂ (fun a bs => ∀ b ∈ bs, R a b) as lists)
    (hchoice : List.Forall₂ (· ∈ ·) choice lists) : List.Forall₂ R as choice := by
  induction h generalizing choice with
  | nil =>
    cases hchoice
    exact .nil
  | cons first _ ih =>
    cases hchoice with
    | cons hb hrest => exact .cons (first _ hb) (ih hrest)

section Rule

variable {G : Guarantee m} {q : Fault → Prop} {Q : Expr → Prop} {P : Expr → Expr → Prop}

/-- What has to be shown of one node with `Q` to know its alternatives: of the node rebuilt over
alternatives of its children, and of what the expander adds for it. -/
structure StepExpands (G : Guarantee m) (q : Fault → Prop) (scope : Scope) (f : Expander m) (Q : Expr → Prop)
    (P : Expr → Expr → Prop) : Prop where
  child : ∀ e, Q e → ∀ c ∈ e.children, Q c
  self : ∀ e, Q e → P e e
  rebuilt : ∀ e cs, Q e → List.Forall₂ P e.children cs →
    Guarantee.Outcome (fun r => ∀ value ∈ r, scope.includes e = false → P e value) q (e.rebuild? cs)
  answered : ∀ e cs value found, Q e → scope.includes e = true → List.Forall₂ P e.children cs →
    e.rebuild? cs = .ok (some value) → (∀ e' ∈ found, P e e') →
    (G.throwing q).Gives (f value found) fun r => ∀ e' ∈ r, P e e'

theorem expand_gives [LawfulMonad m] (step : StepExpands G q scope f Q P) (e : Expr) (he : Q e) :
    (G.throwing q).Gives (expand scope limit f e) fun r => ∀ e' ∈ r, P e e' := by
  induction e using Expr.inductionOnParts with
  | step e ih =>
    let G' := G.throwing q
    have accept {cs found : List Expr} {value : Expr} (hcs : List.Forall₂ P e.children cs)
        (hvalue : e.rebuild? cs = .ok (some value)) (hfound : ∀ e' ∈ found, P e e') :
        G'.Gives (if scope.includes e then f value found else pure (addDistinct found value))
          fun r => ∀ e' ∈ r, P e e' := by
      split
      · rename_i hscope
        exact step.answered e cs value found he hscope hcs hvalue hfound
      · rename_i hscope
        have hrebuilt := step.rebuilt e cs he hcs
        rw [hvalue] at hrebuilt
        exact G'.pure (forall_mem_addDistinct hfound (hrebuilt value rfl (by simpa using hscope)))
    rw [expand]
    split
    · rename_i hleaf
      have hleaf := List.isEmpty_iff.1 hleaf
      have hnil : List.Forall₂ P e.children [] := by rw [hleaf]; exact .nil
      refine G'.bind (accept hnil (Expr.rebuild?_nil hleaf) (List.forall_mem_nil _)) fun found hfound => ?_
      exact G'.pure (forall_mem_withinLimit (step.self e he) hfound)
    rw [attach_mapM (expand scope limit f)]
    have hchildren := G'.mapM e.children fun c hc => ih c (Expr.mem_parts_of_mem_children hc) (step.child e he c hc)
    refine G'.bind hchildren fun lists hlists => ?_
    split
    · exact G'.pure (List.forall_mem_nil _)
    split
    · exact G'.pure (List.forall_mem_singleton.2 (step.self e he))
    refine collect_gives G' (step.self e he) fun found choice hfound hchoice => ?_
    have hcs := forall₂_of_choice hlists hchoice
    refine G'.bind (lift_gives (step.rebuilt e choice he hcs)) fun r hr => ?_
    obtain ⟨hvalue, -⟩ := hr
    cases r with
    | none => exact G'.pure hfound
    | some value => exact accept hcs hvalue hfound

structure LayerExpandsTo (q : Fault → Prop) (Q : Expr → Prop) (P : Expr → Expr → Prop) (S : Formula → Prop)
    (R : Formula → Formula → Prop) : Prop where
  tested : ∀ b e, S b → b.clause = .nonzero e → Q e
  operand : ∀ b, S b → ∀ g ∈ b.operands, S g
  self : ∀ b, S b → R b b
  nonzero : ∀ b e e', S b → b.clause = .nonzero e → P e e' → R b (Formula.nonzero e')
  operands : ∀ b bs, S b → List.Forall₂ R b.operands bs → Guarantee.Outcome (R b) q (b.withOperands bs)

theorem expandFormulas_eq [LawfulMonad m] (bs : List Formula) :
    expandFormulas scope limit f bs = bs.mapM (expandFormula scope limit f) := by
  induction bs with
  | nil => rw [expandFormulas, List.mapM_nil]
  | cons b bs ih => rw [expandFormulas, List.mapM_cons, ih]

theorem expandOver_nil [LawfulMonad m] (limit : Nat) (b : Formula) :
    (expandOver limit b [] : ExceptT Fault m _) =
      withinLimit limit b <$> (addDistinct [] ·) <$> (lift (b.withOperands []) : ExceptT Fault m _) :=
  collect_single limit b _ []

/-- Every layer but a test is expanded over the alternatives of its operands. -/
theorem expandFormula_eq [LawfulMonad m] {b : Formula} (hb : ∀ e, b.clause ≠ .nonzero e) :
    expandFormula scope limit f b = b.operands.mapM (expandFormula scope limit f) >>= expandOver limit b := by
  obtain ⟨d, c⟩ := b
  cases c with
  | const v =>
    change _ = List.mapM (expandFormula scope limit f) [] >>= _
    have hself : (Formula.node d (.const v)).withOperands [] = .ok (.node d (.const v)) := rfl
    rw [expandFormula, List.mapM_nil, pure_bind, expandOver_nil, hself, lift_ok, map_pure, map_pure]
    exact congrArg pure (withinLimit_toList limit _ (some _)).symm
  | nonzero e => exact absurd rfl (hb e)
  | not g => simp [expandFormula, Formula.operands, Formula.clause, Clause.operands]
  | junction k gs =>
    rw [expandFormula, expandFormulas_eq]
    rfl

variable {S : Formula → Prop} {R : Formula → Formula → Prop}

theorem expandOver_gives [LawfulMonad m] (layer : LayerExpandsTo q Q P S R) {b : Formula} (hb : S b)
    {lists : List (List Formula)} (h : List.Forall₂ (fun g gs => ∀ g' ∈ gs, R g g') b.operands lists) :
    (G.throwing q).Gives (expandOver limit b lists) fun r => ∀ b' ∈ r, R b b' := by
  let G' := G.throwing q
  unfold expandOver
  split
  · exact G'.pure (List.forall_mem_nil _)
  · refine collect_gives G' (layer.self b hb) fun found choice hfound hchoice => ?_
    have hover := layer.operands b choice hb (forall₂_of_choice h hchoice)
    exact G'.map (lift_gives hover) fun b' hb' => forall_mem_addDistinct hfound hb'.2

theorem expandFormula_gives [LawfulMonad m] (layer : LayerExpandsTo q Q P S R)
    (hexpand : ∀ e, Q e → (G.throwing q).Gives (expand scope limit f e) fun r => ∀ e' ∈ r, P e e')
    (b : Formula) (hb : S b) :
    (G.throwing q).Gives (expandFormula scope limit f b) fun r => ∀ b' ∈ r, R b b' := by
  induction b using Formula.inductionOnOperands with
  | step b ih =>
    let G' := G.throwing q
    by_cases htest : ∃ e, b.clause = .nonzero e
    · obtain ⟨e, he⟩ := htest
      obtain ⟨d, c⟩ := b
      cases he
      rw [expandFormula]
      refine G'.bind (hexpand e (layer.tested _ e hb rfl)) fun values hvalues => G'.pure ?_
      refine forall_mem_withinLimit (layer.self _ hb) ?_
      refine forall_mem_foldl_addDistinct values (fun v hv => ?_) (List.forall_mem_nil _)
      exact layer.nonzero _ e v hb rfl (hvalues v hv)
    · rw [expandFormula_eq (not_exists.1 htest)]
      refine G'.bind (G'.mapM b.operands fun g hg => ih g hg (layer.operand b hb g hg)) fun lists hlists => ?_
      exact expandOver_gives layer hb hlists

end Rule

section Single

-- Expansions that find at most one alternative for each node.

variable {G : Guarantee m} {q : Fault → Prop} {Q : Expr → Prop} {P : Expr → Option Expr → Prop}

def Single {α : Type} (p : Option α → Prop) (r : List α) : Prop := ∃ o : Option α, r = o.toList ∧ p o

structure StepSingle (G : Guarantee m) (q : Fault → Prop) (scope : Scope) (f : Expander m) (Q : Expr → Prop)
    (P : Expr → Option Expr → Prop) : Prop where
  child : ∀ e, Q e → ∀ c ∈ e.children, Q c
  lost : ∀ e, Q e → ∀ c ∈ e.children, P c none → P e none
  rebuilt : ∀ e cs, Q e → Over P e cs → Guarantee.Outcome (fun r => (r = none → P e none) ∧
    ∀ value ∈ r, scope.includes e = false → P e (some value)) q (e.rebuild? cs)
  answered : ∀ e cs value, Q e → scope.includes e = true → Over P e cs → e.rebuild? cs = .ok (some value) →
    (G.throwing q).Gives (f value []) (Single (P e))

theorem single_choice {α β : Type} {R : α → Option β → Prop} {as : List α} {lists : List (List β)}
    (h : List.Forall₂ (fun a r => Single (R a) r) as lists) :
    (lists.any List.isEmpty = true ∧ ∃ a ∈ as, R a none) ∨
      (lists.any List.isEmpty = false ∧
        ∃ bs, lists = bs.map ([·]) ∧ List.Forall₂ (fun a b => R a (some b)) as bs) := by
  induction h with
  | nil => exact .inr ⟨rfl, [], rfl, .nil⟩
  | @cons a r as lists first _ ih =>
    obtain ⟨o, rfl, ho⟩ := first
    cases o with
    | none => exact .inl ⟨rfl, a, List.mem_cons_self, ho⟩
    | some b =>
      rcases ih with ⟨hempty, a', ha', hnone⟩ | ⟨hfull, bs, rfl, hbs⟩
      · exact .inl ⟨hempty, a', List.mem_cons_of_mem a ha', hnone⟩
      · exact .inr ⟨hfull, b :: bs, rfl, .cons ho hbs⟩

theorem single_count (cs : List Expr) : ((cs.map ([·])).map List.length).foldl (· * ·) 1 = 1 := by
  induction cs with
  | nil => rfl
  | cons c cs ih => simpa using ih

/-- Where no node has more than one alternative, there is none or one in the end, and the limit plays no
part. -/
theorem expand_single [LawfulMonad m] (step : StepSingle G q scope f Q P) (limit : Nat) (e : Expr) (he : Q e) :
    (G.throwing q).Gives (expand scope limit f e) (Single (P e)) := by
  induction e using Expr.inductionOnParts with
  | step e ih =>
    let G' := G.throwing q
    have accept {cs : List Expr} {value : Expr} (hcs : Over P e cs) (hvalue : e.rebuild? cs = .ok (some value)) :
        G'.Gives (if scope.includes e then f value [] else pure (addDistinct [] value)) (Single (P e)) := by
      split
      · rename_i hscope
        exact step.answered e cs value he hscope hcs hvalue
      · rename_i hscope
        have hrebuilt := step.rebuilt e cs he hcs
        rw [hvalue] at hrebuilt
        exact G'.pure ⟨some value, rfl, hrebuilt.2 value rfl (by simpa using hscope)⟩
    have limited {x : ExceptT Fault m (List Expr)} (hx : G'.Gives x (Single (P e))) :
        G'.Gives (withinLimit limit e <$> x) (Single (P e)) := by
      refine G'.map hx fun r hr => ?_
      obtain ⟨o, rfl, ho⟩ := hr
      exact ⟨o, withinLimit_toList limit e o, ho⟩
    rw [expand]
    split
    · rename_i hleaf
      have hleaf := List.isEmpty_iff.1 hleaf
      have hnil : Over P e [] := by rw [Over, hleaf]; exact .nil
      have hself := limited (accept hnil (Expr.rebuild?_nil hleaf))
      rwa [map_eq_pure_bind] at hself
    rw [attach_mapM (expand scope limit f)]
    have hchildren := G'.mapM e.children fun c hc => ih c (Expr.mem_parts_of_mem_children hc) (step.child e he c hc)
    refine G'.bind hchildren fun lists hlists => ?_
    rcases single_choice hlists with ⟨hempty, c, hc, hnone⟩ | ⟨hfull, cs, rfl, hcs⟩
    · rw [if_pos hempty]
      exact G'.pure ⟨none, rfl, step.lost e he c hc hnone⟩
    · -- One alternative for each child makes one choice, which is within every limit.
      have hlimit : (limit != 0 && decide (limit < 1)) = false := by
        simp only [Bool.and_eq_false_iff, bne_eq_false_iff_eq, decide_eq_false_iff_not]
        omega
      rw [if_neg (by rw [hfull]; decide), single_count, if_neg (by rw [hlimit]; decide), collect_single]
      refine limited (G'.bind (lift_gives (step.rebuilt e cs he hcs)) fun r hr => ?_)
      obtain ⟨hvalue, hnone, -⟩ := hr
      cases r with
      | none => exact G'.pure ⟨none, rfl, hnone rfl⟩
      | some value => exact accept hcs hvalue

variable {S : Formula → Prop} {R : Formula → Option Formula → Prop}

theorem expandOver_single [LawfulMonad m] (layer : LayerGives q Q P S R) {b : Formula} (hb : S b)
    (htest : ∀ e, b.clause ≠ .nonzero e) {lists : List (List Formula)}
    (h : List.Forall₂ (fun g r => Single (R g) r) b.operands lists) :
    (G.throwing q).Gives (expandOver limit b lists) (Single (R b)) := by
  let G' := G.throwing q
  unfold expandOver
  rcases single_choice h with ⟨hempty, g, hg, hnone⟩ | ⟨hfull, bs, rfl, hbs⟩
  · rw [if_pos hempty]
    exact G'.pure ⟨none, rfl, layer.lost b hb (.inr ⟨g, hg, hnone⟩)⟩
  · rw [if_neg (by rw [hfull]; decide), collect_single]
    have hchoice : G'.Gives ((addDistinct [] ·) <$> (lift (b.withOperands bs) : ExceptT Fault m _))
        fun r => ∃ b', r = [b'] ∧ R b (some b') :=
      G'.map (lift_gives (layer.operands b bs hb htest hbs)) fun b' hb' => ⟨b', rfl, hb'.2⟩
    refine G'.map hchoice fun r hr => ?_
    obtain ⟨b', rfl, hb'⟩ := hr
    exact ⟨some b', withinLimit_toList limit b (some b'), hb'⟩

/-- Likewise for formulas, if each test is what the factory makes of its expression. A layer needs no other
facts than for a mapping. -/
theorem expandFormula_single [LawfulMonad m] (layer : LayerGives q Q P S R)
    (hmade : ∀ b e, S b → b.clause = .nonzero e → Formula.nonzero e = b)
    (hexpand : ∀ e, Q e → (G.throwing q).Gives (expand scope limit f e) (Single (P e))) (b : Formula) (hb : S b) :
    (G.throwing q).Gives (expandFormula scope limit f b) (Single (R b)) := by
  induction b using Formula.inductionOnOperands with
  | step b ih =>
    let G' := G.throwing q
    by_cases htest : ∃ e, b.clause = .nonzero e
    · obtain ⟨e, he⟩ := htest
      have hmade := hmade b
      obtain ⟨d, c⟩ := b
      cases he
      rw [expandFormula]
      refine G'.bind (hexpand e (layer.tested _ e hb rfl)) fun values hvalues => G'.pure ?_
      obtain ⟨o, rfl, ho⟩ := hvalues
      cases o with
      | none => exact ⟨none, withinLimit_toList limit _ none, layer.lost _ hb (.inl ⟨e, rfl, ho⟩)⟩
      | some e' =>
        have hself : (if e' = e then .node d (.nonzero e) else Formula.nonzero e') = Formula.nonzero e' := by
          split
          · rename_i heq
            rw [heq, hmade e hb rfl]
          · rfl
        have hnonzero := layer.nonzero _ e e' hb rfl ho
        rw [hself] at hnonzero
        exact ⟨some _, withinLimit_toList limit _ (some _), hnonzero⟩
    · have htest := not_exists.1 htest
      rw [expandFormula_eq htest]
      refine G'.bind (G'.mapM b.operands fun g hg => ih g hg (layer.operand b hb g hg)) fun lists hlists => ?_
      exact expandOver_single layer hb htest hlists

end Single

section Results

variable [Returning m] {R : Formula → Formula → Prop}

structure LayerExpands (R : Formula → Formula → Prop) : Prop where
  self : ∀ b, R b b
  nonzero : ∀ b e e', b.clause = .nonzero e → R b (Formula.nonzero e')
  operands : ∀ b bs b', List.Forall₂ R b.operands bs → b.withOperands bs = .ok b' → R b b'

theorem LayerExpands.layerExpandsTo (layer : LayerExpands R) :
    LayerExpandsTo (fun _ => True) (fun _ => True) (fun _ _ => True) (fun _ => True) R where
  tested _ _ _ _ := trivial
  operand _ _ _ _ := trivial
  self b _ := layer.self b
  nonzero b e e' _ hb _ := layer.nonzero b e e' hb
  operands b bs _ hbs := by
    cases hover : b.withOperands bs with
    | error fault => trivial
    | ok b' => exact layer.operands b bs b' hbs hover

theorem expandFormula_related (layer : LayerExpands R) (b : Formula) {r : List Formula}
    (hr : Returns (expandFormula scope limit f b) r) : ∀ b' ∈ r, R b b' := by
  have hexpand (e : Expr) : ((Guarantee.returned m).throwing fun _ => True).Gives
      (expand scope limit f e) fun r => ∀ e' ∈ r, True := by
    intro r _
    cases r with
    | error fault => trivial
    | ok r => exact fun _ _ => trivial
  exact expandFormula_gives layer.layerExpandsTo (fun e _ => hexpand e) b trivial (.ok r) hr

end Results

end Retrace.Walk
