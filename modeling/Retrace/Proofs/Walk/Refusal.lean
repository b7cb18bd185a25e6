import Retrace.Proofs.Formula.Normal
import Retrace.Proofs.Walk.Substitution

/-!
When a replacement fails. A node that would be based on what cannot be a location is kept as it is. Exit values,
initial values and values of other frames are put around whatever their inside became, and refuse what they do not
admit; the whole replacement then fails. Where nothing is looked into there is always a result, and where nothing is
replaced the result is what was given.
-/

set_option autoImplicit false

namespace Retrace.Walk

variable {old new e : Expr} {b : Formula}

section Around

-- A node directly around what is replaced. Inside that nothing is replaced any more.

theorem substitute_of_sees (h : old.Obtainable) {a : Expr} (ha : Sees old a) (hne : a ≠ old) :
    substitute old new a = a := by
  refine substitute_unseen (ha.obtainable h) fun hsees => ?_
  cases hsees with
  | refl => exact hne rfl
  | next mem sees => exact not_sees_of_inSight mem ha sees

theorem forall_sees_around {p : Expr → Prop} (hopened : isOpened e = true) (hold : old ∈ e.hidden) (here : p e)
    (inside : ∀ a, Sees old a → p a) : ∀ a, Sees e a → p a := by
  obtain ⟨hleaf, i, hhidden⟩ := hidden_of_isOpened hopened
  rw [hhidden] at hold
  cases List.mem_singleton.1 hold
  refine forall_sees here ?_
  rw [inSight, hleaf, if_pos hopened, hhidden]
  exact List.forall_mem_singleton.2 inside

theorem eq_of_mem_hidden {i j : Expr} (hopened : isOpened e = true) (hi : i ∈ e.hidden) (hj : j ∈ e.hidden) :
    i = j := by
  obtain ⟨-, _, hhidden⟩ := hidden_of_isOpened hopened
  rw [hhidden] at hi hj
  exact (List.mem_singleton.1 hi).trans (List.mem_singleton.1 hj).symm

variable (he : e.Obtainable) (hopened : isOpened e = true) (hold : old ∈ e.hidden)

include he hopened hold

theorem untangled_around : Untangled old new (Sees e) := by
  have hobtainable : old.Obtainable := he.part (Expr.mem_parts_of_mem_hidden hold)
  refine forall_sees_around hopened hold ?_ fun a ha hne _ hchanged => ?_
  · intro _ hclosed
    rw [hopened] at hclosed
    cases hclosed
  · exact absurd (substitute_of_sees hobtainable ha hne) hchanged

theorem enclosable_around (hadmits : admits e new = true) : Enclosable old new (Sees e) := by
  refine forall_sees_around hopened hold (fun _ _ i hi => ?_)
    (enclosable_old (he.part (Expr.mem_parts_of_mem_hidden hold)))
  rw [eq_of_mem_hidden hopened hi hold, substitute_old]
  exact hadmits

theorem fault_of_refused_around {fault : Fault} (h : Refused old new (Sees e) fault) : fault = refusal e new := by
  obtain ⟨a, i, ha, hne, ha', hi, hrefuses, rfl⟩ := h
  have hinside : Enclosable old new (Sees old) := enclosable_old (he.part (Expr.mem_parts_of_mem_hidden hold))
  refine forall_sees_around (p := fun a => a ≠ old → isOpened a = true → ∀ i ∈ a.hidden,
    admits a (substitute old new i) = false → refusal a (substitute old new i) = refusal e new) hopened hold
    (fun _ _ i hi _ => ?_) (fun a ha hne hopened i hi hrefuses => ?_) a ha hne ha' i hi hrefuses
  · rw [eq_of_mem_hidden hopened hi hold, substitute_old]
  · rw [hinside a ha hne hopened i hi] at hrefuses
    cases hrefuses

theorem replace_around (hnew : new.Obtainable) :
    replace old new e = if admits e new then .ok (enclosing e new) else .error (refusal e new) := by
  have hne : e ≠ old := by
    rintro rfl
    exact Nat.lt_irrefl _ (Expr.sizeOf_lt_of_mem_hidden hold)
  obtain ⟨hdone, hrefused⟩ := cases_of_outcome (replace_outcome he hnew (untangled_around he hopened hold))
  split
  · rename_i hadmits
    rw [hdone (enclosable_around he hopened hold hadmits), substitute_opened hne hopened hold, substitute_old]
  · rename_i hrefuses
    obtain ⟨fault, hfault, hrefused⟩ := hrefused fun henclosable => by
      have hadmits := henclosable e (.refl e) hne hopened old hold
      rw [substitute_old] at hadmits
      exact hrefuses hadmits
    rw [hfault, fault_of_refused_around he hopened hold hrefused]

end Around

section Outcomes

structure Replacement {α : Type} (old new : Expr) (seen : Expr → Prop) (Built : α → Prop) (before substituted : α)
    (r : Except Fault α) : Prop where
  same : ¬ seen old ∨ new = old → r = .ok before
  closed : Closed new → (∀ a, seen a → isOpened a = false) → r = .ok substituted
  admitted : Untangled old new seen → Enclosable old new seen → r = .ok substituted
  refused : Untangled old new seen → ¬ Enclosable old new seen →
    ∃ fault, r = .error fault ∧ Refused old new seen fault
  outcome : Guarantee.Outcome Built ReplacementFault r

theorem replacement_of_outcome {α : Type} {seen : Expr → Prop} {Built : α → Prop} {x x' : α} {r : Except Fault α}
    (hsame : ¬ seen old ∨ new = old → r = .ok x) (hseen : ∀ a c, seen a → Sees a c → seen c)
    (houtcome : Untangled old new seen →
      Guarantee.Outcome (fun y => y = x' ∧ Enclosable old new seen) (Refused old new seen) r)
    (hbuilt : Guarantee.Outcome Built ReplacementFault r) : Replacement old new seen Built x x' r where
  same := hsame
  closed hnew hclosed := by
    have hT (a : Expr) (ha : seen a) : Closed a := fun c hc => hclosed c (hseen a c ha hc)
    exact (cases_of_outcome (houtcome (untangled_of_closed hnew hT))).1 (enclosable_of_closed hT)
  admitted huntangled := (cases_of_outcome (houtcome huntangled)).1
  refused huntangled := (cases_of_outcome (houtcome huntangled)).2
  outcome := hbuilt

theorem replace_built (old : Expr) (hnew : new.Obtainable) (he : e.Obtainable) :
    Guarantee.Outcome Expr.Obtainable ReplacementFault (replace old new e) := by
  have hmap := outcome_concluded .endless ((stepGives_replacing old hnew).map he)
  rw [run_map_enterer] at hmap
  exact hmap.map fun _ hr => obtainable_getD he hr

theorem replace_unseen (he : e.Obtainable) (h : ¬ Sees e old ∨ new = old) : replace old new e = .ok e := by
  rw [replace, mapEntering_unseen new he h]
  rfl

theorem replaceFormula_unseen (hb : b.Normal) (hterms : ∀ e ∈ b.terms, e.Obtainable)
    (h : ¬ SeenIn b old ∨ new = old) : replaceFormula old new b = .ok b := by
  have hunseen (e : Expr) (he : e ∈ b.terms) : e.Obtainable ∧ (¬ Sees e old ∨ new = old) :=
    ⟨hterms e he, h.imp_left fun hnot hsees => hnot ⟨e, he, hsees⟩⟩
  obtain ⟨r, hr, rfl⟩ := Guarantee.exists_of_ending
    ((stepGives_unseen old new).mapFormula (Formula.layerGives_self _ _) ⟨hb, hunseen⟩)
  rw [replaceFormula, mapFormulaEntering, hr]
  rfl

theorem replacement_replace (old : Expr) (hnew : new.Obtainable) (he : e.Obtainable) :
    Replacement old new (Sees e) Expr.Obtainable e (substitute old new e) (replace old new e) :=
  replacement_of_outcome (replace_unseen he) (fun _ _ => Sees.trans) (replace_outcome he hnew)
    (replace_built old hnew he)

theorem replacement_replaceFormula (old : Expr) (hnew : new.Obtainable) (hb : b.Normal)
    (hterms : ∀ e ∈ b.terms, e.Obtainable) :
    Replacement old new (SeenIn b) (fun b' => ∀ e ∈ b'.terms, e.Obtainable) b (substituteFormula old new b)
      (replaceFormula old new b) := by
  refine replacement_of_outcome (replaceFormula_unseen hb hterms) ?_ (replaceFormula_outcome hnew hterms)
    (replaceFormula_built old hnew hterms)
  rintro a c ⟨e, he, ha⟩ hc
  exact ⟨e, he, ha.trans hc⟩

theorem substitute_kept (hne : e ≠ old) (hclosed : isOpened e = false)
    (hrejects : e.acceptsTarget (e.children.map (substitute old new)) = false) : substitute old new e = e := by
  have hnone : e.rebuild? (e.children.map (substitute old new)) = .ok none := by
    rw [Expr.rebuild?, hrejects]
    rfl
  rw [substitute_closed hne hclosed, resettled, hnone]
  split <;> rfl

end Outcomes

/-- A replacement fails exactly where an exit value, an initial value or a value of another frame does not admit what
its inside becomes, unless a rebuilt node has to be looked into; then it may also go on without end. Every other node
that cannot be based on what its target becomes is kept. Where what is replaced is not seen, or is replaced by itself,
nothing changes, and where nothing is looked into there is a result. -/
theorem replacement_outcomes (old : Expr) (hnew : new.Obtainable) :
    (∀ e, e.Obtainable → Replacement old new (Sees e) Expr.Obtainable e (substitute old new e) (replace old new e)) ∧
    (∀ b : Formula, b.Normal → (∀ e ∈ b.terms, e.Obtainable) →
      Replacement old new (SeenIn b) (fun b' => ∀ e ∈ b'.terms, e.Obtainable) b (substituteFormula old new b)
        (replaceFormula old new b)) ∧
    (∀ e, e ≠ old → isOpened e = false → e.acceptsTarget (e.children.map (substitute old new)) = false →
      substitute old new e = e) ∧
    ∀ e, e.Obtainable → isOpened e = true → old ∈ e.hidden →
      replace old new e = if admits e new then .ok (enclosing e new) else .error (refusal e new) :=
  ⟨fun _ he => replacement_replace old hnew he, fun _ hb hterms => replacement_replaceFormula old hnew hb hterms,
    fun _ => substitute_kept, fun _ he hopened hold => replace_around he hopened hold hnew⟩

section Instances

variable (v : Variable)

def framed (id : Nat) : Expr := .of (.frame (.var v) id)

theorem obtainable_framed (id : Nat) : (framed v id).Obtainable :=
  .make (s := .frame (.var v) id) (List.forall_mem_singleton.2 (obtainable_var v)) rfl

theorem closed_fieldOf (f : Field) : Closed (fieldOf v f) :=
  closed_of_children rfl (List.forall_mem_singleton.2 (closed_of_children rfl (List.forall_mem_nil _)))

/-- With a constant for the variable, its field stays as it is, while its exit value refuses the constant. -/
theorem replacement_outcomes_of_constant :
    ∃ old new e e' : Expr, old = .var (.ofLocal "x") ∧ new = .int 5 ∧
      e = fieldOf (.ofLocal "x") ⟨"f", "node", .int 4 true⟩ ∧ e' = varExit (.ofLocal "x") ∧
      new.Obtainable ∧ e.Obtainable ∧ e'.Obtainable ∧
      replace old new e = .ok e ∧ replace old new e' = .error (.notLvalue new) := by
  have hfield := obtainable_fieldOf (.ofLocal "x") ⟨"f", "node", .int 4 true⟩
  have hchildren : (fieldOf (.ofLocal "x") ⟨"f", "node", .int 4 true⟩).children.map
      (substitute (.var (.ofLocal "x")) (.int 5)) = [.int 5] :=
    congrArg (fun e => [e]) (substitute_old (.var (.ofLocal "x")) (.int 5))
  obtain ⟨hexprs, -, hkept, haround⟩ := replacement_outcomes (.var (.ofLocal "x")) (obtainable_int 5)
  refine ⟨_, _, _, _, rfl, rfl, rfl, rfl, obtainable_int 5, hfield, obtainable_varExit _, ?_, ?_⟩
  · rw [(hexprs _ hfield).closed (closed_int 5) (closed_fieldOf _ _),
      hkept _ (fieldOf_ne_var _ _) rfl (by rw [hchildren]; rfl)]
  · rw [haround _ (obtainable_varExit _) rfl (List.mem_singleton_self _)]
    rfl

/-- An exit value refuses a constant, and a value of another frame refuses one of a third. -/
theorem replacement_refused :
    (∃ e old new : Expr, e = varExit (.ofLocal "x") ∧ old = .var (.ofLocal "x") ∧ new = .int 5 ∧
      e.Obtainable ∧ new.Obtainable ∧ replace old new e = .error (.notLvalue new)) ∧
    ∃ e old new : Expr, e = framed (.ofLocal "x") 3 ∧ old = .var (.ofLocal "x") ∧ new = framed (.ofLocal "y") 4 ∧
      e.Obtainable ∧ new.Obtainable ∧ replace old new e = .error .nestedFrame := by
  refine ⟨⟨_, _, _, rfl, rfl, rfl, obtainable_varExit _, obtainable_int 5, ?_⟩,
    ⟨_, _, _, rfl, rfl, rfl, obtainable_framed _ 3, obtainable_framed _ 4, ?_⟩⟩
  · rw [replace_around (obtainable_varExit _) rfl (List.mem_singleton_self _) (obtainable_int 5)]
    rfl
  · rw [replace_around (obtainable_framed _ 3) rfl (List.mem_singleton_self _) (obtainable_framed _ 4)]
    rfl

end Instances

end Retrace.Walk
