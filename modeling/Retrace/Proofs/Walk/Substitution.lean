import Retrace.Proofs.Walk.Replacing

/-!
Replacement as a substitution. The node that is replaced becomes the new one, and every other node is put together
again from what its parts became, all at once. A replacement does more than that only where a node that it rebuilt
turns out to be an exit value, an initial value or a value of another frame: it looks into that node, too. Where this
finds nothing to replace, the replacement is the substitution, and its only faults are those of nodes that do not
admit what their insides became.
-/

set_option autoImplicit false

namespace Retrace.Walk

variable {old new e i : Expr}

section Sight

theorem Sees.trans {a b c : Expr} (h : Sees a b) (h' : Sees b c) : Sees a c := by
  induction h with
  | refl => exact h'
  | next mem _ ih => exact .next mem (ih h')

theorem forall_sees {p : Expr → Prop} (here : p e) (next : ∀ c ∈ inSight e, ∀ a, Sees c a → p a) :
    ∀ a, Sees e a → p a := by
  intro a ha
  cases ha with
  | refl => exact here
  | next mem sees => exact next _ mem a sees

theorem Sees.sizeOf_le {a : Expr} (h : Sees e a) : sizeOf a ≤ sizeOf e := by
  induction h with
  | refl => exact Nat.le_refl _
  | next mem _ ih =>
    have := Expr.sizeOf_lt_of_mem_parts (mem_parts_of_mem_inSight mem)
    omega

theorem Sees.obtainable {a : Expr} (h : Sees e a) (he : e.Obtainable) : a.Obtainable := by
  induction h with
  | refl => exact he
  | next mem _ ih => exact ih (he.part (mem_parts_of_mem_inSight mem))

theorem not_sees_of_inSight {a c : Expr} (hc : c ∈ inSight a) (ha : Sees old a) : ¬ Sees c old := by
  intro hsees
  have hlt := Expr.sizeOf_lt_of_mem_parts (mem_parts_of_mem_inSight hc)
  have hle := ha.sizeOf_le
  have hle' := hsees.sizeOf_le
  omega

theorem inSight_of_closed (h : isOpened e = false) : inSight e = e.children := by
  rw [inSight, h]
  exact List.append_nil _

end Sight

section Definition

/-- The node over new children: itself where they are its own, or where it cannot be based on the first of them. -/
def resettled (e : Expr) (cs : List Expr) : Expr :=
  if cs = e.children then e
  else
    match e.rebuild? cs with
    | .ok (some value) => value
    | _ => e

/-- Puts `new` in the place of `old`, and every node that is looked into or rebuilt around what its parts become. -/
def substitute (old new e : Expr) : Expr :=
  if e = old then new
  else if isOpened e then
    (e.hidden.attach.map fun i => substitute old new i.1).foldl enclosing e
  else resettled e (e.children.attach.map fun c => substitute old new c.1)
termination_by sizeOf e
decreasing_by
  · exact Expr.sizeOf_lt_of_mem_hidden i.2
  · exact Expr.sizeOf_lt_of_mem_children c.2

theorem substitute_old (old new : Expr) : substitute old new old = new := by
  rw [substitute, if_pos rfl]

theorem substitute_opened (hne : e ≠ old) (hopened : isOpened e = true) (hi : i ∈ e.hidden) :
    substitute old new e = enclosing e (substitute old new i) := by
  obtain ⟨-, i', hhidden⟩ := hidden_of_isOpened hopened
  rw [hhidden] at hi
  cases List.mem_singleton.1 hi
  rw [substitute, if_neg hne, if_pos hopened, List.attach_map_val (f := substitute old new), hhidden]
  rfl

theorem substitute_closed (hne : e ≠ old) (hclosed : isOpened e = false) :
    substitute old new e = resettled e (e.children.map (substitute old new)) := by
  rw [substitute, if_neg hne, if_neg (by rw [hclosed]; decide), List.attach_map_val (f := substitute old new)]

theorem rebuilt_keep (he : e.Obtainable) {cs : List Expr} (hlength : cs.length = e.children.length) :
    rebuilt .keep e cs = .ok (some (resettled e cs)) := by
  unfold rebuilt resettled
  split
  · rfl
  · obtain ⟨r, hr⟩ := Expr.exists_rebuild?_any (fun _ => he.sound) hlength
    rw [hr]
    cases r <;> rfl

theorem rebuilt_drop_eq (he : e.Obtainable) {cs : List Expr} (hlength : cs.length = e.children.length) :
    rebuilt .drop e cs = .ok (if e.acceptsTarget cs then some (resettled e cs) else none) := by
  unfold rebuilt resettled
  split
  · rename_i hsame
    rw [hsame, if_pos he.standing.accepts]
  · obtain ⟨r, hr⟩ := Expr.exists_rebuild?_any (fun _ => he.sound) hlength
    cases haccepts : e.acceptsTarget cs with
    | false =>
      rw [Expr.rebuild?, haccepts]
      rfl
    | true =>
      have hmade : (e.withChildren cs).map some = .ok r := by rwa [Expr.rebuild?, if_pos haccepts] at hr
      obtain ⟨value, -, rfl⟩ := Returning.of_map (m := Except Fault) hmade
      rw [hr]
      rfl

theorem obtainable_resettled (he : e.Obtainable) {cs : List Expr} (hlength : cs.length = e.children.length)
    (hcs : ∀ c ∈ cs, c.Obtainable) : (resettled e cs).Obtainable := by
  obtain ⟨r, hr, hcompletes⟩ := exists_rebuilt .keep he hcs hlength
  rw [rebuilt_keep he hlength] at hr
  cases hr
  exact hcompletes.1 _ rfl

theorem substitute_unseen (he : e.Obtainable) (h : ¬ Sees e old) : substitute old new e = e := by
  induction e using Expr.inductionOnParts with
  | step e ih =>
    have hne : e ≠ old := fun heq => h (heq ▸ .refl e)
    have next (c : Expr) (hc : c ∈ inSight e) : substitute old new c = c := by
      have hpart := mem_parts_of_mem_inSight hc
      exact ih c hpart (he.part hpart) fun hsees => h (.next hc hsees)
    by_cases hopened : isOpened e = true
    · obtain ⟨-, i, hhidden⟩ := hidden_of_isOpened hopened
      have hi : i ∈ e.hidden := hhidden ▸ List.mem_singleton_self i
      rw [substitute_opened hne hopened hi, next i (mem_inSight_of_mem_hidden hopened hi)]
      exact (encloses_hidden he hopened hi).2
    · have hclosed : isOpened e = false := by simpa using hopened
      rw [inSight_of_closed hclosed] at next
      rw [substitute_closed hne hclosed, List.map_congr_left next, List.map_id', resettled, if_pos rfl]

end Definition

section Run

/-- No node among those with `T` is rebuilt to one that is looked into and has inside it what is replaced. -/
def Untangled (old new : Expr) (T : Expr → Prop) : Prop :=
  ∀ a, T a → a ≠ old → isOpened a = false → substitute old new a ≠ a →
    isOpened (substitute old new a) = true → ¬ Sees (substitute old new a) old

def Enclosable (old new : Expr) (T : Expr → Prop) : Prop :=
  ∀ a, T a → a ≠ old → isOpened a = true → ∀ i ∈ a.hidden, admits a (substitute old new i) = true

def Refused (old new : Expr) (T : Expr → Prop) (fault : Fault) : Prop :=
  ∃ a i, T a ∧ a ≠ old ∧ isOpened a = true ∧ i ∈ a.hidden ∧ admits a (substitute old new i) = false ∧
    fault = refusal a (substitute old new i)

theorem enclosable_old (h : old.Obtainable) : Enclosable old new (Sees old) := by
  intro a ha hne hopened i hi
  have hobtainable := ha.obtainable h
  have hunseen := not_sees_of_inSight (mem_inSight_of_mem_hidden hopened hi) ha
  rw [substitute_unseen (hobtainable.part (Expr.mem_parts_of_mem_hidden hi)) hunseen]
  exact (encloses_hidden hobtainable hopened hi).1

theorem enclosable_of_inSight (hnext : ∀ c ∈ inSight e, Enclosable old new (Sees c))
    (hself : e ≠ old → isOpened e = true → ∀ i ∈ e.hidden, admits e (substitute old new i) = true) :
    Enclosable old new (Sees e) := forall_sees hself hnext

structure Substituted (old new e : Expr) (r : Option Expr) : Prop where
  result : r = some (substitute old new e)
  obtainable : (substitute old new e).Obtainable
  enclosable : Enclosable old new (Sees e)

structure Fit (old new : Expr) (T : Expr → Prop) (e : Expr) : Prop where
  obtainable : e.Obtainable
  untangled : Untangled old new (Sees e)
  seen : ∀ a, Sees e a → T a

theorem Fit.next {T : Expr → Prop} {c : Expr} (h : Fit old new T e) (hc : c ∈ inSight e) : Fit old new T c where
  obtainable := h.obtainable.part (mem_parts_of_mem_inSight hc)
  untangled a ha := h.untangled a (.next hc ha)
  seen a ha := h.seen a (.next hc ha)

variable {T : Expr → Prop}

theorem gives_of_closed (he : Fit old new T e) (hne : e ≠ old) (hclosed : isOpened e = false)
    (hvalue : (substitute old new e).Obtainable) :
    (Guarantee.ending.throwing (Refused old new T)).Gives
      ((enterer .all .keep (replacing old new)).map (substitute old new e) e)
      fun r => r = some (substitute old new e) := by
  refine gives_of_unseen hvalue hne fun hopened => ?_
  have hchanged : substitute old new e ≠ e := by
    intro hsame
    rw [hsame, hclosed] at hopened
    cases hopened
  exact he.untangled e (.refl e) hne hclosed hchanged hopened

theorem reclose_substituted (he : Fit old new T e) (hne : e ≠ old) (hopened : isOpened e = true) (hi : i ∈ e.hidden)
    (hinside : Substituted old new i (some (substitute old new i))) :
    Guarantee.Outcome (fun e' => Substituted old new e (some e')) (Refused old new T)
      (reclose e (substitute old new i)) := by
  by_cases hadmits : admits e (substitute old new i) = true
  · have hclosed : reclose e (substitute old new i) = .ok (substitute old new e) := by
      rw [reclose_eq he.obtainable hopened, if_pos hadmits, substitute_opened hne hopened hi]
    obtain ⟨hleaf, i', hhidden⟩ := hidden_of_isOpened hopened
    rw [hhidden] at hi
    cases List.mem_singleton.1 hi
    rw [hclosed]
    refine ⟨rfl, obtainable_of_reclose he.obtainable hinside.obtainable hclosed, enclosable_of_inSight ?_ ?_⟩
    · rw [inSight, hleaf, if_pos hopened, hhidden]
      exact List.forall_mem_singleton.2 hinside.enclosable
    · intro _ _
      rw [hhidden]
      exact List.forall_mem_singleton.2 hadmits
  · have hrefuses : admits e (substitute old new i) = false := by simpa using hadmits
    rw [reclose_eq he.obtainable hopened, if_neg hadmits]
    exact ⟨e, i, he.seen e (.refl e), hne, hopened, hi, hrefuses, rfl⟩

theorem children_of_over {cs : List Expr} (hcs : Over (Substituted old new) e cs) :
    cs = e.children.map (substitute old new) := by
  have hmap : List.Forall₂ (· = ·) (e.children.map (substitute old new)) cs :=
    List.forall₂_map_left_iff.2 (hcs.imp fun c c' hc => (Option.some.inj hc.result).symm)
  rw [List.forall₂_eq_eq_eq] at hmap
  exact hmap.symm

theorem substituted_closed (he : e.Obtainable) (hne : e ≠ old) (hclosed : isOpened e = false) {cs : List Expr}
    (hcs : Over (Substituted old new) e cs) :
    resettled e cs = substitute old new e ∧ Substituted old new e (some (substitute old new e)) := by
  have hvalue : resettled e cs = substitute old new e := by
    rw [substitute_closed hne hclosed, children_of_over hcs]
  have hobtainable : (resettled e cs).Obtainable := by
    refine obtainable_resettled he hcs.length_eq.symm (forall_mem_of_forall₂ (fun c c' hc => ?_) hcs)
    exact Option.some.inj hc.result ▸ hc.obtainable
  refine ⟨hvalue, rfl, hvalue ▸ hobtainable, enclosable_of_inSight ?_ fun _ hopened => ?_⟩
  · rw [inSight_of_closed hclosed]
    exact forall_mem_of_forall₂ (fun c' c hc => Substituted.enclosable hc) hcs.flip
  · rw [hclosed] at hopened
    cases hopened

theorem gives_of_opened (he : Fit old new T e) (hne : e ≠ old) (hopened : isOpened e = true)
    (hends : ∀ i ∈ e.hidden, (Guarantee.ending.throwing (Refused old new T)).Gives
      (ExceptT.mk (mapEntering .all .keep (replacing old new) i)) (Substituted old new i)) :
    (Guarantee.ending.throwing (Refused old new T)).Gives ((enterer .all .keep (replacing old new)).map e e)
      fun r => Substituted old new e (r.or (some e)) := by
  obtain ⟨i, hi⟩ := exists_hidden_of_isOpened hopened
  refine gives_of_enter (replacing_opened hne hopened hi) (hends i hi) fun r hr => ?_
  have hresult := hr.result
  subst hresult
  exact (reclose_substituted he hne hopened hi hr).map fun e' he' => he'

theorem stepGives_substitute (hnew : new.Obtainable) (T : Expr → Prop) :
    StepGives .ending (Refused old new T) .all .keep (enterer .all .keep (replacing old new)) (Fit old new T)
      (Substituted old new) := by
  have none_absurd {e : Expr} {p : Prop} (h : Substituted old new e none) : p := by cases h.result
  refine stepGives_enterer_ending fun n hends => ?_
  constructor
  case child =>
    rintro e ⟨he, hn⟩ c hc
    have hsize := Expr.sizeOf_lt_of_mem_children hc
    exact ⟨he.next (List.mem_append_left _ hc), by omega⟩
  case kept => exact fun _ _ _ => none_absurd
  case lost => exact fun _ _ _ _ => none_absurd
  case rebuilt =>
    rintro e cs ⟨he, -⟩ hcs
    rw [rebuilt_keep he.obtainable hcs.length_eq.symm]
    exact ⟨(fun hnone => by cases hnone), fun _ _ hout => by cases hout⟩
  case answered =>
    rintro e cs value ⟨he, hn⟩ - hcs hvalue
    rw [rebuilt_keep he.obtainable hcs.length_eq.symm] at hvalue
    cases hvalue
    by_cases hold : e = old
    · subst hold
      have hself := substitute_old e new
      refine gives_of_answer replacing_old ?_
      exact ⟨congrArg some hself.symm, hself.symm ▸ hnew, enclosable_old he.obtainable⟩
    cases hopened : isOpened e with
    | true =>
      have hself : resettled e cs = e := by
        rw [resettled, if_pos (by rw [children_of_over hcs, (hidden_of_isOpened hopened).1]; rfl)]
      rw [hself]
      refine gives_of_opened he hold hopened fun i hi => hends i ?_ (he.next (mem_inSight_of_mem_hidden hopened hi))
      have hsize := Expr.sizeOf_lt_of_mem_hidden hi
      omega
    | false =>
      obtain ⟨hvalue, hsubstituted⟩ := substituted_closed he.obtainable hold hopened hcs
      rw [hvalue]
      refine Guarantee.imp _ (gives_of_closed he hold hopened hsubstituted.obtainable) ?_
      rintro r rfl
      exact hsubstituted

/-- Where nothing is tangled, a replacement is the substitution, or a node does not admit what its inside becomes. -/
theorem replace_outcome (he : e.Obtainable) (hnew : new.Obtainable) (huntangled : Untangled old new (Sees e)) :
    Guarantee.Outcome (fun e' => e' = substitute old new e ∧ Enclosable old new (Sees e)) (Refused old new (Sees e))
      (replace old new e) := by
  have hfit : Fit old new (Sees e) e := ⟨he, huntangled, fun _ ha => ha⟩
  have hmap := outcome_of_ending ((stepGives_substitute hnew (Sees e)).map hfit)
  rw [run_map_enterer] at hmap
  refine hmap.map fun r hr => ?_
  rw [hr.result]
  exact ⟨rfl, hr.enclosable⟩

theorem Enclosable.not_refused {fault : Fault} (h : Enclosable old new T) : ¬ Refused old new T fault := by
  rintro ⟨a, i, ha, hne, hopened, hi, hrefuses, -⟩
  rw [h a ha hne hopened i hi] at hrefuses
  cases hrefuses

theorem cases_of_outcome {α : Type} {x : α} {r : Except Fault α}
    (h : Guarantee.Outcome (fun x' => x' = x ∧ Enclosable old new T) (Refused old new T) r) :
    (Enclosable old new T → r = .ok x) ∧
      (¬ Enclosable old new T → ∃ fault, r = .error fault ∧ Refused old new T fault) := by
  cases r with
  | ok x' => exact ⟨fun _ => congrArg Except.ok h.1, fun hnot => absurd h.2 hnot⟩
  | error fault => exact ⟨fun henclosable => absurd h henclosable.not_refused, fun _ => ⟨fault, rfl, h⟩⟩

end Run

section Formulas

def substituteFormula (old new : Expr) (b : Formula) : Formula :=
  match b.clause with
  | .nonzero e => if substitute old new e = e then b else .nonzero (substitute old new e)
  | _ =>
    match b.withOperands (b.operands.attach.map fun g => substituteFormula old new g.1) with
    | .ok b' => b'
    | .error _ => b
termination_by sizeOf b
decreasing_by exact Formula.sizeOf_lt_of_mem_operands g.2

variable {b : Formula}

theorem substituteFormula_test (he : b.clause = .nonzero e) :
    substituteFormula old new b =
      if substitute old new e = e then b else .nonzero (substitute old new e) := by
  rw [substituteFormula, he]

theorem withOperands_substituteFormula (htest : ∀ e, b.clause ≠ .nonzero e) :
    b.withOperands (b.operands.map (substituteFormula old new)) = .ok (substituteFormula old new b) := by
  have hlength : (b.operands.map (substituteFormula old new)).length = b.operands.length := List.length_map _
  obtain ⟨b', hb'⟩ := Formula.exists_withOperands hlength
  rw [substituteFormula]
  split
  · exact absurd ‹_› (htest _)
  · rw [List.attach_map_val (f := substituteFormula old new), hb']

theorem layerGives_substitute (T : Expr → Prop) :
    LayerGives (Refused old new T) (Fit old new T) (Substituted old new) (fun b => ∀ e ∈ b.terms, Fit old new T e)
      fun b r => r = some (substituteFormula old new b) ∧ ∀ e ∈ b.terms, Enclosable old new (Sees e) where
  tested b e hb he := hb e (Formula.mem_terms_of_clause he)
  operand b hb g hg e he := hb e (Formula.mem_terms_of_mem_operands hg he)
  lost b _ h := by
    obtain ⟨e, -, hnone⟩ | ⟨g, -, hnone, -⟩ := h
    · cases hnone.result
    · cases hnone
  nonzero b e e' _ he he' := by
    cases he'.result
    refine ⟨congrArg some (substituteFormula_test he).symm, ?_⟩
    obtain ⟨d, c⟩ := b
    cases he
    rw [Formula.terms]
    exact List.forall_mem_singleton.2 he'.enclosable
  operands b bs _ htest hbs := by
    have hmap : List.Forall₂ (· = ·) (b.operands.map (substituteFormula old new)) bs :=
      List.forall₂_map_left_iff.2 (hbs.imp fun g g' hg => (Option.some.inj hg.1).symm)
    rw [List.forall₂_eq_eq_eq] at hmap
    rw [← hmap, withOperands_substituteFormula htest]
    refine ⟨rfl, fun e he => ?_⟩
    obtain ⟨g, hg, heg⟩ := Formula.exists_mem_operands htest he
    exact forall_mem_of_forall₂ (fun _ _ h => And.right h) hbs.flip g hg e heg

def SeenIn (b : Formula) (a : Expr) : Prop := ∃ e ∈ b.terms, Sees e a

theorem replaceFormula_outcome (hnew : new.Obtainable) (hb : ∀ e ∈ b.terms, e.Obtainable)
    (huntangled : Untangled old new (SeenIn b)) :
    Guarantee.Outcome (fun b' => b' = substituteFormula old new b ∧ Enclosable old new (SeenIn b))
      (Refused old new (SeenIn b)) (replaceFormula old new b) := by
  have hfit (e : Expr) (he : e ∈ b.terms) : Fit old new (SeenIn b) e :=
    ⟨hb e he, fun a ha => huntangled a ⟨e, he, ha⟩, fun a ha => ⟨e, he, ha⟩⟩
  have hmap := outcome_of_ending ((stepGives_substitute hnew _).mapFormula (layerGives_substitute _) hfit)
  refine hmap.map fun r hr => ?_
  rw [hr.1]
  refine ⟨rfl, ?_⟩
  rintro a ⟨e, he, ha⟩
  exact hr.2 e he a ha

end Formulas

section Closed

-- Where nothing is looked into, nothing can be tangled, and no node refuses what its inside becomes.

def Closed (e : Expr) : Prop := ∀ a, Sees e a → isOpened a = false

theorem Closed.child {c : Expr} (h : Closed e) (hc : c ∈ e.children) : Closed c :=
  fun a ha => h a (.next (List.mem_append_left _ hc) ha)

theorem closed_of_children (hclosed : isOpened e = false) (hcs : ∀ c ∈ e.children, Closed c) : Closed e := by
  refine forall_sees hclosed ?_
  rw [inSight_of_closed hclosed]
  exact hcs

theorem closed_int (v : Int) : Closed (.int v) := closed_of_children rfl (List.forall_mem_nil _)

theorem closed_of_remade {cs : List Expr} {value : Expr} (he : Closed e) (hcs : ∀ c ∈ cs, Closed c)
    (h : Expr.Remade e cs value) : Closed value := by
  cases h with
  | leaf => exact he
  | node kind => exact closed_of_children (isOpened_of_sameOperator kind) hcs
  | foldUnary | foldBinary => exact closed_int _
  | convert => exact hcs _ List.mem_cons_self
  | negate _ inner | enter _ inner | leave _ inner =>
    exact (hcs _ List.mem_cons_self).child (by simp [Expr.children, inner, Shape.children])
  | neutral _ left =>
    rcases Expr.identity?_cases left with rfl | rfl | rfl
    · exact hcs _ List.mem_cons_self
    · exact hcs _ (List.mem_cons_of_mem _ List.mem_cons_self)
    · exact closed_int 0

theorem closed_resettled {cs : List Expr} (he : Closed e) (hcs : ∀ c ∈ cs, Closed c) : Closed (resettled e cs) := by
  unfold resettled
  split
  · exact he
  split
  · rename_i value hvalue
    unfold Expr.rebuild? at hvalue
    split at hvalue
    · obtain ⟨_, hmade, hsome⟩ := Returning.of_map (m := Except Fault) hvalue
      cases hsome
      exact closed_of_remade he hcs (Expr.remade_of_withChildren hmade)
    · cases hvalue
  · exact he

theorem closed_substitute (hnew : Closed new) (he : Closed e) : Closed (substitute old new e) := by
  induction e using Expr.inductionOnParts with
  | step e ih =>
    by_cases hold : e = old
    · rw [hold, substitute_old]
      exact hnew
    · rw [substitute_closed hold (he e (.refl e))]
      refine closed_resettled he (List.forall_mem_map.2 fun c hc => ?_)
      exact ih c (Expr.mem_parts_of_mem_children hc) (he.child hc)

variable {T : Expr → Prop}

theorem untangled_of_closed (hnew : Closed new) (hT : ∀ a, T a → Closed a) : Untangled old new T := by
  intro a ha _ _ _ hopened
  have hclosed := closed_substitute hnew (hT a ha) _ (.refl (substitute old new a))
  rw [hopened] at hclosed
  cases hclosed

theorem enclosable_of_closed (hT : ∀ a, T a → Closed a) : Enclosable old new T := by
  intro a ha _ hopened
  rw [hT a ha a (.refl a)] at hopened
  cases hopened

end Closed

section Variables

-- Nodes around a variable, for the cases of replacing it.

variable (v : Variable) (f : Field)

def fieldOf : Expr := .of (.access (.field f) (.var v))

def varExit : Expr := .of (.moment .exit (.var v) none)

theorem obtainable_fieldOf : (fieldOf v f).Obtainable :=
  .make (s := .access (.field f) (.var v)) (List.forall_mem_singleton.2 (obtainable_var v)) rfl

theorem fieldOf_ne_var : fieldOf v f ≠ .var v := of_ne_of (by simp)

theorem obtainable_varExit : (varExit v).Obtainable :=
  .make (s := .moment .exit (.var v) none) (List.forall_mem_singleton.2 (obtainable_var v)) rfl

end Variables

end Retrace.Walk
