import Retrace.Proofs.Expr.Refolding
import Retrace.Proofs.Walk.Substitution

/-!
Replacement by a location. A location can take the place of anything that a node is based on, so every node around it
can be rebuilt, and nothing folds. Only a step into or out of a field may cancel against one that the location ends
with; the replacement is one simultaneous substitution unless what is left then is an exit or initial value with
the replaced node inside it.
-/

set_option autoImplicit false

namespace Retrace.Walk

open Retrace.Expr (Kindred Renewed)

variable {old new e i : Expr}

section Locations

theorem BelowFields.kindred {x : Expr} (h : BelowFields new x) (hnew : new.Obtainable) :
    Kindred (BelowFields new) e x :=
  Expr.kindred_of_target (h.location hnew).2 fun _ hy => .next h hy

theorem kindred_enclosing (hopened : isOpened e = true) (i : Expr) {L : Expr → Prop} :
    Kindred L e (enclosing e i) := by
  have hshape : (enclosing e i).isLvalueTarget = true ∧ (enclosing e i).fieldBase? = none := by
    obtain ⟨d, s⟩ := e
    cases s with
    | moment | frame => exact ⟨rfl, rfl⟩
    | _ => cases hopened
  refine Expr.kindred_of_target hshape.1 fun y hy => ?_
  rw [hshape.2] at hy
  cases hy

theorem admits_eq (h : e.isFrame = false) (i : Expr) : admits e i = i.isLvalueTarget := by
  obtain ⟨d, s⟩ := e
  cases s with
  | frame => cases h
  | _ => rfl

theorem renewed_resettled {L : Expr → Prop} {cs : List Expr} (he : e.Obtainable)
    (h : Expr.Rebuildable L e cs) (hcs : ∀ c ∈ cs, c.Obtainable) : Renewed L e cs (resettled e cs) := by
  obtain ⟨value, hvalue, -, hrenewed⟩ := exists_rebuilt_renewed .keep he h hcs
  rw [rebuilt_keep he h.akin.length_eq.symm] at hvalue
  cases hvalue
  exact hrenewed

structure StandsFor (new e e' : Expr) : Prop where
  kindred : Kindred (BelowFields new) e e'
  obtainable : e'.Obtainable

theorem forall₂_substitute {R : Expr → Expr → Prop} (h : ∀ c ∈ e.children, R c (substitute old new c)) :
    List.Forall₂ R e.children (e.children.map (substitute old new)) :=
  List.forall₂_map_right_iff.2 (List.forall₂_same.2 h)

variable (hnew : new.Obtainable) (hlocation : new.isLvalueTarget = true)

include hnew hlocation

theorem standsFor_substitute (he : e.Obtainable) (hframes : ∀ a, Sees e a → a.isFrame = false) :
    StandsFor new e (substitute old new e) := by
  induction e using Expr.inductionOnParts with
  | step e ih =>
    have next (c : Expr) (hc : c ∈ inSight e) : StandsFor new c (substitute old new c) := by
      have hpart := mem_parts_of_mem_inSight hc
      exact ih c hpart (he.part hpart) fun a ha => hframes a (.next hc ha)
    by_cases hold : e = old
    · subst hold
      rw [substitute_old]
      exact ⟨Expr.kindred_of_target hlocation fun y hy => .step hy, hnew⟩
    by_cases hopened : isOpened e = true
    · obtain ⟨-, i, hhidden⟩ := hidden_of_isOpened hopened
      have hi : i ∈ e.hidden := hhidden ▸ List.mem_singleton_self i
      have hinside := next i (mem_inSight_of_mem_hidden hopened hi)
      have hadmits := (encloses_hidden he hopened hi).1
      rw [admits_eq (hframes e (.refl e))] at hadmits
      have hreclose : reclose e (substitute old new i) = .ok (substitute old new e) := by
        rw [reclose_eq he hopened, admits_eq (hframes e (.refl e)), if_pos (hinside.kindred.target hadmits),
          substitute_opened hold hopened hi]
      refine ⟨?_, obtainable_of_reclose he hinside.obtainable hreclose⟩
      rw [substitute_opened hold hopened hi]
      exact kindred_enclosing hopened _
    · have hclosed : isOpened e = false := by simpa using hopened
      rw [inSight_of_closed hclosed] at next
      have hcs : ∀ c ∈ e.children.map (substitute old new), c.Obtainable :=
        List.forall_mem_map.2 fun c hc => (next c hc).obtainable
      rw [substitute_closed hold hclosed]
      have hrebuildable := he.rebuildable (forall₂_substitute fun c hc => (next c hc).kindred)
      exact ⟨(renewed_resettled he hrebuildable hcs).kindred fun x hx => hx.kindred hnew,
        obtainable_resettled he (List.length_map _) hcs⟩

variable (he : e.Obtainable) (hframes : ∀ a, Sees e a → a.isFrame = false)

include he hframes

theorem children_substitute :
    List.Forall₂ (Kindred (BelowFields new)) e.children (e.children.map (substitute old new)) ∧
      ∀ c ∈ e.children.map (substitute old new), c.Obtainable := by
  have child (c : Expr) (hc : c ∈ e.children) : StandsFor new c (substitute old new c) := by
    refine standsFor_substitute hnew hlocation (he.part (Expr.mem_parts_of_mem_children hc)) fun a ha => ?_
    exact hframes a (.next (List.mem_append_left _ hc) ha)
  exact ⟨forall₂_substitute fun c hc => (child c hc).kindred,
    List.forall_mem_map.2 fun c hc => (child c hc).obtainable⟩

theorem renewed_substitute (hne : e ≠ old) (hclosed : isOpened e = false) :
    Renewed (BelowFields new) e (e.children.map (substitute old new)) (substitute old new e) := by
  obtain ⟨hkin, hcs⟩ := children_substitute hnew hlocation he hframes
  rw [substitute_closed hne hclosed]
  exact renewed_resettled he (he.rebuildable hkin) hcs

theorem untangled_of_apart (hapart : ∀ x, BelowFields new x → isOpened x = true → ¬ Sees x old) :
    Untangled old new (Sees e) := by
  intro a ha hne hclosed hchanged hopened
  have hrenewed := renewed_substitute hnew hlocation (ha.obtainable he) (fun x hx => hframes x (ha.trans hx)) hne
    hclosed
  generalize substitute old new a = value at hrenewed hchanged hopened ⊢
  cases hrenewed with
  | same => exact absurd rfl hchanged
  | node kind =>
    rw [isOpened_of_sameOperator kind] at hopened
    cases hopened
  | left _ left => exact hapart value left hopened

theorem enclosable_of_location : Enclosable old new (Sees e) := by
  intro a ha _ hopened i hi
  have haobtainable := ha.obtainable he
  have hadmits := (encloses_hidden haobtainable hopened hi).1
  rw [admits_eq (hframes a ha)] at hadmits ⊢
  have hinside := mem_inSight_of_mem_hidden hopened hi
  refine (standsFor_substitute hnew hlocation (haobtainable.part (mem_parts_of_mem_inSight hinside)) ?_).kindred.target
    hadmits
  exact fun x hx => hframes x (ha.trans (.next hinside hx))

/-- Every node is rebuilt from what its children become. If they stay as they are, so does the node, while rebuilding
it would fold a logical operation on constants. -/
theorem rebuild?_substitute (hne : e ≠ old) (hclosed : isOpened e = false)
    (hfolded : e.children.map (substitute old new) = e.children → e.truth? = none) :
    e.rebuild? (e.children.map (substitute old new)) = .ok (some (substitute old new e)) := by
  rw [substitute_closed hne hclosed, resettled]
  split
  · rename_i hsame
    rw [hsame, he.rebuild?_children, Expr.refolded_of_none (hfolded hsame)]
  · rename_i hchanged
    obtain ⟨hkin, hcs⟩ := children_substitute hnew hlocation he hframes
    obtain ⟨value, hvalue, -⟩ := he.exists_renewed (he.rebuildable hkin) hcs hchanged
    rw [hvalue]

end Locations

/-- A replacement by a location, where no reference to a frame is looked into, is one substitution, made everywhere at
once, unless a node that is rebuilt comes out as an exit or initial value with the replaced node inside. That takes a
location which goes into or out of fields of such a value. -/
theorem replace_eq_substitute (old : Expr) (hnew : new.Obtainable) (hlocation : new.isLvalueTarget = true)
    (he : e.Obtainable) (hframes : ∀ a, Sees e a → a.isFrame = false) :
    (Untangled old new (Sees e) → replace old new e = .ok (substitute old new e)) ∧
    ((∀ x, BelowFields new x → isOpened x = true → ¬ Sees x old) → Untangled old new (Sees e)) ∧
    ∀ a, Sees e a → a ≠ old → isOpened a = false →
      (a.children.map (substitute old new) = a.children → a.truth? = none) →
      a.rebuild? (a.children.map (substitute old new)) = .ok (some (substitute old new a)) := by
  refine ⟨fun huntangled => ?_, untangled_of_apart hnew hlocation he hframes, fun a ha => ?_⟩
  · exact (cases_of_outcome (replace_outcome he hnew huntangled)).1 (enclosable_of_location hnew hlocation he hframes)
  · exact rebuild?_substitute hnew hlocation (ha.obtainable he) fun x hx => hframes x (ha.trans hx)

section Instances

variable (v w : Variable) (f : Field)

def aroundPointee : Expr := .of (.access (.container f) (pointee w))

theorem obtainable_aroundPointee : (aroundPointee w f).Obtainable :=
  .make (s := .access (.container f) (pointee w)) (List.forall_mem_singleton.2 (obtainable_deref_var w)) rfl

theorem resettled_field {t inner : Expr} (ht : (Expr.of (.access (.field f) t)).Obtainable)
    (hne : Expr.of (.access (.container f) inner) ≠ t) :
    resettled (.of (.access (.field f) t)) [.of (.access (.container f) inner)] = inner := by
  have hlength : [Expr.of (.access (.container f) inner)].length =
      (Expr.of (.access (.field f) t)).children.length := rfl
  have hrebuilt := (rebuilt_keep ht hlength).symm.trans (rebuilt_field_container f .keep hne)
  exact Option.some.inj (Except.ok.inj hrebuilt)

theorem substitute_field {t inner : Expr} (ht : (Expr.of (.access (.field f) t)).Obtainable)
    (hself : Expr.of (.access (.field f) t) ≠ t) (hne : Expr.of (.access (.container f) inner) ≠ t) :
    substitute t (.of (.access (.container f) inner)) (.of (.access (.field f) t)) = inner := by
  have hchildren : (Expr.of (.access (.field f) t)).children.map
      (substitute t (.of (.access (.container f) inner))) = [.of (.access (.container f) inner)] :=
    congrArg (fun e => [e]) (substitute_old t _)
  rw [substitute_closed hself rfl, hchildren]
  exact resettled_field f ht hne

def memberExit : Expr := .of (.moment .exit (member v f) none)

theorem obtainable_memberExit : (memberExit v f).Obtainable :=
  .make (s := .moment .exit (member v f) none) (List.forall_mem_singleton.2 (obtainable_member v f)) rfl

theorem forall_sees_memberExit {p : Expr → Prop} (hexit : p (memberExit v f)) (hmember : p (member v f))
    (hpointee : p (pointee v)) (hvar : p (.var v)) : ∀ a, Sees (memberExit v f) a → p a := by
  refine forall_sees hexit (List.forall_mem_singleton.2 ?_)
  refine forall_sees hmember (List.forall_mem_singleton.2 ?_)
  refine forall_sees hpointee (List.forall_mem_singleton.2 ?_)
  exact forall_sees hvar (List.forall_mem_nil _)

theorem substitute_memberExit : substitute (pointee v) (aroundPointee w f) (memberExit v f) =
    .of (.moment .exit (pointee w) none) := by
  have hne : memberExit v f ≠ pointee v := of_ne_of (by simp)
  have hinside : substitute (pointee v) (aroundPointee w f) (member v f) = pointee w :=
    substitute_field f (obtainable_member v f) (of_ne_of (by simp)) (of_ne_of (by simp))
  rw [substitute_opened hne rfl (List.mem_singleton_self (member v f)), hinside]
  rfl

theorem not_opened_of_belowFields_aroundPointee {x : Expr} (h : BelowFields (aroundPointee w f) x) :
    isOpened x = false := by
  obtain ⟨y, hy, hbelow⟩ := h.exists_fieldBase?
  cases hy
  rcases hbelow with rfl | hbelow
  · rfl
  · obtain ⟨_, hnone, -⟩ := hbelow.exists_fieldBase?
    cases hnone

/-- The exit value of a field of one object becomes that of another object: the location that comes in has that object
as the field, so the two steps cancel. -/
theorem replace_eq_substitute_of_cancelling :
    ∃ e old new : Expr, e = memberExit (.ofLocal "x") ⟨"f", "node", .int 4 true⟩ ∧ old = pointee (.ofLocal "x") ∧
      new = aroundPointee (.ofLocal "y") ⟨"f", "node", .int 4 true⟩ ∧
      new.Obtainable ∧ new.isLvalueTarget = true ∧ e.Obtainable ∧ (∀ a, Sees e a → a.isFrame = false) ∧
      (∀ x, BelowFields new x → isOpened x = true → ¬ Sees x old) ∧
      replace old new e = .ok (.of (.moment .exit (pointee (.ofLocal "y")) none)) := by
  have hnew := obtainable_aroundPointee (.ofLocal "y") ⟨"f", "node", .int 4 true⟩
  have he := obtainable_memberExit (.ofLocal "x") ⟨"f", "node", .int 4 true⟩
  have hframes := forall_sees_memberExit (.ofLocal "x") ⟨"f", "node", .int 4 true⟩ (p := fun a => a.isFrame = false)
    rfl rfl rfl rfl
  have hapart : ∀ x, BelowFields (aroundPointee (.ofLocal "y") ⟨"f", "node", .int 4 true⟩) x → isOpened x = true →
      ¬ Sees x (pointee (.ofLocal "x")) := by
    intro x hx hopened
    rw [not_opened_of_belowFields_aroundPointee _ _ hx] at hopened
    cases hopened
  refine ⟨_, _, _, rfl, rfl, rfl, hnew, rfl, he, hframes, hapart, ?_⟩
  obtain ⟨hreplace, huntangled, -⟩ := replace_eq_substitute (pointee (.ofLocal "x")) hnew rfl he hframes
  rw [hreplace (huntangled hapart), substitute_memberExit]

def aroundVarExit : Expr := .of (.access (.container f) (varExit v))

theorem obtainable_aroundVarExit : (aroundVarExit v f).Obtainable :=
  .make (s := .access (.container f) (varExit v)) (List.forall_mem_singleton.2 (obtainable_varExit v)) rfl

theorem aroundVarExit_ne_var : aroundVarExit v f ≠ .var v := of_ne_of (by simp)

theorem substitute_fieldOf_var : substitute (.var v) (aroundVarExit v f) (fieldOf v f) = varExit v :=
  substitute_field f (obtainable_fieldOf v f) (fieldOf_ne_var v f) (aroundVarExit_ne_var v f)

theorem mapEntering_var : mapEntering .all .keep (replacing (.var v) new) (.var v) = some (.ok (some new)) := by
  rw [mapEntering.eq_1, map, StateT.run'_eq, run_mapExpr_leaf rfl rfl applied_old]
  rfl

theorem replace_fieldOf : replace (.var v) (aroundVarExit v f) (fieldOf v f) =
    .ok (.of (.moment .exit (aroundVarExit v f) none)) := by
  have happlied : applied .keep (enterer .all .keep (replacing (.var v) (aroundVarExit v f))) (varExit v)
      (fieldOf v f) = pure (some (.of (.moment .exit (aroundVarExit v f) none))) := by
    have hinside : Expr.var v ∈ (varExit v).hidden := List.mem_singleton_self _
    rw [applied, enterer, entering_of_enter (replacing_opened (fieldOf_ne_var v f) rfl hinside), mapEntering_var]
    rfl
  have hrun : (mapExpr .all .keep (enterer .all .keep (replacing (.var v) (aroundVarExit v f)))
      (fieldOf v f)).run [] = pure (some (.of (.moment .exit (aroundVarExit v f) none)), _) :=
    run_mapExpr_single rfl rfl applied_old (rebuilt_field_container f .keep (aroundVarExit_ne_var v f)) happlied
  rw [replace, ← run_map_enterer, map, StateT.run'_eq, hrun]
  rfl

theorem forall_sees_fieldOf {p : Expr → Prop} (hfield : p (fieldOf v f)) (hvar : p (.var v)) :
    ∀ a, Sees (fieldOf v f) a → p a := by
  refine forall_sees hfield (List.forall_mem_singleton.2 ?_)
  exact forall_sees hvar (List.forall_mem_nil _)

theorem forall_sees_aroundVarExit {p : Expr → Prop} (haround : p (aroundVarExit v f)) (hexit : p (varExit v))
    (hvar : p (.var v)) : ∀ a, Sees (aroundVarExit v f) a → p a := by
  refine forall_sees haround (List.forall_mem_singleton.2 ?_)
  refine forall_sees hexit (List.forall_mem_singleton.2 ?_)
  exact forall_sees hvar (List.forall_mem_nil _)

/-- The variable comes in for itself, inside its own exit value. The field and the step out of it cancel, and the exit
value that is left is looked into: the variable is replaced a second time. -/
theorem replaced_inside_new :
    ∃ e old new : Expr, e = fieldOf (.ofLocal "x") ⟨"f", "node", .int 4 true⟩ ∧ old = .var (.ofLocal "x") ∧
      new = aroundVarExit (.ofLocal "x") ⟨"f", "node", .int 4 true⟩ ∧
      e.Obtainable ∧ new.Obtainable ∧ new.isLvalueTarget = true ∧
      (∀ a, Sees e a → a.isFrame = false) ∧ (∀ a, Sees new a → a.isFrame = false) ∧
      substitute old new e = varExit (.ofLocal "x") ∧
      replace old new e = .ok (.of (.moment .exit new none)) ∧ replace old new e ≠ .ok (substitute old new e) := by
  refine ⟨_, _, _, rfl, rfl, rfl, obtainable_fieldOf _ _, obtainable_aroundVarExit _ _, rfl,
    forall_sees_fieldOf _ _ rfl rfl, forall_sees_aroundVarExit _ _ rfl rfl rfl, substitute_fieldOf_var _ _,
    replace_fieldOf _ _, fun heq => ?_⟩
  rw [replace_fieldOf, substitute_fieldOf_var] at heq
  have hshape := congrArg Expr.hidden (Except.ok.inj heq)
  exact aroundVarExit_ne_var _ _ (List.cons.inj hshape).1

end Instances

end Retrace.Walk
