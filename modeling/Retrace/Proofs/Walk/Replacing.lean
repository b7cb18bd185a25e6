import Retrace.Proofs.Expr.Attachment
import Retrace.Proofs.Meaning.Truth
import Retrace.Proofs.Walk.Completion
import Retrace.Proofs.Walk.Reach

/-!
Replacement of one location by another comes to a result. The node around the new location is rebuilt, and a
step into or out of a field may cancel against one that the new location ends with. What is left can be an exit
value, an initial value or a value of another frame, which the replacement then looks into; if the old location
is not to be found there, that is the end of it.
-/

set_option autoImplicit false

namespace Retrace

namespace Formula

variable {q : Fault → Prop} {Q : Expr → Prop} {P : Expr → Option Expr → Prop} {U D p : Expr → Prop}

/-- A mapping that has a result for the expressions with `U` and none for those with `D` has one for the formulas
that test only the former, and none for those that test one of the latter. -/
theorem layerGives_tests (hnot : ∀ e w a, e.shape = .unary .not w a → p e → p a)
    (hP : ∀ e r, Q e → P e r → (U e ∧ ∃ e', r = some e' ∧ p e') ∨ D e ∧ r = none) :
    Walk.LayerGives q Q P (fun b => ∀ e ∈ b.terms, Q e) fun b r =>
      ((∀ e ∈ b.terms, U e) ∧ ∃ b', r = some b' ∧ ∀ e ∈ b'.terms, p e) ∨ (∃ e ∈ b.terms, D e) ∧ r = none where
  tested b e hb he := hb e (mem_terms_of_clause he)
  operand b hb g hg e he := hb e (mem_terms_of_mem_operands hg he)
  lost b hb h := by
    obtain ⟨e, he, hnone⟩ | ⟨g, hg, ⟨-, _, hnone, -⟩ | ⟨⟨e, he, hD⟩, -⟩⟩ := h
    · have hmem := mem_terms_of_clause he
      obtain ⟨-, _, hsome, -⟩ | ⟨hD, -⟩ := hP e none (hb e hmem) hnone
      · cases hsome
      · exact .inr ⟨⟨e, hmem, hD⟩, rfl⟩
    · cases hnone
    · exact .inr ⟨⟨e, mem_terms_of_mem_operands hg he, hD⟩, rfl⟩
  nonzero b e e' hQ hb he' := by
    obtain ⟨hU, _, hsome, hp⟩ | ⟨-, hnone⟩ := hP e _ (hQ e (mem_terms_of_clause hb)) he'
    · cases hsome
      obtain ⟨d, c⟩ := b
      cases hb
      rw [terms]
      refine .inl ⟨List.forall_mem_singleton.2 hU, _, rfl, ?_⟩
      split
      · rename_i hsame
        rw [terms]
        exact List.forall_mem_singleton.2 (hsame ▸ hp)
      · exact forall_mem_terms_nonzero hnot hp
    · cases hnone
  operands b bs _ hb hbs := by
    have hbs : List.Forall₂ (fun g g' => (∀ e ∈ g.terms, U e) ∧ ∀ e ∈ g'.terms, p e) b.operands bs := by
      refine hbs.imp fun g g' hg => ?_
      obtain ⟨hU, _, hsome, hp⟩ | ⟨-, hnone⟩ := hg
      · cases hsome
        exact ⟨hU, hp⟩
      · cases hnone
    obtain ⟨b', hb'⟩ := exists_withOperands hbs.length_eq.symm
    rw [hb']
    refine .inl ⟨fun e he => ?_, b', rfl, fun e he => ?_⟩
    · obtain ⟨g, hg, heg⟩ := exists_mem_operands hb he
      exact Walk.forall_mem_of_forall₂ (fun _ _ hr => hr.1) hbs.flip g hg e heg
    · obtain ⟨g, hg, heg⟩ := mem_terms_withOperands hb hb' he
      exact Walk.forall_mem_of_forall₂ (fun _ _ hr => hr.2) hbs g hg e heg

theorem layerGives_terms (hnot : ∀ e w a, e.shape = .unary .not w a → p e → p a)
    (hP : ∀ e r, Q e → P e r → U e ∧ ∃ e', r = some e' ∧ p e') :
    Walk.LayerGives q Q P (fun b => ∀ e ∈ b.terms, Q e)
      fun b r => (∀ e ∈ b.terms, U e) ∧ ∃ b', r = some b' ∧ ∀ e ∈ b'.terms, p e := by
  have layer := layerGives_tests (q := q) (D := fun _ => False) hnot fun e r he hr => .inl (hP e r he hr)
  simpa only [and_false, exists_false, false_and, or_false] using layer

end Formula

namespace Walk

open Retrace.Expr (Kin Incoming Renewed)

variable {old new e i : Expr} {again : Expr → Option (Except Fault (Option Expr))}

section Absence

def inSight (e : Expr) : List Expr := e.children ++ if isOpened e then e.hidden else []

/-- The nodes that a replacement comes to, unless it stops on the way at what it replaces. -/
inductive Sees : Expr → Expr → Prop
  | refl (e : Expr) : Sees e e
  | next {e c a : Expr} (mem : c ∈ inSight e) (sees : Sees c a) : Sees e a

theorem mem_inSight_of_mem_hidden {c : Expr} (hopened : isOpened e = true) (hc : c ∈ e.hidden) : c ∈ inSight e := by
  rw [inSight, if_pos hopened]
  exact List.mem_append_right _ hc

theorem mem_inward_of_mem_inSight {c : Expr} (h : c ∈ inSight e) : c ∈ e.inward := by
  rcases List.mem_append.1 h with hc | hc
  · exact List.mem_append_left _ hc
  · split at hc
    · exact List.mem_append_right _ hc
    · cases hc

theorem mem_parts_of_mem_inSight {c : Expr} (h : c ∈ inSight e) : c ∈ e.parts := by
  have hnext : c ∈ Scope.lvalues.next e := mem_inward_of_mem_inSight h
  exact mem_parts_of_mem_next hnext

def Absent (old e : Expr) : Prop := ¬ Scope.lvalues.Leads e old

theorem Absent.not_sees (h : Absent old e) : ¬ Sees e old := by
  intro hsees
  refine h ?_
  clear h
  induction hsees with
  | refl e => exact .refl e
  | next mem _ ih => exact .next (mem_inward_of_mem_inSight mem) ih

def enclosing (e inside : Expr) : Expr :=
  match e.shape with
  | .moment m _ kind => .of (.moment m inside kind)
  | .frame _ id => .of (.frame inside id)
  | _ => e

def admits (e inside : Expr) : Bool :=
  match e.shape with
  | .frame .. => !inside.isFrame
  | _ => inside.isLvalueTarget

def refusal (e inside : Expr) : Fault :=
  match e.shape with
  | .frame .. => .nestedFrame
  | _ => .notLvalue inside

theorem reclose_eq (he : e.Obtainable) (hopened : isOpened e = true) (i : Expr) :
    reclose e i = if admits e i then .ok (enclosing e i) else .error (refusal e i) := by
  have hmake := he.standing.leaf
  obtain ⟨d, s⟩ := e
  cases s with
  | moment m t kind =>
    have hkind : Expr.checkValueKind kind = .ok () := Expr.checkValueKind_of_bind (hmake rfl)
    change Expr.moment m i kind = _
    unfold Expr.moment
    rw [hkind]
    unfold Expr.checkLvalueTarget
    cases hi : i.isLvalueTarget <;> simp [admits, enclosing, refusal, hi, bind, Except.bind, pure, Except.pure]
  | frame inner id =>
    change Expr.frame i id = _
    unfold Expr.frame
    cases hi : i.isFrame <;> simp [admits, enclosing, refusal, hi]
  | _ => cases hopened

theorem reclose_self (he : e.Obtainable) (hopened : isOpened e = true) (hi : i ∈ e.hidden) :
    reclose e i = .ok e := by
  have hmake := he.standing.leaf
  obtain ⟨d, s⟩ := e
  cases s with
  | moment m t kind =>
    cases List.mem_singleton.1 hi
    exact hmake rfl
  | frame inner id =>
    cases List.mem_singleton.1 hi
    exact hmake rfl
  | _ => cases hopened

theorem encloses_hidden (he : e.Obtainable) (hopened : isOpened e = true) (hi : i ∈ e.hidden) :
    admits e i = true ∧ enclosing e i = e := by
  have hself := reclose_self he hopened hi
  rw [reclose_eq he hopened] at hself
  split at hself
  · exact ⟨‹_›, Except.ok.inj hself⟩
  · cases hself

theorem stepGives_unseen (old new : Expr) :
    StepGives .ending (fun _ => False) .all .keep (enterer .all .keep (replacing old new))
      (fun e => e.Obtainable ∧ (¬ Sees e old ∨ new = old)) fun e r => r = some e := by
  have next {e c : Expr} (h : ¬ Sees e old ∨ new = old) (hc : c ∈ inSight e) : ¬ Sees c old ∨ new = old :=
    h.imp_left fun hunseen hsees => hunseen (.next hc hsees)
  refine stepGives_enterer_ending fun n hends => stepGives_unchanged ?_ ?_
  · rintro e ⟨he, hn⟩ c hc
    have hsize := Expr.sizeOf_lt_of_mem_children hc
    exact ⟨⟨he.1.part (Expr.mem_parts_of_mem_children hc), next he.2 (List.mem_append_left _ hc)⟩, by omega⟩
  rintro e ⟨he, hn⟩
  by_cases hold : e = old
  · rcases he.2 with hunseen | hsame
    · exact absurd (hold ▸ .refl e) hunseen
    · subst hold
      exact gives_of_answer replacing_old (congrArg some hsame)
  cases hopened : isOpened e with
  | false => exact gives_of_answer (replacing_closed hold hopened) rfl
  | true =>
    obtain ⟨i, hi⟩ := exists_hidden_of_isOpened hopened
    have hsize := Expr.sizeOf_lt_of_mem_hidden hi
    have hentered := hends i (by omega) ⟨he.1.part (Expr.mem_parts_of_mem_hidden hi),
      next he.2 (mem_inSight_of_mem_hidden hopened hi)⟩
    refine gives_of_enter (replacing_opened hold hopened hi) hentered fun r hr => ?_
    rw [hr, Option.getD_some, reclose_self he.1 hopened hi]
    rfl

theorem mapEntering_unseen (new : Expr) (he : e.Obtainable) (h : ¬ Sees e old ∨ new = old) :
    mapEntering .all .keep (replacing old new) e = some (.ok (some e)) := by
  obtain ⟨r, hr, rfl⟩ := Guarantee.exists_of_ending ((stepGives_unseen old new).map ⟨he, h⟩)
  rwa [run_map_enterer] at hr

theorem gives_of_unseen {q : Fault → Prop} {value : Expr} (hvalue : value.Obtainable) (hne : e ≠ old)
    (hunseen : isOpened value = true → ¬ Sees value old) :
    (Guarantee.ending.throwing q).Gives ((enterer .all .keep (replacing old new)).map value e)
      fun r => r = some value := by
  cases hopened : isOpened value with
  | false => exact gives_of_answer (replacing_closed hne hopened) rfl
  | true =>
    obtain ⟨i, hi⟩ := exists_hidden_of_isOpened hopened
    have hinside : ¬ Sees i old :=
      fun hsees => hunseen hopened (.next (mem_inSight_of_mem_hidden hopened hi) hsees)
    have hentered := mapEntering_unseen new (hvalue.part (Expr.mem_parts_of_mem_hidden hi)) (.inl hinside)
    refine gives_of_enter (s := fun r => r = some i) (replacing_opened hne hopened hi) ⟨_, hentered, rfl⟩ ?_
    rintro r rfl
    rw [Option.getD_some, reclose_self hvalue hopened hi]
    rfl

end Absence

section Exchange

variable {m : Type → Type} [Monad m] [LawfulMonad m] {G : Guarantee m} {q : Fault → Prop} {policy : Policy}
  {f : Mapper m} {K L Q : Expr → Prop} {X : Expr → Expr → Prop} {cs : List Expr}

/-- There is a result, which keeps to the kind of the node, can be built and has the property. -/
def Exchanged (K : Expr → Prop) (X : Expr → Expr → Prop) (e : Expr) (r : Option Expr) : Prop :=
  ∃ e', r = some e' ∧ Kin K e e' ∧ e'.Obtainable ∧ X e e'

theorem exists_rebuilt_renewed (policy : Policy) (he : e.Obtainable)
    (h : Expr.Rebuildable L e cs) (hcs : ∀ c ∈ cs, c.Obtainable) :
    ∃ value, rebuilt policy e cs = .ok (some value) ∧ value.Obtainable ∧ Renewed L e cs value := by
  by_cases hsame : cs = e.children
  · exact ⟨e, by rw [hsame, rebuilt_self], he, .same hsame⟩
  · obtain ⟨value, hvalue, hobtainable, hrenewed⟩ := he.exists_renewed h hcs hsame
    exact ⟨value, by rw [rebuilt, if_neg hsame, hvalue]; rfl, hobtainable, hrenewed⟩

/-- A mapping that exchanges locations never loses a node: what is left to show is what the mapper makes of a
node that was rebuilt. -/
theorem stepGives_exchange (incoming : Incoming K L) (hobtainable : ∀ e, Q e → e.Obtainable)
    (hchild : ∀ e, Q e → ∀ c ∈ e.children, Q c) (hkept : policy = .keep → ∀ e, Q e → X e e)
    (hanswered : ∀ e cs value, Q e → List.Forall₂ (Kin K) e.children cs → List.Forall₂ X e.children cs →
      value.Obtainable → Renewed L e cs value →
      (G.throwing q).Gives (f.map value e) (Exchanged K X e)) :
    StepGives G q .all policy f Q (Exchanged K X) := by
  have rebuilt {e : Expr} {cs : List Expr} (he : Q e) (hcs : Over (Exchanged K X) e cs) :
      List.Forall₂ (Kin K) e.children cs ∧ List.Forall₂ X e.children cs ∧
      ∃ value, rebuilt policy e cs = .ok (some value) ∧ value.Obtainable ∧ Renewed L e cs value := by
    have hcs : List.Forall₂ (fun c c' => Kin K c c' ∧ c'.Obtainable ∧ X c c') e.children cs := by
      refine hcs.imp fun c c' hc => ?_
      obtain ⟨_, hsome, hc⟩ := hc
      cases hsome
      exact hc
    have hkin : List.Forall₂ (Kin K) e.children cs := hcs.imp fun _ _ hc => hc.1
    have hrebuildable := (hobtainable e he).rebuildable (hkin.imp fun _ _ hc => hc.kindred incoming)
    refine ⟨hkin, hcs.imp fun _ _ hc => hc.2.2, exists_rebuilt_renewed policy (hobtainable e he) hrebuildable ?_⟩
    exact forall_mem_of_forall₂ (fun _ _ hc => hc.2.1) hcs
  constructor
  case child => exact hchild
  case kept => exact fun hkeep e he _ => ⟨e, rfl, .self, hobtainable e he, hkept hkeep e he⟩
  case lost =>
    rintro e _ c _ ⟨_, hnone, -⟩
    cases hnone
  case rebuilt =>
    intro e cs he hcs
    obtain ⟨hkin, hX, value, hvalue, hbuilt, hrenewed⟩ := rebuilt he hcs
    rw [hvalue]
    exact ⟨(fun hnone => by cases hnone), fun _ _ hout => by cases hout⟩
  case answered =>
    intro e cs value he _ hcs hvalue
    obtain ⟨hkin, hX, value', hvalue', hbuilt, hrenewed⟩ := rebuilt he hcs
    rw [hvalue] at hvalue'
    cases hvalue'
    refine (G.throwing q).imp (hanswered e cs value he hkin hX hbuilt hrenewed) ?_
    rintro r ⟨e', rfl, hresult⟩
    exact ⟨e', rfl, hresult⟩

end Exchange

section Replacement

inductive BelowFields (w : Expr) : Expr → Prop
  | step {x : Expr} (base : w.fieldBase? = some x) : BelowFields w x
  | next {x y : Expr} (below : BelowFields w x) (base : x.fieldBase? = some y) : BelowFields w y

theorem BelowFields.exists_fieldBase? {w x : Expr} (h : BelowFields w x) :
    ∃ y, w.fieldBase? = some y ∧ (x = y ∨ BelowFields y x) := by
  induction h with
  | step base => exact ⟨_, base, .inl rfl⟩
  | next _ base ih =>
    obtain ⟨y, hy, rfl | hbelow⟩ := ih
    · exact ⟨_, hy, .inr (.step base)⟩
    · exact ⟨y, hy, .inr (.next hbelow base)⟩

structure Suits (old w : Expr) : Prop where
  obtainable : w.Obtainable
  location : w.isLvalueTarget = true
  apart : ∀ x, BelowFields w x → isOpened x = true → Absent old x

variable {w : Expr}

theorem location_of_fieldBase? {x y : Expr} (hx : x.Obtainable) (h : x.fieldBase? = some y) :
    y.Obtainable ∧ y.isLvalueTarget = true := by
  have haccepts := hx.standing.accepts
  obtain ⟨d, s⟩ := x
  cases s with
  | access step t =>
    cases step with
    | field | container =>
      cases h
      exact ⟨hx.part List.mem_cons_self, haccepts⟩
    | _ => cases h
  | _ => cases h

theorem BelowFields.location {x : Expr} (h : BelowFields w x) (hw : w.Obtainable) :
    x.Obtainable ∧ x.isLvalueTarget = true := by
  induction h with
  | step base => exact location_of_fieldBase? hw base
  | next _ base ih => exact location_of_fieldBase? ih.1 base

theorem Suits.incoming (h : Suits old w) : Incoming (fun x => x = w ∨ BelowFields w x) (BelowFields w) where
  target x hx := by
    rcases hx with rfl | hx
    · exact h.location
    · exact (hx.location h.obtainable).2
  left x hx := .inr hx
  base x y hx hbase := by
    rcases hx with rfl | hx
    · exact .step hbase
    · exact .next hx hbase

theorem isOpened_of_sameOperator {value : Expr} (h : e.shape.SameOperator value.shape) :
    isOpened value = false := by
  unfold isOpened
  generalize e.shape = s, value.shape = s' at h ⊢
  cases h <;> rfl

/-- A replacement leaves a rebuilt node as it is. -/
theorem gives_of_renewed (hw : Suits old w) {cs : List Expr} {value : Expr} (hvalue : value.Obtainable)
    (he : isOpened e = false) (hrenewed : Renewed (BelowFields w) e cs value) (hne : e ≠ old) :
    (Guarantee.ending.throwing fun _ => False).Gives ((enterer .all .keep (replacing old w)).map value e)
      fun r => r = some value := by
  refine gives_of_unseen hvalue hne fun hopened => ?_
  cases hrenewed with
  | same =>
    rw [he] at hopened
    cases hopened
  | node kind =>
    rw [isOpened_of_sameOperator kind] at hopened
    cases hopened
  | left _ left => exact (hw.apart value left hopened).not_sees

/-- What can be built and holds nothing that a replacement looks into. Given `R`, it reads only locations and
fixed addresses. -/
structure Plain (R : Prop) (e : Expr) : Prop where
  obtainable : e.Obtainable
  unopened : ∀ a, e.Reaches a → isOpened a = false
  readable : R → e.Readable

theorem Plain.child {R : Prop} {c : Expr} (h : Plain R e) (hc : c ∈ e.children) : Plain R c where
  obtainable := h.obtainable.part (Expr.mem_parts_of_mem_children hc)
  unopened a ha := h.unopened a (.child hc ha)
  readable hR := (h.readable hR).child hc

theorem stepGives_replace (hw : Suits old w) (hold : old.isLvalueTarget = true) {R : Prop}
    (hread : R → w.Readable) :
    StepGives .ending (fun _ => False) .all .keep (enterer .all .keep (replacing old w)) (Plain R)
      (Exchanged (fun x => x = w ∨ BelowFields w x) fun _ e' => R → e'.Readable) := by
  refine stepGives_exchange hw.incoming (fun e he => he.obtainable) (fun e he c hc => he.child hc)
    (fun _ e he => he.readable) fun e cs value he hkin hcs hvalue h => ?_
  by_cases heq : e = old
  · subst heq
    exact gives_of_answer replacing_old ⟨w, rfl, .came hold (.inl rfl), hw.obtainable, hread⟩
  · refine Guarantee.imp _ (gives_of_renewed hw hvalue (he.unopened e (.refl e)) h heq) ?_
    rintro r rfl
    refine ⟨value, rfl, h.kin hw.incoming, hvalue, fun hR => ?_⟩
    exact h.readable hw.incoming hkin (he.readable hR) (forall_mem_of_forall₂ (fun _ _ hc => hc hR) hcs)

/-- A location that suits can be put in the place of another throughout a formula in which nothing has to be
looked into. Only locations and fixed addresses are read afterwards if it was so before, in the formula and in
what came in. -/
theorem exists_replaceFormula (hw : Suits old w) (hold : old.isLvalueTarget = true) {f : Formula}
    (hbuilt : ∀ e ∈ f.terms, e.Obtainable) (hopened : ∀ e ∈ f.terms, ∀ a, e.Reaches a → isOpened a = false) :
    ∃ g, replaceFormula old w f = .ok g ∧ (∀ e ∈ g.terms, e.Obtainable) ∧
      (w.Readable → (∀ e ∈ f.terms, e.Readable) → ∀ e ∈ g.terms, e.Readable) := by
  let R := w.Readable ∧ ∀ e ∈ f.terms, e.Readable
  have step := stepGives_replace hw hold (R := R) fun hR => hR.1
  have layer := Formula.layerGives_terms (q := fun _ => False) (Q := Plain R) (U := fun _ => True)
    (p := fun e => e.Obtainable ∧ (R → e.Readable))
    (P := Exchanged (fun x => x = w ∨ BelowFields w x) fun _ e' => R → e'.Readable) ?_ ?_
  · have hf : ∀ e ∈ f.terms, Plain R e := fun e he => ⟨hbuilt e he, hopened e he, fun hR => hR.2 e he⟩
    obtain ⟨r, hr, -, g, rfl, hg⟩ := Guarantee.exists_of_ending (step.mapFormula layer hf)
    refine ⟨g, ?_, fun e he => (hg e he).1, fun hw hf e he => (hg e he).2 ⟨hw, hf⟩⟩
    rw [replaceFormula, mapFormulaEntering, hr]
    rfl
  · rintro e width a hshape ⟨hbuilt, hreadable⟩
    have ha : a ∈ e.children := Expr.mem_children_of_unary hshape
    exact ⟨hbuilt.part (Expr.mem_parts_of_mem_children ha), fun hR => (hreadable hR).child ha⟩
  · rintro e r - ⟨e', rfl, -, hbuilt, hreadable⟩
    exact ⟨trivial, e', rfl, hbuilt, hreadable⟩

end Replacement

section Endlessness

-- What `Suits` asks of the new location beyond being one: a location that is found from an exit value of what
-- it stands for is replaced inside itself, and there again.

variable (v : Variable) (f : Field)

def pointee : Expr := .of (.access .deref (.var v))

def member : Expr := .of (.access (.field f) (pointee v))

def aroundExit : Expr := .of (.access (.container f) (.of (.moment .exit (member v f) none)))

theorem rebuilt_field_container (policy : Policy) {t inner : Expr} (hne : Expr.of (.access (.container f) inner) ≠ t) :
    rebuilt policy (.of (.access (.field f) t)) [.of (.access (.container f) inner)] = .ok (some inner) := by
  have hchanged : [Expr.of (.access (.container f) inner)] ≠ (Expr.of (.access (.field f) t)).children :=
    fun heq => hne (List.cons.inj heq).1
  have hfield : Expr.field (.of (.access (.container f) inner)) f =
      .ok (if f = f then inner else .of (.access (.field f) (.of (.access (.container f) inner)))) := rfl
  rw [if_pos rfl] at hfield
  have hrebuild : (Expr.of (.access (.field f) t)).rebuild? [.of (.access (.container f) inner)] =
      (Expr.field (.of (.access (.container f) inner)) f).map some := rfl
  rw [rebuilt, if_neg hchanged, hrebuild, hfield]
  rfl

theorem applied_old : applied .keep (entering (replacing old new) again) old old = pure (some new) := by
  rw [applied, entering_of_answer replacing_old]
  rfl

theorem applied_other (hne : e ≠ old) (hclosed : isOpened e = false) :
    applied .keep (entering (replacing old new) again) e e = pure (some e) := by
  rw [applied, entering_of_answer (replacing_closed hne hclosed)]
  rfl

/-- To replace the object of the field, the field has to be mapped first. -/
theorem mapExpr_member (again : Expr → Option (Except Fault (Option Expr))) (hagain : again (member v f) = none) :
    (mapExpr .all .keep (entering (replacing (pointee v) (aroundExit v f)) again) (member v f)).run [] =
      ExceptT.mk none := by
  have hobject : (mapExpr .all .keep (entering (replacing (pointee v) (aroundExit v f)) again) (pointee v)).run [] =
      pure (some (aroundExit v f), [(pointee v, some (aroundExit v f)), (.var v, some (.var v))]) :=
    run_mapExpr_single rfl rfl (applied_other (of_ne_of (by simp)) rfl) (rebuilt_self .keep (pointee v)) applied_old
  have hchildren : (mapEach (mapChild .all .keep (entering (replacing (pointee v) (aroundExit v f)) again))
      (member v f).children).run [] = pure (some [aroundExit v f],
        [(pointee v, some (aroundExit v f)), (.var v, some (.var v))]) := run_mapEach_single hobject
  have hne : member v f ≠ pointee v := of_ne_of (by simp)
  have happlied : applied .keep (entering (replacing (pointee v) (aroundExit v f)) again)
      (.of (.moment .exit (member v f) none)) (member v f) = ExceptT.mk none := by
    rw [applied, entering_of_enter (replacing_opened hne rfl (List.mem_singleton_self (member v f))), hagain]
    rfl
  rw [run_mapExpr_applied rfl hchildren (rebuilt_field_container f .keep (of_ne_of (by simp))), happlied]
  rfl

theorem mapEntering_member : mapEntering .all .keep (replacing (pointee v) (aroundExit v f)) (member v f) = none := by
  have hnever := mapEntering.partial_correctness .all .keep (replacing (pointee v) (aroundExit v f))
    (fun e _ => e ≠ member v f) fun again ih e r hr he => by
      subst he
      have hagain : again (member v f) = none :=
        Option.eq_none_iff_forall_ne_some.2 fun r hr => ih _ r hr rfl
      rw [map, StateT.run'_eq, mapExpr_member v f again hagain] at hr
      cases hr
  exact Option.eq_none_iff_forall_ne_some.2 fun r hr => hnever _ r hr rfl

/-- The exit value that is left is of a field of what is replaced, so the replacement is never done. -/
theorem replaceFormula_endless (d : Digest) :
    replaceFormula (pointee v) (aroundExit v f) (.node d (.nonzero (member v f))) = .error .endless := by
  rw [replaceFormula, mapFormulaEntering, mapFormula, mapFormulaMemo, StateT.run'_eq, StateT.run_bind, enterer,
    mapExpr_member v f _ (mapEntering_member v f)]
  rfl

theorem obtainable_member : (member v f).Obtainable :=
  .make (s := .access (.field f) (pointee v)) (List.forall_mem_singleton.2 (obtainable_deref_var v)) rfl

theorem obtainable_aroundExit : (aroundExit v f).Obtainable := by
  have hexit : (Expr.of (.moment .exit (member v f) none)).Obtainable :=
    .make (s := .moment .exit (member v f) none) (List.forall_mem_singleton.2 (obtainable_member v f)) rfl
  exact .make (s := .access (.container f) _) (List.forall_mem_singleton.2 hexit) rfl

end Endlessness

section Results

theorem obtainable_of_reclose {e' : Expr} (he : e.Obtainable) (hi : i.Obtainable) (h : reclose e i = .ok e') :
    e'.Obtainable := by
  unfold reclose at h
  split at h
  · rename_i inner id _
    exact .make (s := .frame i id) (List.forall_mem_singleton.2 hi) h
  · exact he.replaceTarget hi h

inductive ReplacementFault : Fault → Prop
  | endless : ReplacementFault .endless
  | refused {e i : Expr} (opened : isOpened e = true) (refuses : admits e i = false) : ReplacementFault (refusal e i)

theorem reclose_outcome (he : e.Obtainable) (hopened : isOpened e = true) (hi : i.Obtainable) :
    Guarantee.Outcome Expr.Obtainable ReplacementFault (reclose e i) := by
  cases hmade : reclose e i with
  | ok e' => exact obtainable_of_reclose he hi hmade
  | error fault =>
    rw [reclose_eq he hopened] at hmade
    split at hmade
    · cases hmade
    · rename_i hrefuses
      cases hmade
      exact .refused hopened (by simpa using hrefuses)

theorem obtainable_getD {r : Option Expr} (he : e.Obtainable) (hr : Completes .keep r) : (r.getD e).Obtainable := by
  cases r with
  | none => exact he
  | some e' => exact hr.1 e' rfl

theorem stepGives_replacing (old : Expr) (hnew : new.Obtainable) :
    StepGives (.returned Option) ReplacementFault .all .keep (enterer .all .keep (replacing old new)) Expr.Obtainable
      fun _ => Completes .keep := by
  refine stepGives_enterer fun again hagain => stepGives_completes (fun value node hvalue _ => ?_) .all .keep
  have hsome (e : Expr) (he : e.Obtainable) : ∀ e' ∈ some e, e'.Obtainable := by
    intro e' he'
    cases he'
    exact he
  by_cases hold : node = old
  · subst hold
    exact gives_of_answer replacing_old (hsome new hnew)
  cases hopened : isOpened value with
  | false => exact gives_of_answer (replacing_closed hold hopened) (hsome value hvalue)
  | true =>
    obtain ⟨i, hi⟩ := exists_hidden_of_isOpened hopened
    have hpart := hvalue.part (Expr.mem_parts_of_mem_hidden hi)
    refine gives_of_enter (replacing_opened hold hopened hi) (hagain i hpart) fun r hr => ?_
    exact (reclose_outcome hvalue hopened (obtainable_getD hpart hr)).map hsome

theorem replaceFormula_built (old : Expr) (hnew : new.Obtainable) {f : Formula} (hf : ∀ e ∈ f.terms, e.Obtainable) :
    Guarantee.Outcome (fun g : Formula => ∀ e ∈ g.terms, e.Obtainable) ReplacementFault (replaceFormula old new f) := by
  have layer := Formula.layerGives_terms (q := ReplacementFault) (Q := Expr.Obtainable) (U := fun _ => True)
    (p := Expr.Obtainable) (P := fun _ => Completes .keep) ?_ ?_
  · refine (outcome_concluded .endless ((stepGives_replacing old hnew).mapFormula layer hf)).map fun r hr => ?_
    obtain ⟨-, g, rfl, hg⟩ := hr
    exact hg
  · exact fun e w a hshape he => he.part (Expr.mem_parts_of_mem_children (Expr.mem_children_of_unary hshape))
  · intro e r _ hr
    cases r with
    | none => cases hr.2 rfl
    | some e' => exact ⟨trivial, e', rfl, hr.1 e' rfl⟩

theorem obtainable_of_replaceFormula {f g : Formula} (hnew : new.Obtainable) (hf : ∀ e ∈ f.terms, e.Obtainable)
    (h : replaceFormula old new f = .ok g) : ∀ e ∈ g.terms, e.Obtainable := by
  have hbuilt := replaceFormula_built old hnew hf
  rw [h] at hbuilt
  exact hbuilt

end Results

end Walk
end Retrace
