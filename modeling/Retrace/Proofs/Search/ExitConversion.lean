import Retrace.Proofs.Meaning.Rewriting
import Retrace.Proofs.Search.Placeholders
import Retrace.Proofs.Walk.Simultaneous
import Retrace.Search.ExitValues

/-!
Exit values and clobbers as plain reads. One that is about the contents of a location becomes a read of it, which can
stand wherever it stood. One that is about a buffer at the location becomes the fact about the buffer, which nothing
can be based on and which cannot be read. Whether there is a result depends on nothing else, and no exit values and
clobbers are left in it.
-/

set_option autoImplicit false

namespace Retrace.Search

open Retrace.Expr (Akin Kindred)
open Walk (StepGives resettled)

variable {e t i : Expr} {kind : Option Expr} {f g : Formula} {cs : List Expr}

section Reads

inductive ReadAtExit (e t : Expr) (kind : Option Expr) : Prop
  | exit (shape : e.shape = .moment .exit t kind)
  | clobber {callee : Expr} {point : Nat} (shape : e.shape = .clobber callee kind t point)

theorem exitRead?_eq_some_iff : exitRead? e = some (t, kind) ↔ ReadAtExit e t kind := by
  constructor
  · intro h
    unfold exitRead? at h
    split at h <;> cases h
    · exact .exit ‹_›
    · exact .clobber ‹_›
  · intro h
    cases h with
    | exit shape => rw [exitRead?, shape]
    | clobber shape => rw [exitRead?, shape]

namespace ReadAtExit

variable (h : ReadAtExit e t kind)
include h

theorem children_eq : e.children = [] := by
  cases h with
  | exit shape => rw [Expr.children, shape]; rfl
  | clobber shape => rw [Expr.children, shape]; rfl

theorem hidden_eq : e.hidden = [t] := by
  cases h with
  | exit shape => rw [Expr.hidden, shape]; rfl
  | clobber shape => rw [Expr.hidden, shape]; rfl

theorem hidden_ne_nil : e.hidden ≠ [] := by
  rw [h.hidden_eq]
  exact List.cons_ne_nil t []

theorem unique {t' : Expr} {kind' : Option Expr} (h' : ReadAtExit e t' kind') : t = t' ∧ kind = kind' :=
  Prod.mk.inj (Option.some.inj ((exitRead?_eq_some_iff.2 h).symm.trans (exitRead?_eq_some_iff.2 h')))

theorem mem_parts_kind {k : Expr} (hk : k ∈ kind) : k ∈ e.parts := by
  cases h with
  | exit shape => rw [Expr.parts, shape]; simp_all [Shape.parts]
  | clobber shape => rw [Expr.parts, shape]; simp_all [Shape.parts]

/-- The factories have seen to it that the location is one, and that only facts about buffers are meant. -/
theorem checked (he : e.Obtainable) : t.isLvalueTarget = true ∧ ∀ k ∈ kind, k.isValueKind = true := by
  have hmade := he.standing.leaf h.children_eq
  cases h with
  | exit shape =>
    rw [shape] at hmade
    exact ⟨Expr.checkLvalueTarget_of_bind (Expr.checkValueKind_bind hmade), Expr.isValueKind_of_bind hmade⟩
  | clobber shape =>
    rw [shape, Shape.make, Expr.clobber] at hmade
    split at hmade
    · cases hmade
    · exact ⟨Expr.checkLvalueTarget_of_bind (Expr.checkValueKind_bind hmade), Expr.isValueKind_of_bind hmade⟩

end ReadAtExit

def ExitFree (e : Expr) : Prop := ∀ a, e.Reaches a → ∀ t kind, ¬ ReadAtExit a t kind

theorem ExitFree.child {c : Expr} (h : ExitFree e) (hc : c ∈ e.children) : ExitFree c :=
  fun a ha => h a (.child hc ha)

theorem exitFree_of_children (here : e.hidden = []) (hcs : ∀ c ∈ e.children, ExitFree c) : ExitFree e := by
  intro a ha t kind hread
  cases ha with
  | refl => exact hread.hidden_ne_nil here
  | child mem reaches => exact hcs _ mem a reaches t kind hread

theorem exitFree_of_rebuilt {value : Expr} (here : ∀ t kind, ¬ ReadAtExit e t kind) (hcs : ∀ c ∈ cs, ExitFree c)
    (h : Walk.rebuilt .drop e cs = .ok (some value)) : ExitFree value := by
  refine Walk.forall_reaches_rebuilt h here (fun s kind' t kind hread => ?_) (fun v t kind hread => ?_) hcs
  · exact hread.hidden_ne_nil kind'.hidden_eq
  · exact hread.hidden_ne_nil rfl

end Reads

section Facts

def IsFact (e : Expr) : Prop := ∃ t k, ReadAtExit e t (some k)

/-- The nodes that can be come to from child to child and into exit values and clobbers. -/
inductive Involves : Expr → Expr → Prop
  | refl (e : Expr) : Involves e e
  | child {e c a : Expr} (mem : c ∈ e.children) (involves : Involves c a) : Involves e a
  | location {e t a : Expr} {kind : Option Expr} (read : ReadAtExit e t kind) (involves : Involves t a) : Involves e a

def BasedOnFact (e : Expr) : Prop :=
  ∃ t, IsFact t ∧ ((∃ step, e.shape = .access step t) ∨ ∃ element i, e.shape = .index t element i)

def ReadsFact (e : Expr) : Prop := ∃ t, IsFact t ∧ ReadAtExit e t none

def WellBased (e : Expr) : Prop := ∀ a, Involves e a → ¬ BasedOnFact a ∧ ¬ ReadsFact a

theorem Involves.trans {a b : Expr} (h : Involves e a) (h' : Involves a b) : Involves e b := by
  induction h with
  | refl => exact h'
  | child mem _ ih => exact .child mem (ih h')
  | location read _ ih => exact .location read (ih h')

theorem wellBased_of_children (hread : ∀ t kind, ¬ ReadAtExit e t kind) (here : ¬ BasedOnFact e)
    (hcs : ∀ c ∈ e.children, WellBased c) : WellBased e := by
  intro a ha
  cases ha with
  | refl =>
    refine ⟨here, ?_⟩
    rintro ⟨t, -, hreads⟩
    exact hread t none hreads
  | child mem involves => exact hcs _ mem a involves
  | location read => exact absurd read (hread _ _)

theorem wellBased_of_not_isFact (h : ∀ a, Involves e a → ¬ IsFact a) : WellBased e := by
  refine fun a ha => ⟨?_, ?_⟩
  · rintro ⟨t, hfact, ht⟩
    have hchild : t ∈ a.children := by
      rcases ht with ⟨step, hshape⟩ | ⟨element, j, hshape⟩ <;> simp [Expr.children, hshape, Shape.children]
    exact h t (ha.trans (.child hchild (.refl t))) hfact
  · rintro ⟨t, hfact, hread⟩
    exact h t (ha.trans (.location hread (.refl t))) hfact

theorem basedOnFact_iff (ht : (∃ step, e.shape = .access step t) ∨ ∃ element i, e.shape = .index t element i) :
    BasedOnFact e ↔ IsFact t := by
  refine ⟨?_, fun hfact => ⟨t, hfact, ht⟩⟩
  rintro ⟨t', hfact, hshape⟩
  have heq : t = t' := by
    rcases ht with ⟨step, ht⟩ | ⟨element, i, ht⟩ <;> simp only [ht] at hshape <;> simp_all
  exact heq ▸ hfact

theorem not_basedOnFact_of_leaf (h : e.children = []) : ¬ BasedOnFact e := by
  rintro ⟨t, -, ⟨step, hshape⟩ | ⟨element, i, hshape⟩⟩ <;> rw [Expr.children, hshape] at h <;> cases h

theorem ReadAtExit.not_isFact (h : ReadAtExit e t none) : ¬ IsFact e := by
  rintro ⟨t', k, hfact⟩
  cases (h.unique hfact).2

theorem ReadAtExit.wellBased (h : ReadAtExit e t kind) (here : kind = none → ¬ IsFact t) (ht : WellBased t) :
    WellBased e := by
  intro a ha
  cases ha with
  | refl =>
    refine ⟨not_basedOnFact_of_leaf h.children_eq, ?_⟩
    rintro ⟨t', hfact, hreads⟩
    obtain ⟨rfl, hkind⟩ := h.unique hreads
    exact here hkind hfact
  | child mem => exact absurd (h.children_eq ▸ mem) List.not_mem_nil
  | location read involves =>
    obtain ⟨rfl, -⟩ := h.unique read
    exact ht a involves

end Facts

section Conversion

theorem unsuitable_of_analysis (h : e.group = .analysis) :
    e.isLvalueTarget = false ∧ e.isDereferenceable = false := by
  obtain ⟨d, s⟩ := e
  cases s with
  | bound | terminator => exact ⟨rfl, rfl⟩
  | _ => cases h

theorem akin_of_analysis {L : Expr → Prop} {e' : Expr} (h : e'.group = .analysis) : Akin L e e' := by
  obtain ⟨d, s⟩ := e'
  cases s with
  | bound | terminator =>
    refine ⟨.inr rfl, fun w a hshape => ?_, fun step t hshape => ?_⟩ <;> cases hshape
  | _ => cases h

structure Becomes (e e' : Expr) : Prop where
  obtainable : e'.Obtainable
  free : ExitFree e'
  stands : IsFact e ∧ e'.group = .analysis ∨ ¬ IsFact e ∧ Kindred (fun _ => False) e e'

theorem Becomes.akin {e' : Expr} (h : Becomes e e') : Akin (fun _ => False) e e' := by
  rcases h.stands with ⟨-, hfact⟩ | ⟨-, hkindred⟩
  · exact akin_of_analysis hfact
  · exact hkindred.toAkin

theorem Becomes.isLvalueTarget_iff {t' : Expr} (h : Becomes t t') (ht : t.isLvalueTarget = true) :
    t'.isLvalueTarget = true ↔ ¬ IsFact t := by
  rcases h.stands with ⟨hfact, hgroup⟩ | ⟨hfact, hkindred⟩
  · simp [hfact, (unsuitable_of_analysis hgroup).1]
  · simp [hfact, hkindred.target ht]

theorem Becomes.isDereferenceable_iff {t' : Expr} (h : Becomes t t') (ht : t.isDereferenceable = true) :
    t'.isDereferenceable = true ↔ ¬ IsFact t := by
  rcases h.stands with ⟨hfact, hgroup⟩ | ⟨hfact, hkindred⟩
  · simp [hfact, (unsuitable_of_analysis hgroup).2]
  · simp [hfact, hkindred.pointer ht]

theorem acceptsTarget_iff (he : e.Obtainable) (hcs : List.Forall₂ Becomes e.children cs) :
    e.acceptsTarget cs = true ↔ ¬ BasedOnFact e := by
  have haccepts := he.standing.accepts
  have hbased (t : Expr) := basedOnFact_iff (e := e) (t := t)
  obtain ⟨d, s⟩ := e
  cases s with
  | access step t =>
    rw [hbased t (.inl ⟨step, rfl⟩)]
    cases hcs with
    | cons first rest =>
      cases step with
      | deref => exact first.isDereferenceable_iff haccepts
      | _ => exact first.isLvalueTarget_iff haccepts
  | index t element j =>
    rw [hbased t (.inr ⟨element, j, rfl⟩)]
    cases hcs with
    | cons first rest => exact first.isLvalueTarget_iff haccepts
  | _ =>
    refine iff_of_true rfl ?_
    rintro ⟨t, -, ⟨step, hshape⟩ | ⟨element, i, hshape⟩⟩ <;> cases hshape

theorem becomes_resettled (he : e.Obtainable) (hread : ∀ t kind, ¬ ReadAtExit e t kind)
    (hcs : List.Forall₂ Becomes e.children cs) (hbased : ¬ BasedOnFact e) : Becomes e (resettled e cs) := by
  have hbuilt : ∀ c ∈ cs, c.Obtainable := Walk.forall_mem_of_forall₂ (fun _ _ hc => hc.obtainable) hcs
  have hfree : ∀ c ∈ cs, ExitFree c := Walk.forall_mem_of_forall₂ (fun _ _ hc => hc.free) hcs
  have haccepts := (acceptsTarget_iff he hcs).2 hbased
  have hvalue : Walk.rebuilt .drop e cs = .ok (some (resettled e cs)) := by
    rw [Walk.rebuilt_drop_eq he hcs.length_eq.symm, if_pos haccepts]
  have hrenewed := Walk.renewed_resettled he ⟨hcs.imp fun _ _ hc => hc.akin, haccepts⟩ hbuilt
  refine ⟨Walk.obtainable_resettled he hcs.length_eq.symm hbuilt, exitFree_of_rebuilt hread hfree hvalue, .inr ⟨?_, ?_⟩⟩
  · rintro ⟨t, k, hfact⟩
    exact hread t (some k) hfact
  · exact hrenewed.kindred fun _ left => left.elim

theorem exists_replaceTarget {k : Expr} (hk : k.Obtainable) (hkind : k.isValueKind = true) (i : Expr) :
    ∃ e', k.replaceTarget i = .ok e' ∧ e'.group = .analysis ∧ e'.hidden = [] ∧ e'.children = [i] := by
  have hsound := hk.sound
  obtain ⟨d, s⟩ := k
  cases s with
  | bound side b stride => exact ⟨_, rfl, rfl, rfl, rfl⟩
  | terminator b stride test sentinel =>
    obtain ⟨e', he'⟩ := Shape.exists_make (s := .terminator (some i) stride test sentinel) hsound rfl
      (List.cons_ne_nil _ _)
    cases Expr.terminator_eq he'
    exact ⟨_, he', rfl, rfl, rfl⟩
  | _ => cases hkind

inductive ConversionFault (e : Expr) : Fault → Prop
  | dropped (based : BasedOnFact e) : ConversionFault e .exitConversionDropped
  | unreadable {x : Expr} (reads : ReadsFact e) (fact : x.group = .analysis) : ConversionFault e (.notDereferenceable x)

theorem ConversionFault.not_wellBased {a : Expr} {fault : Fault} (h : ConversionFault a fault) (ha : Involves e a) :
    ¬ WellBased e := by
  intro hbased
  cases h with
  | dropped based => exact (hbased a ha).1 based
  | unreadable reads => exact (hbased a ha).2 reads

def ConvertsTo (e : Expr) : Option Expr → Prop
  | some e' => WellBased e ∧ Becomes e e'
  | none => ∃ a, Involves e a ∧ BasedOnFact a

theorem readOf_outcome {q : Fault → Prop} (hq : ∀ fault, ConversionFault e fault → q fault) (he : e.Obtainable)
    (h : ReadAtExit e t kind) (hi : ConvertsTo t (some i)) :
    Guarantee.Outcome (fun e' => ConvertsTo e (some e')) q (readOf i kind) := by
  obtain ⟨hbased, hi⟩ := hi
  obtain ⟨htarget, hkind⟩ := h.checked he
  cases kind with
  | some k =>
    have hk := he.part (h.mem_parts_kind rfl)
    obtain ⟨e', he', hgroup, hhidden, hchildren⟩ := exists_replaceTarget hk (hkind k rfl) i
    have hfree : ExitFree e' := exitFree_of_children hhidden (hchildren ▸ List.forall_mem_singleton.2 hi.free)
    rw [readOf, he']
    exact ⟨h.wellBased (by simp) hbased, hk.replaceTarget hi.obtainable he', hfree, .inl ⟨⟨t, k, h⟩, hgroup⟩⟩
  | none =>
    rw [readOf, Expr.deref]
    rcases hi.stands with ⟨hfact, hgroup⟩ | ⟨hfact, hkindred⟩
    · -- The location is a fact by now, and the read of it is refused.
      rw [(unsuitable_of_analysis hgroup).2]
      exact hq _ (.unreadable ⟨t, hfact, h⟩ hgroup)
    · have hpointer := Expr.isDereferenceable_of_isLvalueTarget (hkindred.target htarget)
      rw [if_pos hpointer]
      have hread : (Expr.of (.access .deref i)).Obtainable :=
        .make (s := .access .deref i) (List.forall_mem_singleton.2 hi.obtainable) (if_pos hpointer)
      have hstands : Kindred (fun _ => False) e (.of (.access .deref i)) :=
        Expr.kindred_of_target rfl fun _ hy => by cases hy
      exact ⟨h.wellBased (fun _ => hfact) hbased, hread,
        exitFree_of_children rfl (List.forall_mem_singleton.2 hi.free), .inr ⟨h.not_isFact, hstands⟩⟩

theorem plainReading_read {value node : Expr} (h : ReadAtExit value t kind) :
    plainReading value node = .enter t fun location => location.mapM fun i => readOf i kind := by
  simp only [plainReading, exitRead?_eq_some_iff.2 h]

theorem plainReading_free {value node : Expr} (h : ExitFree value) :
    plainReading value node = .answer (.ok (some value)) := by
  have hnone : exitRead? value = none :=
    Option.eq_none_iff_forall_ne_some.2 fun read hread =>
      h value (.refl value) read.1 read.2 (exitRead?_eq_some_iff.1 hread)
  simp only [plainReading, hnone]

theorem readAtExit_or (e : Expr) : (∃ t kind, ReadAtExit e t kind) ∨ ∀ t kind, ¬ ReadAtExit e t kind := by
  simp only [← exitRead?_eq_some_iff]
  cases exitRead? e with
  | none => exact .inr fun t kind h => by cases h
  | some read => exact .inl ⟨read.1, read.2, rfl⟩

theorem gives_of_read {T : Expr → Prop} {node : Expr} (he : e.Obtainable) (hT : T e) (hread : ReadAtExit e t kind)
    (hends : (Guarantee.ending.throwing fun fault => ∃ a, T a ∧ ConversionFault a fault).Gives
      (ExceptT.mk (Walk.mapEntering .all .drop plainReading t)) (ConvertsTo t)) :
    (Guarantee.ending.throwing fun fault => ∃ a, T a ∧ ConversionFault a fault).Gives
      ((Walk.enterer .all .drop plainReading).map e node) (ConvertsTo e) := by
  refine Walk.gives_of_enter (plainReading_read hread) hends fun r hr => ?_
  cases r with
  | none =>
    obtain ⟨a, ha, hbased⟩ := hr
    exact ⟨a, .location hread ha, hbased⟩
  | some i =>
    exact (readOf_outcome (fun _ hfault => ⟨e, hT, hfault⟩) he hread hr).map (r := ConvertsTo e) fun _ h => h

theorem stepGives_conversion (T : Expr → Prop) :
    StepGives .ending (fun fault => ∃ a, T a ∧ ConversionFault a fault) .all .drop
      (Walk.enterer .all .drop plainReading) (fun e => e.Obtainable ∧ ∀ a, Involves e a → T a) ConvertsTo := by
  refine Walk.stepGives_enterer_ending fun n hends => ?_
  constructor
  case child =>
    rintro e ⟨he, hn⟩ c hc
    have hsize := Expr.sizeOf_lt_of_mem_children hc
    exact ⟨⟨he.1.part (Expr.mem_parts_of_mem_children hc), fun a ha => he.2 a (.child hc ha)⟩, by omega⟩
  case kept => exact fun hkeep => by cases hkeep
  case lost =>
    rintro e - c hc ⟨a, ha, hbased⟩
    exact ⟨a, .child hc ha, hbased⟩
  case rebuilt =>
    rintro e cs ⟨he, -⟩ hcs
    have hcs : List.Forall₂ Becomes e.children cs := hcs.imp fun _ _ hc => hc.2
    rw [Walk.rebuilt_drop_eq he.1 hcs.length_eq.symm]
    refine ⟨fun hnone => ?_, fun _ _ hout => by cases hout⟩
    refine ⟨e, .refl e, ?_⟩
    by_contra hbased
    rw [if_pos ((acceptsTarget_iff he.1 hcs).2 hbased)] at hnone
    cases hnone
  case answered =>
    rintro e cs value ⟨he, hn⟩ - hcs hvalue
    simp only [Walk.Policy.fallback, Option.or_none]
    have hbased : ∀ c ∈ e.children, WellBased c := Walk.forall_mem_of_forall₂ (fun _ _ hc => hc.1) hcs.flip
    have hcs : List.Forall₂ Becomes e.children cs := hcs.imp fun _ _ hc => hc.2
    rcases readAtExit_or e with ⟨t, kind, hread⟩ | hnot
    · have hsame : value = e := by
        rw [hread.children_eq] at hcs
        cases hcs
        rw [← hread.children_eq, Walk.rebuilt_self] at hvalue
        exact (Option.some.inj (Except.ok.inj hvalue)).symm
      have ht : t ∈ e.hidden := hread.hidden_eq ▸ List.mem_singleton_self t
      have hsize := Expr.sizeOf_lt_of_mem_hidden ht
      rw [hsame]
      refine gives_of_read he.1 (he.2 e (.refl e)) hread (hends t (by omega) ⟨?_, fun a ha => ?_⟩)
      · exact he.1.part (Expr.mem_parts_of_mem_hidden ht)
      · exact he.2 a (.location hread ha)
    · -- A rebuilt node is never an exit value or clobber, so there is nothing to convert in it.
      rw [Walk.rebuilt_drop_eq he.1 hcs.length_eq.symm] at hvalue
      split at hvalue
      · rename_i haccepts
        cases hvalue
        have here := (acceptsTarget_iff he.1 hcs).1 haccepts
        have hbecomes := becomes_resettled he.1 hnot hcs here
        exact Walk.gives_of_answer (plainReading_free hbecomes.free)
          ⟨wellBased_of_children hnot here hbased, hbecomes⟩
      · cases hvalue

theorem plainReads_outcome (hf : ∀ e ∈ f.terms, e.Obtainable) :
    Guarantee.Outcome (fun g => (∀ e ∈ f.terms, WellBased e) ∧ ∀ e ∈ g.terms, e.Obtainable ∧ ExitFree e)
      (fun fault => ∃ a, (∃ e ∈ f.terms, Involves e a) ∧ ConversionFault a fault) (plainReads f) := by
  let T (a : Expr) : Prop := ∃ e ∈ f.terms, Involves e a
  have layer := Formula.layerGives_tests (q := fun fault => ∃ a, T a ∧ ConversionFault a fault)
    (Q := fun e => e.Obtainable ∧ ∀ a, Involves e a → T a) (U := WellBased)
    (D := fun e => ∃ a, Involves e a ∧ BasedOnFact a) (p := fun e => e.Obtainable ∧ ExitFree e) (P := ConvertsTo) ?_ ?_
  · have hterms : ∀ e ∈ f.terms, e.Obtainable ∧ ∀ a, Involves e a → T a :=
      fun e he => ⟨hf e he, fun a ha => ⟨e, he, ha⟩⟩
    have houtcome := Walk.outcome_of_ending ((stepGives_conversion T).mapFormula layer hterms)
    rw [plainReads]
    refine Guarantee.Outcome.bind houtcome fun r hr => ?_
    obtain ⟨hbased, g, rfl, hg⟩ | ⟨⟨e, he, a, ha, hbased⟩, rfl⟩ := hr
    · exact ⟨hbased, hg⟩
    · exact ⟨a, ⟨e, he, ha⟩, .dropped hbased⟩
  · rintro e w a hshape ⟨hbuilt, hfree⟩
    have ha : a ∈ e.children := Expr.mem_children_of_unary hshape
    exact ⟨hbuilt.part (Expr.mem_parts_of_mem_children ha), hfree.child ha⟩
  · intro e r _ hr
    cases r with
    | none => exact .inr ⟨hr, rfl⟩
    | some e' => exact .inl ⟨hr.1, e', rfl, hr.2.obtainable, hr.2.free⟩

theorem plainReads_decides (hf : ∀ e ∈ f.terms, e.Obtainable) :
    ((∃ g, plainReads f = .ok g) ↔ ∀ e ∈ f.terms, WellBased e) ∧
    (∀ g, plainReads f = .ok g → ∀ e ∈ g.terms, e.Obtainable ∧ ExitFree e) ∧
    ∀ fault, plainReads f = .error fault → ∃ a, (∃ e ∈ f.terms, Involves e a) ∧ ConversionFault a fault := by
  refine (plainReads_outcome hf).decides ?_
  rintro fault ⟨a, ⟨e, he, ha⟩, hwhy⟩ hbased
  exact hwhy.not_wellBased ha (hbased e he)

end Conversion

/-- Exit values and clobbers in a formula can be converted exactly if none that becomes a fact is the target of a
location or is read itself, in particular if none becomes a fact. Where one is a target a term is dropped, and where
one is read it cannot be dereferenced. -/
theorem conversion_outcomes (hf : ∀ e ∈ f.terms, e.Obtainable) :
    ((∃ g, plainReads f = .ok g) ↔ ∀ e ∈ f.terms, WellBased e) ∧
    (∀ g, plainReads f = .ok g → ∀ e ∈ g.terms, e.Obtainable) ∧
    (∀ fault, plainReads f = .error fault → ∃ a, (∃ e ∈ f.terms, Involves e a) ∧ ConversionFault a fault) ∧
    ((∀ e ∈ f.terms, ∀ a, Involves e a → ¬ IsFact a) → ∃ g, plainReads f = .ok g) := by
  obtain ⟨hiff, hbuilt, hfault⟩ := plainReads_decides hf
  refine ⟨hiff, fun g hg e he => (hbuilt g hg e he).1, hfault, fun hfacts => hiff.2 fun e he => ?_⟩
  exact wellBased_of_not_isFact (hfacts e he)

section Instances

variable (v : Variable) (fl : Field) (stride : CType)

def exitOf : Expr := .of (.moment .exit (.var v) none)

def endAtExit : Expr := .of (.moment .exit (.var v) (some (.bound .upper none stride)))

def fieldAtExit : Expr := .of (.access (.field fl) (exitOf v))

def endAfterCall (callee : Variable) : Expr :=
  .of (.clobber (.var callee) (some (.bound .upper none stride)) (fieldAtExit v fl) 7)

theorem obtainable_bound : (Expr.bound .upper none stride).Obtainable :=
  .make (s := .bound .upper none stride) (List.forall_mem_nil _) rfl

theorem obtainable_endAtExit : (endAtExit v stride).Obtainable :=
  .make (s := .moment .exit (.var v) (some (.bound .upper none stride)))
    (List.forall_mem_cons.2 ⟨Walk.obtainable_var v, List.forall_mem_singleton.2 (obtainable_bound stride)⟩) rfl

theorem obtainable_fieldAtExit : (fieldAtExit v fl).Obtainable := by
  have hexit : (exitOf v).Obtainable :=
    .make (s := .moment .exit (.var v) none) (List.forall_mem_singleton.2 (Walk.obtainable_var v)) rfl
  exact .make (s := .access (.field fl) (exitOf v)) (List.forall_mem_singleton.2 hexit) rfl

theorem obtainable_endAfterCall (callee : Variable) : (endAfterCall v fl stride callee).Obtainable :=
  .make (s := .clobber (.var callee) (some (.bound .upper none stride)) (fieldAtExit v fl) 7)
    (List.forall_mem_cons.2 ⟨Walk.obtainable_var callee, List.forall_mem_cons.2
      ⟨obtainable_bound stride, List.forall_mem_singleton.2 (obtainable_fieldAtExit v fl)⟩⟩) rfl

theorem not_readAtExit (h : e.hidden = []) (t : Expr) (kind : Option Expr) : ¬ ReadAtExit e t kind :=
  fun hread => hread.hidden_ne_nil h

theorem Involves.eq_var {a : Expr} (h : Involves (.var v) a) : a = .var v := by
  cases h with
  | refl => rfl
  | child mem => cases mem
  | location read => exact absurd read (not_readAtExit rfl _ _)

theorem wellBased_fieldAtExit : WellBased (fieldAtExit v fl) := by
  have hexit : ReadAtExit (exitOf v) (.var v) none := .exit rfl
  have hvar : WellBased (.var v) :=
    wellBased_of_children (not_readAtExit rfl) (not_basedOnFact_of_leaf rfl) (List.forall_mem_nil _)
  have hnot : ¬ IsFact (.var v) := by
    rintro ⟨t, k, hread⟩
    exact not_readAtExit rfl t _ hread
  refine wellBased_of_children (not_readAtExit rfl) ?_ (List.forall_mem_singleton.2 ?_)
  · rw [basedOnFact_iff (.inl ⟨_, rfl⟩)]
    exact hexit.not_isFact
  · exact hexit.wellBased (fun _ => hnot) hvar

theorem readAtExit_endAfterCall (callee : Variable) :
    ReadAtExit (endAfterCall v fl stride callee) (fieldAtExit v fl) (some (.bound .upper none stride)) :=
  .clobber rfl

/-- A clobber that becomes a fact, of a location based on an exit value that becomes a read. -/
theorem conversion_outcomes_of_nested :
    ∃ f : Formula, f = .of (.nonzero
        (endAfterCall (.ofLocal "x") ⟨"f", "node", .int 4 true⟩ (.int 4 true) (.ofGlobal "g"))) ∧
      (∀ e ∈ f.terms, e.Obtainable) ∧ (∀ e ∈ f.terms, IsFact e ∧ WellBased e) ∧
      ∃ g, plainReads f = .ok g ∧ ∀ e ∈ g.terms, e.Obtainable := by
  have hread := readAtExit_endAfterCall (.ofLocal "x") ⟨"f", "node", .int 4 true⟩ (.int 4 true) (.ofGlobal "g")
  have hbased := hread.wellBased (fun h => by cases h) (wellBased_fieldAtExit _ _)
  have hterms := forall_terms_test_iff.2
    (obtainable_endAfterCall (.ofLocal "x") ⟨"f", "node", .int 4 true⟩ (.int 4 true) (.ofGlobal "g"))
  obtain ⟨hiff, hbuilt, -, -⟩ := conversion_outcomes hterms
  obtain ⟨g, hg⟩ := hiff.2 (forall_terms_test_iff.2 hbased)
  exact ⟨_, rfl, hterms, forall_terms_test_iff.2 ⟨⟨_, _, hread⟩, hbased⟩, g, hg, hbuilt g hg⟩

theorem isFact_endAtExit : IsFact (endAtExit v stride) := ⟨_, _, .exit rfl⟩

theorem involves_endAtExit {a : Expr} (h : Involves (endAtExit v stride) a) :
    a = endAtExit v stride ∨ a = .var v := by
  have hread : ReadAtExit (endAtExit v stride) (.var v) (some (.bound .upper none stride)) := .exit rfl
  cases h with
  | refl => exact .inl rfl
  | child mem => cases mem
  | location read involves =>
    obtain ⟨rfl, -⟩ := hread.unique read
    exact .inr involves.eq_var

def pastEnd : Expr := .of (.access .deref (endAtExit v stride))

def exitOfEnd : Expr := .of (.moment .exit (endAtExit v stride) none)

theorem obtainable_pastEnd : (pastEnd v stride).Obtainable :=
  .make (s := .access .deref (endAtExit v stride)) (List.forall_mem_singleton.2 (obtainable_endAtExit v stride)) rfl

theorem obtainable_exitOfEnd : (exitOfEnd v stride).Obtainable :=
  .make (s := .moment .exit (endAtExit v stride) none) (List.forall_mem_singleton.2 (obtainable_endAtExit v stride)) rfl

theorem exists_conversionFault (he : e.Obtainable) (hbased : ¬ WellBased e) :
    ∃ fault a, plainReads (.of (.nonzero e)) = .error fault ∧ Involves e a ∧ ConversionFault a fault := by
  obtain ⟨hiff, -, hfault⟩ := plainReads_decides (forall_terms_test_iff.2 he)
  cases hr : plainReads (.of (.nonzero e)) with
  | ok g => exact absurd (forall_terms_test_iff.1 (hiff.1 ⟨g, hr⟩)) hbased
  | error fault =>
    obtain ⟨a, ⟨e', he', ha⟩, hwhy⟩ := hfault fault hr
    have heq : e' = e := (forall_terms_test_iff (p := (· = e))).2 rfl e' he'
    exact ⟨fault, a, rfl, heq ▸ ha, hwhy⟩

theorem plainReads_pastEnd :
    plainReads (.of (.nonzero (pastEnd v stride))) = .error .exitConversionDropped := by
  have hbased : BasedOnFact (pastEnd v stride) := ⟨_, isFact_endAtExit v stride, .inl ⟨_, rfl⟩⟩
  obtain ⟨fault, a, hfault, ha, hwhy⟩ :=
    exists_conversionFault (obtainable_pastEnd v stride) fun h => (h _ (.refl _)).1 hbased
  cases hwhy with
  | dropped => exact hfault
  | unreadable reads =>
    obtain ⟨t, -, hread⟩ := reads
    cases ha with
    | refl => exact absurd hread (not_readAtExit rfl _ _)
    | location read => exact absurd read (not_readAtExit rfl _ _)
    | child mem involves =>
      cases List.mem_singleton.1 mem
      rcases involves_endAtExit v stride involves with rfl | rfl
      · exact absurd (isFact_endAtExit v stride) hread.not_isFact
      · exact absurd hread (not_readAtExit rfl _ _)

theorem plainReads_exitOfEnd :
    ∃ x, x.group = .analysis ∧ plainReads (.of (.nonzero (exitOfEnd v stride))) = .error (.notDereferenceable x) := by
  have hread : ReadAtExit (exitOfEnd v stride) (endAtExit v stride) none := .exit rfl
  obtain ⟨fault, a, hfault, ha, hwhy⟩ := exists_conversionFault (obtainable_exitOfEnd v stride)
    fun h => (h _ (.refl _)).2 ⟨_, isFact_endAtExit v stride, hread⟩
  cases hwhy with
  | unreadable _ fact => exact ⟨_, fact, hfault⟩
  | dropped based =>
    cases ha with
    | refl => exact absurd based (not_basedOnFact_of_leaf rfl)
    | child mem => cases mem
    | location read involves =>
      obtain ⟨rfl, -⟩ := hread.unique read
      rcases involves_endAtExit v stride involves with rfl | rfl
      · exact absurd based (not_basedOnFact_of_leaf rfl)
      · exact absurd based (not_basedOnFact_of_leaf rfl)

/-- What the end of a buffer at the exit points to, and what it holds then. -/
theorem conversion_fails_on_facts :
    ∃ f g : Formula, f = .of (.nonzero (pastEnd (.ofLocal "x") (.int 4 true))) ∧
      g = .of (.nonzero (exitOfEnd (.ofLocal "x") (.int 4 true))) ∧ f.Normal ∧ g.Normal ∧
      (∀ e ∈ f.terms, e.Obtainable) ∧ (∀ e ∈ g.terms, e.Obtainable) ∧
      plainReads f = .error .exitConversionDropped ∧
      ∃ x, x.group = .analysis ∧ plainReads g = .error (.notDereferenceable x) :=
  ⟨_, _, rfl, rfl, normal_of_nonzero (by simp) (by simp), normal_of_nonzero (by simp) (by simp),
    forall_terms_test_iff.2 (obtainable_pastEnd _ _), forall_terms_test_iff.2 (obtainable_exitOfEnd _ _),
    plainReads_pastEnd _ _, plainReads_exitOfEnd _ _⟩

end Instances

section Completeness

theorem stepGives_exitFree :
    StepGives .ending (fun _ => False) .all .drop (Walk.enterer .all .drop plainReading) ExitFree
      fun e r => r = some e := by
  refine Walk.stepGives_self (fun e he c hc => he.child hc) fun e he => ?_
  exact Walk.entering_of_answer (plainReading_free he)

theorem plainReads_self (hf : f.Normal) (hfree : ∀ e ∈ f.terms, ExitFree e) : plainReads f = .ok f := by
  have hgives := stepGives_exitFree.mapFormula (Formula.layerGives_self _ _) ⟨hf, hfree⟩
  obtain ⟨r, hr, rfl⟩ := Guarantee.exists_of_ending hgives
  rw [plainReads, Walk.mapFormulaEntering, hr]
  rfl

theorem returns_plainReads (h : plainReads f = .ok g) :
    Returns (Walk.mapFormula .all .drop (Walk.enterer .all .drop plainReading) f) (some g) := by
  obtain ⟨r, hr, hg⟩ := Returning.of_bind (m := Except Fault) h
  cases r with
  | none => cases hg
  | some g' =>
    cases Returning.of_pure (m := Except Fault) hg
    exact Walk.eq_some_of_concluded hr

end Completeness

/-- No exit values and clobbers are left, and a second conversion changes nothing. The first one changes every formula
that has some. -/
theorem conversion_complete (hf : f.Normal) (hterms : ∀ e ∈ f.terms, e.Obtainable) (h : plainReads f = .ok g) :
    (∀ e ∈ g.terms, ExitFree e) ∧ plainReads g = .ok g ∧ (g = f ↔ ∀ e ∈ f.terms, ExitFree e) := by
  have hfree : ∀ e ∈ g.terms, ExitFree e := fun e he => ((plainReads_decides hterms).2.1 g h e he).2
  have hnormal : g.Normal := Formula.normal_of_mapFormula hf (returns_plainReads h)
  refine ⟨hfree, plainReads_self hnormal hfree, ?_, fun hf' => ?_⟩
  · rintro rfl
    exact hfree
  · exact Except.ok.inj (h.symm.trans (plainReads_self hf hf'))

theorem conversion_complete_of_nested :
    ∃ f g : Formula, f = .of (.nonzero
        (endAfterCall (.ofLocal "x") ⟨"f", "node", .int 4 true⟩ (.int 4 true) (.ofGlobal "g"))) ∧
      f.Normal ∧ (∀ e ∈ f.terms, e.Obtainable) ∧ plainReads f = .ok g ∧
      (∀ e ∈ g.terms, ExitFree e) ∧ plainReads g = .ok g ∧ g ≠ f := by
  have hread := readAtExit_endAfterCall (.ofLocal "x") ⟨"f", "node", .int 4 true⟩ (.int 4 true) (.ofGlobal "g")
  have hnormal : (Formula.of (.nonzero
      (endAfterCall (.ofLocal "x") ⟨"f", "node", .int 4 true⟩ (.int 4 true) (.ofGlobal "g")))).Normal :=
    normal_of_nonzero (by simp) (by simp)
  have hterms := forall_terms_test_iff.2
    (obtainable_endAfterCall (.ofLocal "x") ⟨"f", "node", .int 4 true⟩ (.int 4 true) (.ofGlobal "g"))
  have hbased := forall_terms_test_iff.2 (hread.wellBased (fun h => by cases h) (wellBased_fieldAtExit _ _))
  obtain ⟨g, hg⟩ := (plainReads_decides hterms).1.2 hbased
  obtain ⟨hfree, hself, hsame⟩ := conversion_complete hnormal hterms hg
  refine ⟨_, g, rfl, hnormal, hterms, hg, hfree, hself, fun heq => ?_⟩
  exact forall_terms_test_iff.1 (hsame.1 heq) _ (.refl _) _ _ hread

end Retrace.Search
