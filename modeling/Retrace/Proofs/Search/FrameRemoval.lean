import Retrace.Proofs.Meaning.Rewriting
import Retrace.Proofs.Search.Placeholders
import Retrace.Proofs.Walk.Refusal
import Retrace.Proofs.Walk.Simultaneous

/-!
Taking references to a frame off, whatever they stand around. Every node can be based on a reference, but not on every
value that a reference stands for; where it cannot, the removal has no result. What is inside the value of a
reference is not looked at, so that of references inside references one level goes with each removal.
-/

set_option autoImplicit false

namespace Retrace.Search

open Walk (StepGives resettled)

variable {id : Nat} {e : Expr} {f g : Formula}

section Support

def stripped (id : Nat) (e : Expr) : Expr :=
  withoutReference id (resettled e (e.children.attach.map fun c => stripped id c.1))
termination_by sizeOf e
decreasing_by exact Expr.sizeOf_lt_of_mem_children c.2

theorem stripped_eq (id : Nat) (e : Expr) :
    stripped id e = withoutReference id (resettled e (e.children.map (stripped id))) := by
  rw [stripped, List.attach_map_val (f := stripped id)]

theorem stripped_leaf (hleaf : e.children = []) : stripped id e = withoutReference id e := by
  rw [stripped_eq, hleaf, List.map_nil, resettled, if_pos hleaf.symm]

def Supported (id : Nat) (e : Expr) : Prop :=
  ∀ a, e.Reaches a → a.acceptsTarget (a.children.map (stripped id)) = true

theorem Supported.child {c : Expr} (h : Supported id e) (hc : c ∈ e.children) : Supported id c :=
  fun a ha => h a (.child hc ha)

theorem supported_of_children (here : e.acceptsTarget (e.children.map (stripped id)) = true)
    (hcs : ∀ c ∈ e.children, Supported id c) : Supported id e := by
  intro a ha
  cases ha with
  | refl => exact here
  | child mem reaches => exact hcs _ mem a reaches

theorem obtainable_withoutReference (id : Nat) (he : e.Obtainable) : (withoutReference id e).Obtainable := by
  rcases withoutReference_cases id e with hreference | ⟨-, hsame⟩
  · exact he.part (by rw [Expr.parts, hreference]; exact List.mem_singleton_self _)
  · rwa [hsame]

def StripsTo (id : Nat) (e : Expr) : Option Expr → Prop
  | some e' => Supported id e ∧ e' = stripped id e ∧ e'.Obtainable
  | none => ¬ Supported id e

theorem children_of_stripsTo {cs : List Expr} (hcs : Walk.Over (StripsTo id) e cs) :
    cs = e.children.map (stripped id) ∧ (∀ c ∈ e.children, Supported id c) ∧ ∀ c ∈ cs, c.Obtainable := by
  have hmap : List.Forall₂ (· = ·) (e.children.map (stripped id)) cs :=
    List.forall₂_map_left_iff.2 (hcs.imp fun c c' hc => hc.2.1.symm)
  rw [List.forall₂_eq_eq_eq] at hmap
  refine ⟨hmap.symm, ?_, Walk.forall_mem_of_forall₂ (fun _ _ hc => hc.2.2) hcs⟩
  exact Walk.forall_mem_of_forall₂ (fun _ _ hc => hc.1) hcs.flip

theorem stepGives_stripped (id : Nat) :
    StepGives (.returned Id) (fun _ => False) .all .drop (referenceMapper id) Expr.Obtainable (StripsTo id) := by
  constructor
  case child => exact fun e he c hc => he.part (Expr.mem_parts_of_mem_children hc)
  case kept => exact fun hkeep => by cases hkeep
  case lost => exact fun e _ c hc hnone hsupported => hnone (hsupported.child hc)
  case rebuilt =>
    intro e cs he hcs
    obtain ⟨rfl, -, -⟩ := children_of_stripsTo hcs
    rw [Walk.rebuilt_drop_eq he (List.length_map _)]
    refine ⟨fun hnone hsupported => ?_, fun _ _ hout => by cases hout⟩
    rw [if_pos (hsupported e (.refl e))] at hnone
    cases hnone
  case answered =>
    intro e cs value he _ hcs hvalue
    obtain ⟨rfl, hsupported, hbuilt⟩ := children_of_stripsTo hcs
    rw [Walk.rebuilt_drop_eq he (List.length_map _)] at hvalue
    split at hvalue
    · rename_i haccepts
      cases hvalue
      have hresult := obtainable_withoutReference id (Walk.obtainable_resettled he (List.length_map _) hbuilt)
      have hanswer : StripsTo id e (some (withoutReference id (resettled e (e.children.map (stripped id))))) :=
        ⟨supported_of_children haccepts hsupported, (stripped_eq id e).symm, hresult⟩
      exact (Guarantee.sure Id).pure hanswer
    · cases hvalue

theorem dropReferences_outcome (id : Nat) (hf : ∀ e ∈ f.terms, e.Obtainable) :
    Guarantee.Outcome (fun g => (∀ e ∈ f.terms, Supported id e) ∧ ∀ e ∈ g.terms, e.Obtainable)
      (fun fault => (∃ e ∈ f.terms, ¬ Supported id e) ∧ fault = .frameRemovalDropped) (dropReferences id f) := by
  have layer := Formula.layerGives_tests (q := fun _ => False) (Q := Expr.Obtainable) (U := Supported id)
    (D := fun e => ¬ Supported id e) (p := Expr.Obtainable) (P := StripsTo id) ?_ ?_
  · obtain ⟨r, hr, hresult⟩ := Guarantee.exists_of_sure_id ((stepGives_stripped id).mapFormula layer hf)
    rw [dropReferences, dropReferences?, hr]
    obtain ⟨hsupported, g, rfl, hg⟩ | ⟨hunsupported, rfl⟩ := hresult
    · exact ⟨hsupported, hg⟩
    · exact ⟨hunsupported, rfl⟩
  · exact fun e w a hshape he => he.part (Expr.mem_parts_of_mem_children (Expr.mem_children_of_unary hshape))
  · intro e r _ hr
    cases r with
    | none => exact .inr ⟨hr, rfl⟩
    | some e' => exact .inl ⟨hr.1, e', rfl, hr.2.2⟩

theorem dropReferences_decides (id : Nat) (hf : ∀ e ∈ f.terms, e.Obtainable) :
    ((∃ g, dropReferences id f = .ok g) ↔ ∀ e ∈ f.terms, Supported id e) ∧
    (∀ g, dropReferences id f = .ok g → ∀ e ∈ g.terms, e.Obtainable) ∧
    ∀ fault, dropReferences id f = .error fault →
      (∃ e ∈ f.terms, ¬ Supported id e) ∧ fault = .frameRemovalDropped := by
  refine (dropReferences_outcome id hf).decides ?_
  rintro fault ⟨⟨e, he, hunsupported⟩, -⟩ hsupported
  exact hunsupported (hsupported e he)

end Support

section Locations

open Retrace.Expr (Kindred Renewed)

inductive Opens (id : Nat) : Expr → Expr → Prop
  | refl (e : Expr) : Opens id e e
  | child {e c a : Expr} (mem : c ∈ e.children) (opens : Opens id c a) : Opens id e a
  | value {e inner a : Expr} (shape : e.shape = .frame inner id) (opens : Opens id inner a) : Opens id e a

def RefersToLocations (id : Nat) (e : Expr) : Prop :=
  ∀ a, Opens id e a → ∀ inner, a.shape = .frame inner id → inner.isLvalueTarget = true

theorem RefersToLocations.child {c : Expr} (h : RefersToLocations id e) (hc : c ∈ e.children) :
    RefersToLocations id c := fun a ha => h a (.child hc ha)

theorem RefersToLocations.value {inner : Expr} (h : RefersToLocations id e) (hshape : e.shape = .frame inner id) :
    RefersToLocations id inner := fun a ha => h a (.value hshape ha)

theorem refersToLocations_of_children (hcs : ∀ c ∈ e.children, RefersToLocations id c)
    (hvalue : ∀ inner, e.shape = .frame inner id → inner.isLvalueTarget = true ∧ RefersToLocations id inner) :
    RefersToLocations id e := by
  intro a ha
  cases ha with
  | refl => exact fun inner hshape => (hvalue inner hshape).1
  | child mem opens => exact hcs _ mem a opens
  | value shape opens => exact (hvalue _ shape).2 a opens

structure Referent (id : Nat) (e : Expr) : Prop where
  obtainable : e.Obtainable
  location : e.isLvalueTarget = true
  refers : RefersToLocations id e

theorem Referent.fieldBase {y : Expr} (h : Referent id e) (hy : e.fieldBase? = some y) : Referent id y := by
  obtain ⟨hobtainable, hlocation⟩ := Walk.location_of_fieldBase? h.obtainable hy
  exact ⟨hobtainable, hlocation, h.refers.child (Expr.mem_children_of_fieldBase? hy)⟩

theorem Referent.kindred {x : Expr} (h : Referent id x) : Kindred (Referent id) e x :=
  Expr.kindred_of_target h.location fun _ => h.fieldBase

theorem refersToLocations_of_renewed {cs : List Expr} {value inner : Expr} (h : RefersToLocations id e)
    (hvalue : Renewed (Referent id) e cs value) (hshape : value.shape = .frame inner id) :
    RefersToLocations id value := by
  cases hvalue with
  | same => exact h
  | node kind =>
    have hhidden := kind.hidden_eq
    rw [hshape] at hhidden
    cases hhidden
  | left _ left => exact left.refers

theorem kindred_stripped (he : e.Obtainable) (h : RefersToLocations id e) :
    Kindred (Referent id) e (stripped id e) ∧ (stripped id e).Obtainable := by
  induction e using Expr.inductionOnParts with
  | step e ih =>
    have child (c : Expr) (hc : c ∈ e.children) :
        Kindred (Referent id) c (stripped id c) ∧ (stripped id c).Obtainable :=
      ih c (Expr.mem_parts_of_mem_children hc) (he.part (Expr.mem_parts_of_mem_children hc)) (h.child hc)
    have hkin : List.Forall₂ (Kindred (Referent id)) e.children (e.children.map (stripped id)) :=
      List.forall₂_map_right_iff.2 (List.forall₂_same.2 fun c hc => (child c hc).1)
    have hcs : ∀ c ∈ e.children.map (stripped id), c.Obtainable :=
      List.forall_mem_map.2 fun c hc => (child c hc).2
    have hrenewed := Walk.renewed_resettled he (he.rebuildable hkin) hcs
    have hbuilt := Walk.obtainable_resettled he (List.length_map _) hcs
    rw [stripped_eq]
    generalize resettled e (e.children.map (stripped id)) = value at hrenewed hbuilt
    refine ⟨?_, obtainable_withoutReference id hbuilt⟩
    rcases withoutReference_cases id value with hreference | ⟨-, hsame⟩
    · -- A step that cancels can leave a reference behind, and that one goes too.
      have hrefers := refersToLocations_of_renewed h hrenewed hreference
      exact Referent.kindred ⟨obtainable_withoutReference id hbuilt, hrefers value (.refl value) _ hreference,
        hrefers.value hreference⟩
    · rw [hsame]
      exact hrenewed.kindred fun x hx => hx.kindred

theorem supported_of_refersToLocations (he : e.Obtainable) (h : RefersToLocations id e) : Supported id e := by
  induction e using Expr.inductionOnParts with
  | step e ih =>
    have part {c : Expr} (hc : c ∈ e.children) : c.Obtainable := he.part (Expr.mem_parts_of_mem_children hc)
    refine supported_of_children (Expr.acceptsTarget_of_kindred (L := Referent id) ?_ he.standing.accepts) ?_
    · exact List.forall₂_map_right_iff.2
        (List.forall₂_same.2 fun c hc => (kindred_stripped (part hc) (h.child hc)).1)
    · exact fun c hc => ih c (Expr.mem_parts_of_mem_children hc) (part hc) (h.child hc)

end Locations

/-- References to a frame can be taken off a formula exactly if every node can be based on what its target becomes, and
a term that is dropped is all that can go wrong. Where all of them stand for locations there is always a result. -/
theorem removal_outcomes (hf : ∀ e ∈ f.terms, e.Obtainable) (id : Nat) :
    ((∃ g, dropReferences id f = .ok g) ↔ ∀ e ∈ f.terms, Supported id e) ∧
    (∀ g, dropReferences id f = .ok g → ∀ e ∈ g.terms, e.Obtainable) ∧
    (∀ fault, dropReferences id f = .error fault → fault = .frameRemovalDropped) ∧
    ((∀ e ∈ f.terms, RefersToLocations id e) → ∃ g, dropReferences id f = .ok g) := by
  obtain ⟨hiff, hbuilt, hfault⟩ := dropReferences_decides id hf
  refine ⟨hiff, hbuilt, fun fault h => (hfault fault h).2, fun hlocations => hiff.2 fun e he => ?_⟩
  exact supported_of_refersToLocations (hf e he) (hlocations e he)

section Instances

variable (v : Variable) (fl : Field)

def fieldOfReference (inner : Expr) (id : Nat) : Expr := .of (.access (.field fl) (.of (.frame inner id)))

theorem obtainable_reference {inner : Expr} (hinner : inner.Obtainable) (hframe : inner.isFrame = false) (id : Nat) :
    (Expr.of (.frame inner id)).Obtainable := by
  refine .make (s := .frame inner id) (List.forall_mem_singleton.2 hinner) ?_
  rw [Shape.make, Expr.frame, hframe]
  rfl

theorem obtainable_fieldOfReference {inner : Expr} (hinner : inner.Obtainable) (hframe : inner.isFrame = false)
    (id : Nat) : (fieldOfReference fl inner id).Obtainable :=
  .make (s := .access (.field fl) (.of (.frame inner id)))
    (List.forall_mem_singleton.2 (obtainable_reference hinner hframe id)) rfl

def aroundReference (id : Nat) : Expr := .of (.access (.container fl) (Walk.framed v id))

theorem obtainable_aroundReference (id : Nat) : (aroundReference v fl id).Obtainable :=
  .make (s := .access (.container fl) (Walk.framed v id))
    (List.forall_mem_singleton.2 (Walk.obtainable_framed v id)) rfl

theorem refersToLocations_framed (id : Nat) : RefersToLocations id (Walk.framed v id) := by
  refine refersToLocations_of_children (List.forall_mem_nil _) fun inner hshape => ?_
  cases hshape
  refine ⟨rfl, refersToLocations_of_children (List.forall_mem_nil _) fun inner hshape => ?_⟩
  cases hshape

theorem refersToLocations_aroundReference (id : Nat) :
    RefersToLocations id (fieldOfReference fl (aroundReference v fl id) id) := by
  refine refersToLocations_of_children (List.forall_mem_singleton.2 ?_) fun inner hshape => by cases hshape
  refine refersToLocations_of_children (List.forall_mem_nil _) fun inner hshape => ?_
  cases hshape
  refine ⟨rfl, refersToLocations_of_children ?_ fun inner hshape => by cases hshape⟩
  exact List.forall_mem_singleton.2 (refersToLocations_framed v id)

/-- Going into the field of what a reference stands for cancels there, and leaves another reference. -/
theorem removal_outcomes_of_cancelling :
    ∃ f : Formula, f = .of (.nonzero (fieldOfReference ⟨"f", "node", .int 4 true⟩
        (aroundReference (.ofLocal "x") ⟨"f", "node", .int 4 true⟩ 3) 3)) ∧
      (∀ e ∈ f.terms, e.Obtainable) ∧ (∀ e ∈ f.terms, RefersToLocations 3 e) ∧ (∀ e ∈ f.terms, Supported 3 e) ∧
      ∃ g, dropReferences 3 f = .ok g ∧ ∀ e ∈ g.terms, e.Obtainable := by
  have hobtainable := obtainable_fieldOfReference ⟨"f", "node", .int 4 true⟩
    (obtainable_aroundReference (.ofLocal "x") ⟨"f", "node", .int 4 true⟩ 3) rfl 3
  have hrefers := refersToLocations_aroundReference (.ofLocal "x") ⟨"f", "node", .int 4 true⟩ 3
  have hterms := forall_terms_test_iff.2 hobtainable
  obtain ⟨hiff, hbuilt, -, hlocations⟩ := removal_outcomes hterms 3
  obtain ⟨g, hg⟩ := hlocations (forall_terms_test_iff.2 hrefers)
  exact ⟨_, rfl, hterms, forall_terms_test_iff.2 hrefers, hiff.1 ⟨g, hg⟩, g, hg, hbuilt g hg⟩

/-- No field is of a constant, but there can be one of a reference to it. -/
theorem removal_drops_constant :
    ∃ f : Formula, f = .of (.nonzero (fieldOfReference ⟨"f", "node", .int 4 true⟩ (.int 5) 3)) ∧ f.Normal ∧
      (∀ e ∈ f.terms, e.Obtainable) ∧ dropReferences 3 f = .error .frameRemovalDropped := by
  have hobtainable := obtainable_fieldOfReference ⟨"f", "node", .int 4 true⟩ (Walk.obtainable_int 5) rfl 3
  have hterms := forall_terms_test_iff.2 hobtainable
  have hunsupported : ¬ Supported 3 (fieldOfReference ⟨"f", "node", .int 4 true⟩ (.int 5) 3) := by
    intro hsupported
    have haccepts := hsupported _ (.refl _)
    have htarget : stripped 3 (.of (.frame (.int 5) 3)) = .int 5 := stripped_leaf rfl
    change Expr.acceptsTarget _ [stripped 3 (.of (.frame (.int 5) 3))] = true at haccepts
    rw [htarget] at haccepts
    cases haccepts
  refine ⟨_, rfl, normal_of_nonzero (by simp) (by simp), hterms, ?_⟩
  obtain ⟨hiff, -, hfault⟩ := dropReferences_decides 3 hterms
  cases hr : dropReferences 3 (.of (.nonzero (fieldOfReference ⟨"f", "node", .int 4 true⟩ (.int 5) 3))) with
  | ok g => exact absurd (forall_terms_test_iff.1 (hiff.1 ⟨g, hr⟩)) hunsupported
  | error fault => rw [(hfault fault hr).2]

end Instances

section Levels

def Levels (id : Nat) : Nat → Expr → Prop
  | 0, e => Unreferenced id e
  | n + 1, e => ∀ a, e.Reaches a → ∀ inner, a.shape = .frame inner id → Levels id n inner

variable {n : Nat}

theorem Levels.child {c : Expr} (h : Levels id n e) (hc : c ∈ e.children) : Levels id n c := by
  cases n with
  | zero => exact Unreferenced.child h hc
  | succ n => exact fun a ha => h a (.child hc ha)

theorem Levels.succ (h : Levels id n e) : Levels id (n + 1) e := by
  induction n generalizing e with
  | zero => exact fun a ha inner hshape => absurd hshape (h a ha inner)
  | succ n ih => exact fun a ha inner hshape => ih (h a ha inner hshape)

theorem levels_of_sizeOf_le (id : Nat) (h : sizeOf e ≤ n) : Levels id n e := by
  induction n generalizing e with
  | zero =>
    obtain ⟨d, s⟩ := e
    simp at h
  | succ n ih =>
    intro a ha inner hshape
    have hinner : inner ∈ a.hidden := by rw [Expr.hidden, hshape]; exact List.mem_singleton_self inner
    have hle := ha.sizeOf_le
    have hlt := Expr.sizeOf_lt_of_mem_hidden hinner
    exact ih (by omega)

theorem Levels.rebuilt {cs : List Expr} {value : Expr} (he : ∀ inner, e.shape ≠ .frame inner id)
    (hcs : ∀ c ∈ cs, Levels id n c) (h : Walk.rebuilt .drop e cs = .ok (some value)) : Levels id n value := by
  have hsame (s : Shape Expr) (kind : e.shape.SameOperator s) (inner : Expr) : (Expr.of s).shape ≠ .frame inner id := by
    rintro rfl
    cases kind.hidden_eq
  have hint (v : Int) (inner : Expr) : (Expr.int v).shape ≠ .frame inner id := by
    intro hshape
    cases hshape
  cases n with
  | zero => exact Walk.forall_reaches_rebuilt h he hsame hint hcs
  | succ n =>
    exact Walk.forall_reaches_rebuilt (p := fun a => ∀ inner, a.shape = .frame inner id → Levels id n inner) h
      (fun inner hshape => absurd hshape (he inner)) (fun s kind inner hshape => absurd hshape (hsame s kind inner))
      (fun v inner hshape => absurd hshape (hint v inner)) hcs

theorem Levels.withoutReference (h : Levels id n e) : Levels id n (withoutReference id e) := by
  rcases withoutReference_cases id e with hreference | ⟨-, hsame⟩
  · cases n with
    | zero => exact absurd hreference (h e (.refl e) _)
    | succ n => exact (h e (.refl e) _ hreference).succ
  · rwa [hsame]

theorem stepKeeps_levels (id n : Nat) :
    Walk.StepKeeps .all .drop (referenceMapper id) fun e e' => Levels id (n + 1) e → Levels id n e' := by
  refine Walk.stepKeeps_of_answered fun e cs value hcs hvalue e' he' he => ?_
  cases eq_withoutReference he'
  rcases withoutReference_cases id e with hreference | ⟨hother, -⟩
  · -- The reference is a leaf, so that it comes to the mapper as it is.
    have hself := Walk.rebuilt_self .drop e
    rw [Expr.children, hreference] at hcs hself
    cases hcs
    cases hvalue.symm.trans hself
    exact he e (.refl e) _ hreference
  · have hchildren := (List.forall₂_and_left _ _).2 ⟨fun c hc => he.child hc, hcs⟩
    refine Levels.withoutReference (Levels.rebuilt hother ?_ hvalue)
    exact Walk.forall_mem_of_forall₂ (fun _ _ hc => hc.2 hc.1) hchildren

theorem levels_of_dropReferences (h : dropReferences id f = .ok g) (hf : ∀ e ∈ f.terms, Levels id (n + 1) e) :
    ∀ e ∈ g.terms, Levels id n e := by
  have hnot (e : Expr) (w : Width) (a : Expr) (hshape : e.shape = .unary .not w a) (he : Levels id n e) :
      Levels id n a := he.child (Expr.mem_children_of_unary hshape)
  exact Walk.mapFormula_related (m := Id) (stepKeeps_levels id n) (Formula.layerKeeps_terms _ hnot)
    (returns_dropReferences? h) hf

def dropLevels (id : Nat) : Nat → Formula → Except Fault Formula
  | 0, f => .ok f
  | n + 1, f => dropReferences id f >>= dropLevels id n

theorem levels_of_dropLevels {k : Nat} (h : dropLevels id n f = .ok g) (hf : ∀ e ∈ f.terms, Levels id (k + n) e) :
    ∀ e ∈ g.terms, Levels id k e := by
  induction n generalizing f with
  | zero =>
    cases h
    exact hf
  | succ n ih =>
    obtain ⟨f', hf', hg⟩ := Returning.of_bind (m := Except Fault) h
    exact ih hg (levels_of_dropReferences hf' hf)

theorem normal_of_dropLevels (hf : f.Normal) (h : dropLevels id n f = .ok g) : g.Normal := by
  induction n generalizing f with
  | zero =>
    cases h
    exact hf
  | succ n ih =>
    obtain ⟨f', hf', hg⟩ := Returning.of_bind (m := Except Fault) h
    exact ih (normal_of_dropReferences hf hf') hg

end Levels

/-- Every removal takes at least one level of references off. Where none stood inside another, none is left after the
first and the next one changes nothing; in general it takes as many as there are levels. -/
theorem removal_by_levels (hf : f.Normal) (id : Nat) :
    (∀ g, dropReferences id f = .ok g →
      (∀ n, (∀ e ∈ f.terms, Levels id (n + 1) e) → ∀ e ∈ g.terms, Levels id n e) ∧
      ((∀ e ∈ f.terms, Levels id 1 e) → (∀ e ∈ g.terms, Unreferenced id e) ∧ dropReferences id g = .ok g)) ∧
    (∀ n g, dropLevels id n f = .ok g → (∀ e ∈ f.terms, Levels id n e) →
      (∀ e ∈ g.terms, Unreferenced id e) ∧ dropReferences id g = .ok g) ∧
    ∃ n, ∀ e ∈ f.terms, Levels id n e := by
  refine ⟨fun g hg => ⟨fun n hlevels => levels_of_dropReferences hg hlevels, fun hlevels => ?_⟩,
    fun n g hg hlevels => ?_, sizeOf f.terms, fun e he => ?_⟩
  · have hnone : ∀ e ∈ g.terms, Unreferenced id e := levels_of_dropReferences hg hlevels
    exact ⟨hnone, dropReferences_self (normal_of_dropReferences hf hg) hnone⟩
  · have hnone : ∀ e ∈ g.terms, Unreferenced id e := levels_of_dropLevels hg (k := 0) (by rwa [Nat.zero_add])
    exact ⟨hnone, dropReferences_self (normal_of_dropLevels hf hg) hnone⟩
  · exact levels_of_sizeOf_le id (Nat.le_of_lt (List.sizeOf_lt_of_mem he))

section NestedReferences

variable (v : Variable) (id : Nat)

def framedPointee : Expr := .of (.access .deref (Walk.framed v id))

def nestedReference : Expr := .of (.frame (framedPointee v id) id)

theorem obtainable_framedPointee : (framedPointee v id).Obtainable :=
  .make (s := .access .deref (Walk.framed v id)) (List.forall_mem_singleton.2 (Walk.obtainable_framed v id)) rfl

theorem obtainable_nestedReference : (nestedReference v id).Obtainable :=
  obtainable_reference (obtainable_framedPointee v id) rfl id

theorem dropReferences_test {e e' : Expr} {memo : Walk.Memo} (hne : e' ≠ e)
    (h : (Walk.mapExpr .all .drop (referenceMapper id) e).run [] = pure (some e', memo)) :
    dropReferences id (.of (.nonzero e)) = .ok (.nonzero e') := by
  rw [dropReferences, dropReferences?, Formula.of, Walk.run_mapFormula_nonzero _ h, Option.map_some, if_neg hne]
  rfl

theorem withoutReference_framed : withoutReference id (Walk.framed v id) = .var v := if_pos rfl

theorem dropReferences_nestedReference :
    dropReferences id (.of (.nonzero (nestedReference v id))) = .ok (.of (.nonzero (framedPointee v id))) := by
  have hne : framedPointee v id ≠ nestedReference v id := Walk.of_ne_of (by simp)
  have hinner : withoutReference id (nestedReference v id) = framedPointee v id := if_pos rfl
  have happlied := applied_referenceMapper id (nestedReference v id) (nestedReference v id)
  rw [hinner] at happlied
  rw [dropReferences_test id hne (Walk.run_mapExpr_leaf rfl rfl happlied), framedPointee,
    Formula.nonzero_of (by simp) (by simp)]

theorem var_ne_framed : Expr.var v ≠ Walk.framed v id := Walk.of_ne_of (by simp)

theorem pointee_ne_framedPointee : Walk.pointee v ≠ framedPointee v id :=
  Walk.of_ne_of fun h => var_ne_framed v id (Shape.access.inj h).2

theorem dropReferences_framedPointee :
    dropReferences id (.of (.nonzero (framedPointee v id))) = .ok (.of (.nonzero (Walk.pointee v))) := by
  have hvar := applied_referenceMapper id (Walk.framed v id) (Walk.framed v id)
  rw [withoutReference_framed] at hvar
  have hvalue : Walk.rebuilt .drop (framedPointee v id) [.var v] = .ok (some (Walk.pointee v)) := by
    have hchanged : [Expr.var v] ≠ (framedPointee v id).children := fun h => var_ne_framed v id (List.cons.inj h).1
    rw [Walk.rebuilt, if_neg hchanged]
    rfl
  have happlied := applied_referenceMapper id (Walk.pointee v) (framedPointee v id)
  have hself : withoutReference id (Walk.pointee v) = Walk.pointee v := rfl
  rw [hself] at happlied
  have hrun := Walk.run_mapExpr_single rfl rfl hvar hvalue happlied
  rw [dropReferences_test id (pointee_ne_framedPointee v id) hrun, Walk.pointee, Formula.nonzero_of (by simp) (by simp)]

theorem levels_of_children {n : Nat} {e : Expr} (hcs : ∀ c ∈ e.children, Levels id (n + 1) c)
    (hvalue : ∀ inner, e.shape = .frame inner id → Levels id n inner) : Levels id (n + 1) e := by
  intro a ha
  cases ha with
  | refl => exact hvalue
  | child mem reaches => exact hcs _ mem a reaches

theorem levels_nestedReference : Levels id 2 (nestedReference v id) := by
  refine levels_of_children id (List.forall_mem_nil _) fun inner hshape => ?_
  cases hshape
  refine levels_of_children id (List.forall_mem_singleton.2 ?_) fun inner hshape => by cases hshape
  refine levels_of_children id (List.forall_mem_nil _) fun inner hshape => ?_
  cases hshape
  intro a ha inner hshape
  rw [ha.eq_of_leaf rfl] at hshape
  cases hshape

theorem removal_by_levels_of_two :
    ∃ f g : Formula, f = .of (.nonzero (nestedReference (.ofLocal "x") 3)) ∧
      g = .of (.nonzero (Walk.pointee (.ofLocal "x"))) ∧ f.Normal ∧ (∀ e ∈ f.terms, Levels 3 2 e) ∧
      dropLevels 3 2 f = .ok g ∧ (∀ e ∈ g.terms, Unreferenced 3 e) ∧ dropReferences 3 g = .ok g := by
  have hnormal : (Formula.of (.nonzero (nestedReference (.ofLocal "x") 3))).Normal :=
    normal_of_nonzero (by simp) (by simp)
  have hlevels := forall_terms_test_iff.2 (levels_nestedReference (.ofLocal "x") 3)
  have hdropped : dropLevels 3 2 (.of (.nonzero (nestedReference (.ofLocal "x") 3))) =
      .ok (.of (.nonzero (Walk.pointee (.ofLocal "x")))) := by
    rw [dropLevels, dropReferences_nestedReference]
    change dropLevels 3 1 _ = _
    rw [dropLevels, dropReferences_framedPointee]
    rfl
  obtain ⟨-, hlevel, -⟩ := removal_by_levels hnormal 3
  exact ⟨_, _, rfl, rfl, hnormal, hlevels, hdropped, hlevel 2 _ hdropped hlevels⟩

/-- The reference inside stays, and a second removal takes it off. -/
theorem reference_left_inside :
    ∃ f g : Formula, f = .of (.nonzero (nestedReference (.ofLocal "x") 3)) ∧
      g = .of (.nonzero (framedPointee (.ofLocal "x") 3)) ∧ f.Normal ∧ (∀ e ∈ f.terms, e.Obtainable) ∧
      dropReferences 3 f = .ok g ∧ (∃ e ∈ g.terms, ¬ Unreferenced 3 e) ∧ dropReferences 3 g ≠ .ok g := by
  refine ⟨_, _, rfl, rfl, normal_of_nonzero (by simp) (by simp),
    forall_terms_test_iff.2 (obtainable_nestedReference _ 3), dropReferences_nestedReference _ 3,
    ⟨_, Formula.mem_terms_of_clause rfl, fun hnone => ?_⟩, fun hsame => ?_⟩
  · exact hnone _ (.child (List.mem_singleton_self _) (.refl _)) _ rfl
  · rw [dropReferences_framedPointee] at hsame
    have hclause := congrArg Formula.clause (Except.ok.inj hsame)
    exact pointee_ne_framedPointee _ 3 (Clause.nonzero.inj hclause)

end NestedReferences

end Retrace.Search
