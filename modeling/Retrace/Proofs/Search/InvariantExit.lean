import Retrace.Proofs.Search.Invariant
import Retrace.Proofs.Search.Placeholders
import Retrace.Proofs.Walk.Replacing

/-!
Moving an invariant to the exit of a function that writes. Every dereference becomes the exit value of its
target, but exit values are of locations only, while numbers that were computed can be dereferenced too. An
invariant can be moved if, and only if, it does not read through such a number.
-/

set_option autoImplicit false

namespace Retrace

def Formula.Readable (f : Formula) : Prop := ∀ e ∈ f.terms, e.Readable

namespace Search

open Retrace.Expr (Kin Incoming Renewed)
open Guarantee (sure)
open Walk (StepGives Exchanged)

section ExitReads

variable {e value : Expr} {cs : List Expr} {f : Formula}

def IsExitValue (e : Expr) : Prop := ∃ t, e.shape = .moment .exit t none

theorem incoming_exit : Incoming IsExitValue fun _ => False := by
  refine Expr.incoming_of_moment fun x hx => ?_
  obtain ⟨t, hshape⟩ := hx
  exact ⟨.exit, t, none, hshape⟩

theorem read_cases (hkin : List.Forall₂ (Kin IsExitValue) e.children cs)
    (h : Renewed (fun _ => False) e cs value) :
    (e.dereferenced? = none ∧ value.dereferenced? = none) ∨
      ∃ t t', e.dereferenced? = some t ∧ value.dereferenced? = some t' ∧ Kin IsExitValue t t' := by
  cases h with
  | same =>
    cases ht : e.dereferenced? with
    | none => exact .inl ⟨rfl, rfl⟩
    | some t => exact .inr ⟨t, t, rfl, rfl, .self⟩
  | node kind operands =>
    rcases Expr.dereferenced?_cases kind with hnone | ⟨t, t', ht, ht', hchildren, hvalue⟩
    · exact .inl hnone
    · rw [hchildren, ← operands, hvalue] at hkin
      exact .inr ⟨t, t', ht, ht', (List.forall₂_cons.1 hkin).1⟩
  | left _ left => exact left.elim

theorem exitOfRead_none (h : value.dereferenced? = none) : exitOfRead value = .ok value := by
  rw [exitOfRead, h]

theorem exitOfRead_some {t : Expr} (h : value.dereferenced? = some t) :
    exitOfRead value = if t.int?.isSome then .ok value
      else if t.isLvalueTarget then .ok (.of (.moment .exit t none)) else .error (.notLvalue t) := by
  rw [exitOfRead, h]
  change (if t.int?.isSome then _ else t.checkLvalueTarget >>= fun _ => _) = _
  unfold Expr.checkLvalueTarget
  split
  · rfl
  · split <;> rfl

theorem stepGives_exit (R : Prop) :
    StepGives (.returned Id) (fun fault => ¬ R ∧ ∃ t, fault = .notLvalue t) .all .drop exitReadMapper
      (fun e => e.Obtainable ∧ (R → e.Readable)) (Exchanged IsExitValue fun e _ => e.Readable) := by
  refine Walk.stepGives_exchange incoming_exit (fun e he => he.1) (fun e he c hc => ?_)
    (fun hkeep => by cases hkeep) fun e cs value he hkin hcs hvalue h => ?_
  · exact ⟨he.1.part (Expr.mem_parts_of_mem_children hc), fun hR => (he.2 hR).child hc⟩
  have hchildren : ∀ c ∈ e.children, c.Readable := Walk.forall_mem_of_forall₂ (fun _ _ hc => hc) hcs.flip
  change Guarantee.Gives _ (Walk.lift ((exitOfRead value).map some)) _
  rcases read_cases hkin h with ⟨hnone, hvalue'⟩ | ⟨t, t', ht, ht', htarget⟩
  · rw [exitOfRead_none hvalue']
    have hreads : e.Readable := Expr.readable_of_children (fun t ht => by rw [hnone] at ht; cases ht) hchildren
    exact Guarantee.pure _ ⟨value, rfl, h.kin incoming_exit, hvalue, hreads⟩
  rw [exitOfRead_some ht']
  have hsuits := htarget.fixed_or_location_iff incoming_exit
  have hreads (hok : t'.int?.isSome = true ∨ t'.isLvalueTarget = true) : e.Readable := by
    refine Expr.readable_of_children (fun x hx => ?_) hchildren
    rw [ht] at hx
    cases hx
    exact hsuits.1 hok
  by_cases hfixed : t'.int?.isSome = true
  · rw [if_pos hfixed]
    exact Guarantee.pure _ ⟨value, rfl, h.kin incoming_exit, hvalue, hreads (.inl hfixed)⟩
  rw [if_neg hfixed]
  by_cases hlocation : t'.isLvalueTarget = true
  · rw [if_pos hlocation]
    have hpart : t'.Obtainable :=
      hvalue.part (by simp [Expr.parts, Expr.shape_of_dereferenced? ht', Shape.parts])
    have hexit : (Expr.of (.moment .exit t' none)).Obtainable := by
      refine .make (s := .moment .exit t' none) (List.forall_mem_singleton.2 hpart) ?_
      rw [Shape.make, Expr.moment, Expr.checkLvalueTarget, if_pos hlocation]
      rfl
    have hkin : Kin IsExitValue e (.of (.moment .exit t' none)) :=
      .came (Expr.isLvalueTarget_of_access (Expr.shape_of_dereferenced? ht)) ⟨t', rfl⟩
    exact Guarantee.pure _ ⟨_, rfl, hkin, hexit, hreads (.inr hlocation)⟩
  · rw [if_neg hlocation]
    refine (Guarantee.returned Id).pure (p := Guarantee.Outcome _ _) ⟨fun hR => ?_, t', rfl⟩
    rcases hsuits.2 (he.2 hR e (.refl e) t ht) with hok | hok
    · exact hfixed hok
    · exact hlocation hok

/-- Taking all reads at the exit succeeds if they are of locations and fixed addresses, and is a fault if
not. -/
theorem exitReads_cases {g : Formula} (hg : ∀ e ∈ g.terms, e.Obtainable) :
    (g.Readable ∧ ∃ g', (Walk.mapFormula .all .drop exitReadMapper g).run = .ok (some g')) ∨
      ¬ g.Readable ∧ ∃ t, (Walk.mapFormula .all .drop exitReadMapper g).run = .error (.notLvalue t) := by
  have layer := Formula.layerGives_terms (q := fun fault => ¬ g.Readable ∧ ∃ t, fault = .notLvalue t)
    (Q := fun e => e.Obtainable ∧ (g.Readable → e.Readable)) (U := Expr.Readable) (p := fun _ => True)
    (P := Exchanged IsExitValue fun e _ => e.Readable) (fun _ _ _ _ _ => trivial) ?_
  · have hgives := (stepGives_exit g.Readable).mapFormula layer fun e he => ⟨hg e he, fun hreads => hreads e he⟩
    have houtcome := hgives _ rfl
    cases hr : (Walk.mapFormula .all .drop exitReadMapper g).run with
    | ok r =>
      rw [hr] at houtcome
      obtain ⟨hreads, g', rfl, -⟩ := houtcome
      exact .inl ⟨hreads, g', rfl⟩
    | error fault =>
      rw [hr] at houtcome
      obtain ⟨hreads, t, rfl⟩ := houtcome
      exact .inr ⟨hreads, t, rfl⟩
  · rintro e r - ⟨e', rfl, -, -, hreads⟩
    exact ⟨hreads, e', rfl, trivial⟩

end ExitReads

section Steps

structure Current (e : Expr) : Prop where
  obtainable : e.Obtainable
  now : ∀ a, e.Reaches a → a.group ≠ .modifier ∧ a.group ≠ .placeholder

theorem Current.child {e c : Expr} (h : Current e) (hc : c ∈ e.children) : Current c :=
  ⟨h.obtainable.part (Expr.mem_parts_of_mem_children hc), fun a ha => h.now a (.child hc ha)⟩

theorem exitRead?_eq_none {e : Expr} (h : e.group ≠ .modifier) : exitRead? e = none := by
  obtain ⟨d, s⟩ := e
  cases s with
  | moment | clobber => exact absurd rfl h
  | _ => rfl

theorem isOpened_eq_false {e : Expr} (hmodifier : e.group ≠ .modifier) (hplaceholder : e.group ≠ .placeholder) :
    Walk.isOpened e = false := by
  obtain ⟨d, s⟩ := e
  cases s with
  | moment => exact absurd rfl hmodifier
  | frame => exact absurd rfl hplaceholder
  | _ => rfl

theorem exists_plainReads {f : Formula} (hf : ∀ e ∈ f.terms, Current e) :
    ∃ g, plainReads f = .ok g ∧ ∀ e ∈ g.terms, Current e := by
  have step : StepGives .ending (fun _ => False) .all .drop (Walk.enterer .all .drop plainReading) Current
      fun e r => r = some e := by
    refine Walk.stepGives_self (fun e he c hc => he.child hc) fun e he => ?_
    have hexit : exitRead? e = none := exitRead?_eq_none (he.now e (.refl e)).1
    exact Walk.entering_of_answer (by simp only [plainReading, hexit])
  have layer := Formula.layerGives_terms (q := fun _ => False) (Q := Current) (U := fun _ => True) (p := Current)
    (P := fun e r => r = some e) ?_ ?_
  · obtain ⟨r, hr, -, g, rfl, hg⟩ := Guarantee.exists_of_ending (step.mapFormula layer hf)
    refine ⟨g, ?_, hg⟩
    rw [plainReads, Walk.mapFormulaEntering, hr]
    rfl
  · exact fun e w a hshape he => he.child (Expr.mem_children_of_unary hshape)
  · exact fun e r he hr => ⟨trivial, e, hr, he⟩

theorem exists_relocate {old new : Option Expr} {f : Formula} (hf : ∀ e ∈ f.terms, Current e)
    (hold : ∀ o ∈ old, o.isLvalueTarget = true) (hnew : ∀ o ∈ old, ∀ w ∈ new, Walk.Suits o w) :
    ∃ g, relocate old new f = .ok g ∧ (∀ e ∈ g.terms, e.Obtainable) ∧
      (f.Readable → (old.isSome = true → ∀ w ∈ new, w.Readable) → g.Readable) := by
  have unchanged (h : relocate old new f = .ok f) :
      ∃ g, relocate old new f = .ok g ∧ (∀ e ∈ g.terms, e.Obtainable) ∧
        (f.Readable → (old.isSome = true → ∀ w ∈ new, w.Readable) → g.Readable) :=
    ⟨f, h, fun e he => (hf e he).obtainable, fun hreads _ => hreads⟩
  cases old with
  | none => exact unchanged rfl
  | some o =>
    cases new with
    | none => exact unchanged rfl
    | some w =>
      have hopened : ∀ e ∈ f.terms, ∀ a, e.Reaches a → Walk.isOpened a = false := fun e he a ha =>
        isOpened_eq_false ((hf e he).now a ha).1 ((hf e he).now a ha).2
      obtain ⟨g, hg, hbuilt, hreads⟩ := Walk.exists_replaceFormula (hnew o rfl w rfl) (hold o rfl)
        (fun e he => (hf e he).obtainable) hopened
      exact ⟨g, hg, hbuilt, fun hf hw => hreads (hw rfl w rfl) hf⟩

theorem heapExitFormula?_eq {old new : Option Expr} {f g : Formula} (hg : relocate old new f = .ok g) :
    heapExitFormula? old new f = (Walk.mapFormula .all .drop exitReadMapper g).run := by
  rw [heapExitFormula?, hg]
  rfl

theorem exists_dropReferences {id : Nat} {f : Formula} (hf : ∀ e ∈ f.terms, Unreferenced id e) :
    ∃ g, dropReferences id f = .ok g := by
  have layer := Formula.layerGives_terms (q := fun _ => False) (Q := Unreferenced id) (U := fun _ => True)
    (p := fun _ => True) (P := fun e r => r = some e) (fun _ _ _ _ _ => trivial)
    fun e r _ hr => ⟨trivial, e, hr, trivial⟩
  obtain ⟨r, hr, -, g, rfl, -⟩ := Guarantee.exists_of_sure_id ((stepGives_unreferenced id).mapFormula layer hf)
  refine ⟨g, ?_⟩
  rw [dropReferences, dropReferences?, hr]
  rfl

theorem removeValues_sure {S : Type} (frame : Frame (StateM S)) {input : Alternatives}
    (hinput : ∀ a ∈ input, ∀ e ∈ a.formula.terms, Unreferenced frame.id e) :
    (sure (StateM S)).Gives (removeValues frame input) fun _ => True := by
  rw [removeValues_eq]
  refine (sure (StateM S)).bind (p := fun _ => True)
    (Guarantee.foldlM _ input trivial fun output a ha _ => ?_) ?_
  · obtain ⟨f, hf⟩ := exists_dropReferences (hinput a ha)
    refine (sure (StateM S)).bind (p := fun _ => True) ?_ fun _ _ => (sure (StateM S)).pure trivial
    rw [eliminated, hf, Walk.lift_ok, pure_bind]
    split
    · have hview : (Guarantee.returned (StateM S)).Gives (frame.memory.view .expanded 0 f) fun _ => True :=
        fun _ _ => trivial
      exact (sure (StateM S)).bind (Guarantee.throwing_lift _ hview) fun _ _ => (sure (StateM S)).pure trivial
    · exact (sure (StateM S)).pure trivial
  · exact fun _ _ => (sure (StateM S)).pure trivial

end Steps

namespace Invariant

variable {type : Option String} {object : Option Expr} {f : Formula} {i : Invariant}

theorem obtainable_of_make? (hf : ∀ e ∈ f.terms, e.Obtainable) (made : make? type object f = .ok (some i)) :
    ∀ e ∈ i.formula.terms, e.Obtainable := by
  obtain ⟨-, hstated, -, -⟩ := make?_eq_some_iff.1 made
  cases type with
  | none =>
    cases hstated
    exact hf
  | some owner =>
    cases object with
    | none =>
      cases hstated
      exact hf
    | some o =>
      have hreceiver : Expr.receiverObject.Obtainable := Walk.obtainable_deref_var .receiver
      exact Walk.obtainable_of_replaceFormula hreceiver hf hstated

theorem current_of_make? (hf : ∀ e ∈ f.terms, e.Obtainable) (made : make? type object f = .ok (some i))
    (hnow : ∀ e ∈ i.formula.terms, ∀ a, e.Reaches a → a.group ≠ .modifier) :
    ∀ e ∈ i.formula.terms, Current e := by
  obtain ⟨-, -, hheap, -⟩ := make?_eq_some_iff.1 made
  refine fun e he => ⟨obtainable_of_make? hf made e he, fun a ha => ⟨hnow e he a ha, fun hplaceholder => ?_⟩⟩
  have hoff := (isOffHeap_iff a).2 (offHeap_of_placeholder hplaceholder)
  rw [hheap e he a ha] at hoff
  cases hoff

theorem location_of_object? {o : Expr} (ho : o ∈ i.object?) : o.isLvalueTarget = true := by
  obtain ⟨_, -, rfl⟩ := Option.map_eq_some_iff.1 ho
  rfl

theorem exists_shownFor {base : Option Expr} (hformula : ∀ e ∈ i.formula.terms, Current e)
    (hbase : ∀ o ∈ i.object?, ∀ b ∈ base, Walk.Suits o b) : ∃ shown, i.shownFor base = .ok shown := by
  obtain ⟨g, hg, hcurrent⟩ := exists_plainReads hformula
  obtain ⟨shown, hshown, -⟩ := exists_relocate hcurrent (fun o ho => location_of_object? ho) hbase
  refine ⟨shown, ?_⟩
  rw [shownFor, hg]
  exact hshown

theorem exitFormula_ok {w : Expr} {g g' : Formula} (hg : relocate i.object? (some w) i.formula = .ok g)
    (hg' : (Walk.mapFormula .all .drop exitReadMapper g).run = .ok (some g')) : i.exitFormula w = .ok g' := by
  rw [exitFormula, heapExitFormula?_eq hg, hg']
  rfl

theorem exitFormula_error {w : Expr} {fault : Fault}
    (hfault : heapExitFormula? i.object? (some w) i.formula = .error fault) :
    i.exitFormula w = .error fault := by
  rw [exitFormula, hfault]
  rfl

variable {S : Type} {frame : Frame (StateM S)} {w : Expr} {base : Option Expr}

theorem run_atExit_error {fault : Fault} (h : i.exitFormula w = .error fault) (s : S) :
    ((i.atExit frame w base).run.run s).1 = .error fault := by
  rw [atExit, h]
  rfl

theorem exists_run_atExit {g shown : Formula} (h : i.exitFormula w = .ok g)
    (hshown : i.shownFor base = .ok shown)
    (hmemory : ∀ s, ∀ a ∈ ((frame.memory.view .exit frame.memory.exitPoint g).run s).1,
      ∀ e ∈ a.formula.terms, Unreferenced frame.id e) (s : S) :
    ∃ arrival, ((i.atExit frame w base).run.run s).1 = .ok arrival := by
  have hsure : (sure (StateM S)).Gives (i.atExit frame w base) fun _ => True := by
    rw [atExit, h, hshown, Walk.lift_ok, Walk.lift_ok, pure_bind, pure_bind]
    refine (sure (StateM S)).bind (Guarantee.throwing_lift _ (p := fun found => ∀ a ∈ found,
      ∀ e ∈ a.formula.terms, Unreferenced frame.id e) ?_) fun found hfound => ?_
    · rintro _ ⟨s, rfl⟩
      exact hmemory s
    · exact (sure (StateM S)).bind (removeValues_sure frame hfound) fun _ _ => (sure (StateM S)).pure trivial
  obtain ⟨arrival, hrun, -⟩ := Guarantee.sure_iff.1 hsure s
  exact ⟨arrival, hrun⟩

/-- An accepted invariant can be put on the object that is written. It then comes to the exit if all its reads
are of locations and fixed addresses, which is so if those of the invariant and of the written location are;
and if not, there is a fault. -/
theorem atExit_returns (hf : ∀ e ∈ f.terms, e.Obtainable) (made : make? type object f = .ok (some i))
    (hnow : ∀ e ∈ i.formula.terms, ∀ a, e.Reaches a → a.group ≠ .modifier)
    (hw : ∀ o ∈ i.object?, Walk.Suits o w) (hbase : ∀ o ∈ i.object?, ∀ b ∈ base, Walk.Suits o b)
    (hmemory : ∀ g, i.exitFormula w = .ok g → ∀ s,
      ∀ a ∈ ((frame.memory.view .exit frame.memory.exitPoint g).run s).1,
        ∀ e ∈ a.formula.terms, Unreferenced frame.id e) :
    ∃ g, relocate i.object? (some w) i.formula = .ok g ∧
      (i.formula.Readable → (i.object?.isSome = true → w.Readable) → g.Readable) ∧
      (g.Readable → ∀ s, ∃ arrival, ((i.atExit frame w base).run.run s).1 = .ok arrival) ∧
      (¬ g.Readable → ∀ s, ∃ t, ((i.atExit frame w base).run.run s).1 = .error (.notLvalue t)) := by
  have hformula := current_of_make? hf made hnow
  obtain ⟨g, hg, hbuilt, hreads⟩ := exists_relocate hformula (fun o ho => location_of_object? ho)
    (fun o ho w' hw' => Option.some.inj hw' ▸ hw o ho)
  refine ⟨g, hg, fun hi hw => hreads hi fun ho w' hw' => Option.some.inj hw' ▸ hw ho, fun hreadable s => ?_,
    fun hreadable s => ?_⟩
  · rcases exitReads_cases hbuilt with ⟨-, g', hg'⟩ | ⟨hnot, -⟩
    · have hexit := exitFormula_ok hg hg'
      obtain ⟨shown, hshown⟩ := exists_shownFor hformula hbase
      exact exists_run_atExit hexit hshown (hmemory g' hexit) s
    · exact absurd hreadable hnot
  · rcases exitReads_cases hbuilt with ⟨hok, -⟩ | ⟨-, t, ht⟩
    · exact absurd hok hreadable
    · exact ⟨t, run_atExit_error (exitFormula_error ((heapExitFormula?_eq hg).trans ht)) s⟩

section Examples

def successorRead : Expr := .of (.access .deref (Walk.member .receiver nextField))

def enclosing : Expr := .of (.access (.container nextField) (.of (.access .deref (.var (.ofGlobal "h")))))

theorem obtainable_successorRead : successorRead.Obtainable :=
  .make (s := .access .deref (Walk.member .receiver nextField))
    (List.forall_mem_singleton.2 (Walk.obtainable_member .receiver nextField)) rfl

theorem not_belowFields_deref {t x : Expr} : ¬ Walk.BelowFields (.of (.access .deref t)) x := by
  intro hx
  obtain ⟨y, hy, -⟩ := hx.exists_fieldBase?
  cases hy

theorem suits_enclosing : Walk.Suits .receiverObject enclosing where
  obtainable := .make (s := .access (.container nextField) (.of (.access .deref (.var (.ofGlobal "h")))))
    (List.forall_mem_singleton.2 (Walk.obtainable_deref_var (.ofGlobal "h"))) rfl
  location := rfl
  apart x hx hopened := by
    obtain ⟨y, hy, heq | hbelow⟩ := hx.exists_fieldBase?
    · cases hy
      cases heq
      cases hopened
    · cases hy
      exact absurd hbelow not_belowFields_deref

theorem suits_globalPointee : Walk.Suits .receiverObject globalPointee where
  obtainable := Walk.obtainable_deref_var (.ofGlobal "g")
  location := rfl
  apart _ hx := absurd hx not_belowFields_deref

theorem readable_deref_var (v : Variable) : (Expr.of (.access .deref (.var v))).Readable := by
  refine Expr.readable_of_children (fun t ht => ?_) (List.forall_mem_singleton.2 ?_)
  · cases ht
    exact .inr rfl
  · exact Expr.readable_of_children (fun t ht => by cases ht) (List.forall_mem_nil _)

theorem readable_enclosing : enclosing.Readable :=
  Expr.readable_of_children (fun t ht => by cases ht) (List.forall_mem_singleton.2 (readable_deref_var _))

theorem readable_member (v : Variable) (field : Field) : (Walk.member v field).Readable :=
  Expr.readable_of_children (fun t ht => by cases ht) (List.forall_mem_singleton.2 (readable_deref_var v))

theorem readable_successorRead : successorRead.Readable := by
  refine Expr.readable_of_children (fun t ht => ?_) (List.forall_mem_singleton.2 (readable_member _ _))
  cases ht
  exact .inr rfl

theorem unreferenced_counting (g : Formula) (s : Nat) :
    ∀ a ∈ ((countingFrame.memory.view .exit countingFrame.memory.exitPoint g).run s).1,
      ∀ e ∈ a.formula.terms, Unreferenced countingFrame.id e := by
  have hpossible : (tested "k").isFalse = false := rfl
  have hanswer : ((countingFrame.memory.view .exit countingFrame.memory.exitPoint g).run s).1 =
      [⟨tested "x", tested "k"⟩] := by
    change Alternatives.push [] (tested "x") (tested "k") = _
    simp [Alternatives.push, hpossible]
  rw [hanswer, List.forall_mem_singleton, tested, Formula.of, Formula.terms, List.forall_mem_singleton]
  intro a ha inner hframe
  cases ha.eq_of_leaf rfl
  cases hframe

theorem forall_leads_member {v : Variable} {field : Field} {p : Expr → Prop} (hmember : p (Walk.member v field))
    (hobject : p (Walk.pointee v)) (hvar : p (.var v)) {scope : Walk.Scope} :
    ∀ a, scope.Leads (Walk.member v field) a → p a := by
  cases scope <;>
    exact Walk.forall_leads hmember (List.forall_mem_singleton.2 (Walk.forall_leads hobject
      (List.forall_mem_singleton.2 (Walk.forall_leads hvar (List.forall_mem_nil _)))))

theorem forall_leads_successorRead {p : Expr → Prop} (hread : p successorRead)
    (hmember : p (Walk.member .receiver nextField)) (hobject : p .receiverObject)
    (hreceiver : p (.var .receiver)) {scope : Walk.Scope} : ∀ a, scope.Leads successorRead a → p a := by
  refine Walk.forall_leads hread ?_
  cases scope <;>
    exact List.forall_mem_singleton.2 (forall_leads_member hmember hobject hreceiver)

/-- The field that is read cancels against the one that the written object is found by. -/
theorem atExit_returns_of_enclosing :
    ∃ i : Invariant, make? (some "node") none (.of (.nonzero successorRead)) = .ok (some i) ∧
      i.object? = some .receiverObject ∧ Walk.Suits .receiverObject enclosing ∧
      Walk.Suits .receiverObject globalPointee ∧ i.formula.Readable ∧ enclosing.Readable ∧
      ∀ s, ∃ arrival, ((i.atExit countingFrame enclosing (some globalPointee)).run.run s).1 = .ok arrival := by
  have made : make? (some "node") none (.of (.nonzero successorRead)) =
      .ok (some ⟨some "node", .of (.nonzero successorRead)⟩) := by
    refine make?_nonzero (forall_leads_successorRead (p := (isOffHeap · = false)) rfl rfl rfl rfl) ?_
    refine forall_leads_successorRead (fun t ht => ?_) (fun t ht => by cases ht) (fun t ht => ?_)
      (fun t ht => by cases ht)
    · cases ht
      exact Nat.le_refl 1
    · cases ht
      exact Nat.zero_le 1
  have hbuilt : ∀ e ∈ (Formula.of (.nonzero successorRead)).terms, e.Obtainable := by
    rw [terms_nonzero]
    exact List.forall_mem_singleton.2 obtainable_successorRead
  have hnow : ∀ e ∈ (Formula.of (.nonzero successorRead)).terms, ∀ a, e.Reaches a → a.group ≠ .modifier := by
    rw [terms_nonzero]
    refine List.forall_mem_singleton.2 fun a ha => ?_
    exact forall_leads_successorRead (p := (·.group ≠ .modifier)) (by decide) (by decide) (by decide)
      (by decide) a (Walk.leads_all_iff.2 ha)
  have hreads : (Formula.of (.nonzero successorRead)).Readable := by
    rw [Formula.Readable, terms_nonzero]
    exact List.forall_mem_singleton.2 readable_successorRead
  let i : Invariant := ⟨some "node", .of (.nonzero successorRead)⟩
  have hw : ∀ o ∈ i.object?, Walk.Suits o enclosing := by
    intro o ho
    cases ho
    exact suits_enclosing
  have hbase : ∀ o ∈ i.object?, ∀ b ∈ some globalPointee, Walk.Suits o b := by
    intro o ho b hb
    cases ho
    cases hb
    exact suits_globalPointee
  obtain ⟨g, -, hg, hreturns, -⟩ :=
    atExit_returns hbuilt made hnow hw hbase fun g _ s => unreferenced_counting g s
  exact ⟨i, made, rfl, suits_enclosing, suits_globalPointee, hreads, readable_enclosing,
    hreturns (hg hreads fun _ => readable_enclosing)⟩

def computedAddress : Expr := .of (.binary .add .unbounded none globalPointee (.int 1))

def computedRead : Expr := .of (.access .deref computedAddress)

theorem obtainable_computedRead : computedRead.Obtainable := by
  have hone : (Expr.int 1).Obtainable := .make (s := .int 1) (List.forall_mem_nil _) rfl
  have hsum : computedAddress.Obtainable := .make (s := .binary .add .unbounded none globalPointee (.int 1))
    (List.forall_mem_cons.2 ⟨Walk.obtainable_deref_var _, List.forall_mem_singleton.2 hone⟩) rfl
  exact .make (s := .access .deref computedAddress) (List.forall_mem_singleton.2 hsum) rfl

theorem not_readable_computedRead : ¬ computedRead.Readable := by
  intro hreads
  rcases hreads _ (.refl _) computedAddress rfl with hfixed | hlocation
  · cases hfixed
  · cases hlocation

theorem forall_leads_computedRead {p : Expr → Prop} (hread : p computedRead) (haddress : p computedAddress)
    (hone : p (.int 1)) (hpointee : p globalPointee) (hvar : p (.var (.ofGlobal "g"))) {scope : Walk.Scope} :
    ∀ a, scope.Leads computedRead a → p a := by
  refine Walk.forall_leads hread ?_
  cases scope <;>
    exact List.forall_mem_singleton.2 (Walk.forall_leads haddress (List.forall_mem_cons.2
      ⟨forall_leads_globalPointee hpointee hvar,
        List.forall_mem_singleton.2 (Walk.forall_leads hone (List.forall_mem_nil _))⟩))

/-- A number that was computed is dereferenced: the invariant is accepted, but cannot be moved to any writer. -/
theorem atExit_faults_of_computed_address :
    Expr.deref computedAddress = .ok computedRead ∧ computedRead.Obtainable ∧
    ∃ i : Invariant, make? none none (Formula.nonzero computedRead) = .ok (some i) ∧
      (∀ e ∈ i.formula.terms, ∀ a, e.Reaches a → a.group ≠ .modifier) ∧
      ∀ s, ∃ t, ((i.atExit countingFrame (.var (.ofGlobal "h")) none).run.run s).1 = .error (.notLvalue t) := by
  have hnonzero : Formula.nonzero computedRead = .of (.nonzero computedRead) :=
    Formula.nonzero_of (by simp) (by simp)
  refine ⟨rfl, obtainable_computedRead, ⟨none, .of (.nonzero computedRead)⟩, ?_, ?_, fun s => ?_⟩
  · rw [hnonzero]
    refine make?_nonzero (forall_leads_computedRead (p := (isOffHeap · = false)) rfl rfl rfl rfl rfl) ?_
    refine forall_leads_computedRead (fun t ht => ?_) (fun t ht => by cases ht) (fun t ht => by cases ht)
      (fun t ht => ?_) (fun t ht => by cases ht)
    · cases ht
      exact Nat.zero_le 1
    · cases ht
      exact Nat.zero_le 1
  · rw [terms_nonzero]
    refine List.forall_mem_singleton.2 fun a ha => ?_
    exact forall_leads_computedRead (p := (·.group ≠ .modifier)) (by decide) (by decide) (by decide) (by decide)
      (by decide) a (Walk.leads_all_iff.2 ha)
  · have hbuilt : ∀ e ∈ (Formula.of (.nonzero computedRead)).terms, e.Obtainable := by
      rw [terms_nonzero]
      exact List.forall_mem_singleton.2 obtainable_computedRead
    rcases exitReads_cases hbuilt with ⟨hreads, -⟩ | ⟨-, t, ht⟩
    · rw [Formula.Readable, terms_nonzero, List.forall_mem_singleton] at hreads
      exact absurd hreads not_readable_computedRead
    · exact ⟨t, run_atExit_error (exitFormula_error ((heapExitFormula?_eq rfl).trans ht)) s⟩

/-- An invariant about a field of the receiver, and a written object that is found from the exit value of its
own field: putting it in the place of the receiver does not end. -/
theorem atExit_endless (owner : String) (field : Field) :
    let written := Walk.aroundExit .receiver field
    written.Obtainable ∧ written.isLvalueTarget = true ∧ written.Readable ∧
    ∃ i : Invariant, make? (some owner) none (Formula.nonzero (Walk.member .receiver field)) = .ok (some i) ∧
      i.formula.Readable ∧ (∀ e ∈ i.formula.terms, ∀ a, e.Reaches a → a.group ≠ .modifier) ∧
      ∀ s, ((i.atExit frame written base).run.run s).1 = .error .endless := by
  let e := Walk.member .receiver field
  have hnonzero : Formula.nonzero e = .of (.nonzero e) := Formula.nonzero_of (by simp) (by simp)
  have hreads : (Walk.aroundExit .receiver field).Readable := by
    refine Expr.readable_of_children (fun t ht => by cases ht) (List.forall_mem_singleton.2 ?_)
    exact Expr.readable_of_children (fun t ht => by cases ht) (List.forall_mem_nil _)
  refine ⟨Walk.obtainable_aroundExit _ _, rfl, hreads, ⟨some owner, .of (.nonzero e)⟩, ?_, ?_, ?_, fun s => ?_⟩
  · rw [hnonzero]
    refine make?_nonzero (forall_leads_member (p := (isOffHeap · = false)) rfl rfl rfl) ?_
    refine forall_leads_member (fun t ht => by cases ht) (fun t ht => ?_) (fun t ht => by cases ht)
    cases ht
    exact Nat.zero_le 1
  · rw [Formula.Readable, terms_nonzero]
    exact List.forall_mem_singleton.2 (readable_member _ _)
  · rw [terms_nonzero]
    refine List.forall_mem_singleton.2 fun a ha => ?_
    exact forall_leads_member (p := (·.group ≠ .modifier)) (fun h => by cases h) (fun h => by cases h)
      (fun h => by cases h) a (Walk.leads_all_iff.2 ha)
  · refine run_atExit_error (exitFormula_error ?_) s
    have hendless : relocate (some .receiverObject) (some (Walk.aroundExit .receiver field))
        (.of (.nonzero e)) = .error .endless := Walk.replaceFormula_endless .receiver field _
    change heapExitFormula? (some .receiverObject) (some (Walk.aroundExit .receiver field)) _ = _
    rw [heapExitFormula?, hendless]
    rfl

end Examples

end Invariant

end Search
end Retrace
