import Retrace.Proofs.Search.ExitConversion
import Retrace.Proofs.Search.FrameRemoval
import Retrace.Proofs.Walk.Recursion
import Retrace.Search.Callee

/-!
A formula right after a call or loop, in terms of the exit of what is entered there. What the call left behind is
what the callee has at its exit. One takes the place of the other, and around it nothing folds or cancels: so
there is always a result, and it is as true as the formula wherever the two have the same value. The mapper takes
note when it is called on something left behind. It is called once on every node in reach, so in the end the note
says whether the formula depends on the call (`found_iff`).
-/

set_option autoImplicit false

namespace Retrace

theorem Walk.LayerKeeps.layerGives_terms {q : Fault → Prop} {Q : Expr → Prop} {P : Expr → Expr → Prop}
    {P' : Expr → Option Expr → Prop} {R : Formula → Formula → Prop} (layer : LayerKeeps P R)
    (hsome : ∀ e, ¬ P' e none) (hP : ∀ e e', P' e (some e') → P e e') :
    LayerGives q Q P' (fun b => ∀ e ∈ b.terms, Q e) fun b r => ∃ b', r = some b' ∧ R b b' where
  tested b e hb he := hb e (Formula.mem_terms_of_clause he)
  operand b hb g hg e he := hb e (Formula.mem_terms_of_mem_operands hg he)
  lost b _ h := by
    obtain ⟨e, -, hnone⟩ | ⟨g, -, g', hnone, -⟩ := h
    · exact absurd hnone (hsome e)
    · cases hnone
  nonzero b e e' _ hb he' := ⟨_, rfl, layer.nonzero b e e' hb (hP e e' he')⟩
  operands b bs _ hb hbs := by
    have hbs : List.Forall₂ R b.operands bs := by
      refine hbs.imp fun g g' hg => ?_
      obtain ⟨_, hsome, hR⟩ := hg
      cases hsome
      exact hR
    obtain ⟨b', hb'⟩ := Formula.exists_withOperands hbs.length_eq.symm
    rw [hb']
    exact ⟨b', rfl, layer.operands b bs b' hb hbs hb'⟩

namespace Search

open Retrace.Expr (Incoming)
open Walk (StepGives Exchanged)

variable {id point : Nat} {e a callee : Expr} {kind : Option Expr} {f g : Formula}

section Opening

theorem opens_of_reaches {b : Expr} (h : e.Reaches a) (hb : Opens id a b) : Opens id e b := by
  induction h with
  | refl => exact hb
  | child mem _ ih => exact .child mem (ih hb)

theorem forall_opens_iff {p : Expr → Prop} :
    (∀ a, Opens id e a → p a) ↔
      ∀ a, e.Reaches a → p a ∧ ∀ inner, a.shape = .frame inner id → ∀ b, Opens id inner b → p b := by
  constructor
  · intro h a ha
    refine ⟨h a (opens_of_reaches ha (.refl a)), fun inner hshape b hb => ?_⟩
    exact h b (opens_of_reaches ha (.value hshape hb))
  · intro h a ha
    induction ha with
    | refl e => exact (h e (.refl e)).1
    | child mem _ ih => exact ih fun b hb => h b (.child mem hb)
    | value shape opens => exact (h _ (.refl _)).2 _ shape _ opens

/-- What holds of all leaves inside and does not depend on the operands of the other nodes still does after
references to the frame are taken off. -/
theorem stepKeeps_opens {p : Expr → Prop} (hsame : ∀ s s', Shape.SameOperator s s' → p (.of s'))
    (hint : ∀ v, p (.int v)) :
    Walk.StepKeeps .all .drop (referenceMapper id)
      fun e e' => (∀ a, Opens id e a → p a) → ∀ a, Opens id e' a → p a := by
  refine Walk.stepKeeps_of_answered fun e cs value hcs hvalue e' he' he => ?_
  cases eq_withoutReference he'
  have hchildren := (List.forall₂_and_left _ _).2 ⟨fun c hc a ha => he a (.child hc ha), hcs⟩
  have hopens : ∀ a, Opens id value a → p a := by
    refine forall_opens_iff.2 (Walk.forall_reaches_rebuilt hvalue ?_ (fun s kind => ?_) (fun v => ?_) fun c hc => ?_)
    · exact ⟨he e (.refl e), fun inner hshape b hb => he b (.value hshape hb)⟩
    · refine ⟨hsame _ s kind, ?_⟩
      rintro inner rfl
      cases kind.hidden_eq
    · refine ⟨hint v, fun inner hshape => ?_⟩
      cases hshape
    · exact forall_opens_iff.1 (Walk.forall_mem_of_forall₂ (fun _ _ hc => hc.2 hc.1) hchildren c hc)
  rcases withoutReference_cases id value with hreference | ⟨-, hself⟩
  · exact fun a ha => hopens a (.value hreference ha)
  · rwa [hself]

theorem forall_opens_of_dropReferences {p : Expr → Prop} (h : dropReferences id f = .ok g)
    (hsame : ∀ s s', Shape.SameOperator s s' → p (.of s')) (hint : ∀ v, p (.int v))
    (hf : ∀ e ∈ f.terms, ∀ a, Opens id e a → p a) : ∀ e ∈ g.terms, ∀ a, Opens id e a → p a := by
  have hnot (e : Expr) (w : Width) (x : Expr) (hshape : e.shape = .unary .not w x)
      (he : ∀ a, Opens id e a → p a) (a : Expr) (ha : Opens id x a) : p a :=
    he a (.child (Expr.mem_children_of_unary hshape) ha)
  exact Walk.mapFormula_related (m := Id) (stepKeeps_opens hsame hint) (Formula.layerKeeps_terms _ hnot)
    (returns_dropReferences? h) hf

end Opening

section Exchange

def LeftBehind (point : Nat) (e callee : Expr) (kind : Option Expr) : Prop :=
  ∃ overwrite, e.shape = .clobber callee kind overwrite point

theorem LeftBehind.readAtExit (h : LeftBehind point e callee kind) : ∃ t, ReadAtExit e t kind := by
  obtain ⟨overwrite, hshape⟩ := h
  exact ⟨overwrite, .clobber hshape⟩

theorem not_leftBehind (h : e.hidden = []) : ¬ LeftBehind point e callee kind := by
  intro hleft
  obtain ⟨t, hread⟩ := hleft.readAtExit
  exact hread.hidden_ne_nil h

theorem isClobberAt_iff : isClobberAt point e = true ↔ ∃ callee kind, LeftBehind point e callee kind := by
  unfold isClobberAt LeftBehind
  cases e.shape with
  | clobber callee kind overwrite p =>
    simp only [decide_eq_true_eq, Shape.clobber.injEq]
    constructor
    · rintro rfl
      exact ⟨callee, kind, overwrite, rfl, rfl, rfl, rfl⟩
    · rintro ⟨_, _, _, -, -, -, hp⟩
      exact hp
  | _ => simp

theorem exitOfClobber_of_not (h : ∀ callee kind, ¬ LeftBehind point e callee kind) : exitOfClobber point e = .ok e := by
  unfold exitOfClobber
  split
  · rename_i callee kind overwrite p hshape
    refine if_neg ?_
    rintro rfl
    exact h callee kind ⟨overwrite, hshape⟩
  · rfl

theorem exit_eq_ok (ht : a.isLvalueTarget = true) (hkind : ∀ k ∈ kind, k.isValueKind = true) :
    Expr.exit a kind = .ok (.of (.moment .exit a kind)) := by
  have htarget : a.checkLvalueTarget = .ok () := if_pos ht
  have hcheck : Expr.checkValueKind kind = .ok () := by
    cases kind with
    | none => rfl
    | some k => exact if_pos (hkind k rfl)
  rw [Expr.exit, Expr.moment, hcheck, htarget]
  rfl

def IsExit (e : Expr) : Prop := ∃ t kind, e.shape = .moment .exit t kind

theorem incoming_anyExit : Incoming IsExit fun _ => False :=
  Expr.incoming_of_moment fun _ hx => ⟨.exit, hx⟩

theorem LeftBehind.exitOfClobber_eq (h : LeftBehind point e callee kind) (he : e.Obtainable)
    (hcallee : callee.isLvalueTarget = true) :
    exitOfClobber point e = .ok (.of (.moment .exit callee kind)) ∧
      (Expr.of (.moment .exit callee kind)).Obtainable := by
  obtain ⟨t, hread⟩ := h.readAtExit
  have hexit := exit_eq_ok hcallee (hread.checked he).2
  obtain ⟨overwrite, hshape⟩ := h
  constructor
  · rw [exitOfClobber, hshape]
    exact (if_pos rfl).trans hexit
  · refine .make (s := .moment .exit callee kind) (fun c hc => he.part ?_) hexit
    rw [Expr.parts, hshape]
    simp only [Shape.parts] at hc ⊢
    grind

def Located (point : Nat) (e : Expr) : Prop :=
  ∀ a, e.Reaches a → ∀ callee kind, LeftBehind point a callee kind → callee.isLvalueTarget = true

theorem Located.child {c : Expr} (h : Located point e) (hc : c ∈ e.children) : Located point c :=
  fun a ha => h a (.child hc ha)

def Independent (point : Nat) (e : Expr) : Prop := ∀ a, e.Reaches a → ∀ callee kind, ¬ LeftBehind point a callee kind

def ValuedAtExit (I : Interpretation) (σ : Valuation) (point : Nat) (e : Expr) : Prop :=
  ∀ a, e.Reaches a → ∀ callee kind, LeftBehind point a callee kind →
    I.eval σ a = I.eval σ (.of (.moment .exit callee kind))

theorem ValuedAtExit.child {I : Interpretation} {σ : Valuation} {c : Expr} (h : ValuedAtExit I σ point e)
    (hc : c ∈ e.children) : ValuedAtExit I σ point c := fun a ha => h a (.child hc ha)

theorem independent_of_children (here : ∀ callee kind, ¬ LeftBehind point e callee kind)
    (hcs : ∀ c ∈ e.children, Independent point c) : Independent point e := by
  intro a ha
  cases ha with
  | refl => exact here
  | child mem reaches => exact hcs _ mem a reaches

structure Conveyed (point : Nat) (e e' : Expr) : Prop where
  independent : Independent point e'
  eval_eq : ∀ I σ, ValuedAtExit I σ point e → I.eval σ e' = I.eval σ e

def exitAnswer (point : Nat) : Walk.Answers := fun value _ => (exitOfClobber point value).map some

def noteLeftBehind (point : Nat) : Walk.Note Bool := fun value _ found => found || isClobberAt point value

theorem clobberMapper_eq : clobberMapper point = Walk.answering (exitAnswer point) (noteLeftBehind point) := by
  unfold clobberMapper Walk.answering noteLeftBehind exitAnswer
  congr 1
  funext value node
  cases isClobberAt point value with
  | true => simp; rfl
  | false => simp; rfl

theorem gives_of_exitAnswer {value node : Expr} {p : Option Expr → Prop}
    (h : Guarantee.Outcome p (fun _ => False) (exitAnswer point value node)) :
    (Guarantee.sure (StateM Bool)).Gives ((clobberMapper point).map value node) p := by
  rw [clobberMapper_eq]
  rintro r ⟨s, rfl⟩
  exact h

theorem stepGives_calleeExit (point : Nat) :
    StepGives (.returned (StateM Bool)) (fun _ => False) .all .drop (clobberMapper point)
      (fun e => e.Obtainable ∧ Located point e) (Exchanged IsExit (Conveyed point)) := by
  refine Walk.stepGives_exchange incoming_anyExit (fun e he => he.1) (fun e he c hc => ?_)
    (fun hkeep => by cases hkeep) fun e cs value he hkin hcs hvalue h => gives_of_exitAnswer ?_
  · exact ⟨he.1.part (Expr.mem_parts_of_mem_children hc), he.2.child hc⟩
  rw [exitAnswer]
  have hindependent : ∀ c ∈ cs, Independent point c := Walk.forall_mem_of_forall₂ (fun _ _ hc => hc.independent) hcs
  cases h with
  | same unchanged =>
    -- What a call left behind is a leaf, so it comes to the mapper as it is.
    by_cases hleft : ∃ callee kind, LeftBehind point e callee kind
    · obtain ⟨callee, kind, hleft⟩ := hleft
      obtain ⟨hexit, hbuilt⟩ := hleft.exitOfClobber_eq he.1 (he.2 e (.refl e) callee kind hleft)
      rw [hexit]
      have hlocation : e.isLvalueTarget = true := by
        obtain ⟨overwrite, hshape⟩ := hleft
        rw [Expr.isLvalueTarget, Expr.group, hshape]
        rfl
      refine ⟨_, rfl, .came hlocation ⟨callee, kind, rfl⟩, hbuilt, ?_, fun I σ hvalued => ?_⟩
      · refine independent_of_children (fun _ _ hleft' => ?_) (List.forall_mem_nil _)
        obtain ⟨_, hshape⟩ := hleft'
        cases hshape
      · exact (hvalued e (.refl e) callee kind hleft).symm
    · have hnot : ∀ callee kind, ¬ LeftBehind point e callee kind :=
        fun callee kind h => hleft ⟨callee, kind, h⟩
      rw [exitOfClobber_of_not hnot]
      subst unchanged
      exact ⟨e, rfl, .self, hvalue, independent_of_children hnot hindependent, fun _ _ _ => rfl⟩
  | node kind operands =>
    -- Exit values are neither constants nor steps into a field, so the operator stays whatever came in below it.
    have hnot (callee : Expr) (k : Option Expr) : ¬ LeftBehind point value callee k := not_leftBehind kind.hidden_eq
    rw [exitOfClobber_of_not hnot]
    subst operands
    refine ⟨value, rfl, .node kind, hvalue, independent_of_children hnot hindependent, ?_⟩
    intro I σ hvalued
    rw [Interpretation.eval_eq, Interpretation.eval_eq]
    have hchildren := (List.forall₂_and_left _ _).2 ⟨fun c hc => hvalued.child hc, hcs⟩
    exact Interpretation.layer_congr kind (hchildren.imp fun c c' hc => hc.2.eval_eq I σ hc.1)
  | left _ left => exact left.elim

theorem exists_calleeExit (hg : ∀ e ∈ g.terms, e.Obtainable ∧ Located point e) :
    ∃ g', ((Walk.mapFormula .all .drop (clobberMapper point) g).run.run false).1 = .ok (some g') ∧
      (∀ e ∈ g'.terms, Independent point e) ∧
      ∀ I σ, (∀ e ∈ g.terms, ValuedAtExit I σ point e) → g'.holds (I.eval σ) = g.holds (I.eval σ) := by
  have hlost (e : Expr) : ¬ Exchanged IsExit (Conveyed point) e none := by
    rintro ⟨_, hnone, -⟩
    cases hnone
  have hconveyed (e e' : Expr) (h : Exchanged IsExit (Conveyed point) e (some e')) : Conveyed point e e' := by
    obtain ⟨_, hsome, -, -, hconveyed⟩ := h
    cases hsome
    exact hconveyed
  -- One run of the mapping, followed by each relation between the formulas in turn.
  have run {P : Expr → Expr → Prop} {R : Formula → Formula → Prop} (layer : Walk.LayerKeeps P R)
      (hP : ∀ e e', Conveyed point e e' → P e e') :
      ∃ g', ((Walk.mapFormula .all .drop (clobberMapper point) g).run.run false).1 = .ok (some g') ∧ R g g' := by
    have layer' := layer.layerGives_terms (q := fun _ => False) (Q := fun e => e.Obtainable ∧ Located point e) hlost
      fun e e' h => hP e e' (hconveyed e e' h)
    obtain ⟨r, hr, g', rfl, hR⟩ := Guarantee.sure_iff.1 ((stepGives_calleeExit point).mapFormula layer' hg) false
    exact ⟨g', hr, hR⟩
  have hnot (e : Expr) (w : Width) (x : Expr) (hshape : e.shape = .unary .not w x) (h : Independent point e) :
      Independent point x := fun a ha => h a (.child (Expr.mem_children_of_unary hshape) ha)
  obtain ⟨g', hrun, hindependent⟩ := run (Formula.layerKeeps_terms (fun _ => True) hnot)
    fun e e' h _ => h.independent
  refine ⟨g', hrun, hindependent fun _ _ => trivial, fun I σ hvalued => ?_⟩
  have sensible : Formula.Sensible (I.eval σ) := Walk.sensible_eval
  have layer := Formula.layerKeeps_holds (ValuedAtExit I σ point) (I.eval σ) sensible
  obtain ⟨g'', hrun', hholds⟩ := run layer fun e e' h => h.eval_eq I σ
  cases hrun.symm.trans hrun'
  exact hholds hvalued

end Exchange

section Calls

open Walk (mapEach noted rebuilt recurse recurseChild)

theorem noted_noteLeftBehind (calls : List Walk.Call) (found : Bool) :
    noted (noteLeftBehind point) calls found = (found || calls.any fun call => isClobberAt point call.value) := by
  induction calls generalizing found with
  | nil => rw [List.any_nil, Bool.or_false]; rfl
  | cons call calls ih =>
    rw [List.any_cons, ← Bool.or_assoc]
    exact ih _

theorem tidy_exitAnswer (point : Nat) : Walk.Tidy .all .drop (exitAnswer point) [] [] := Walk.tidy_nil

theorem located_of_reaches (h : e.Reaches a) (he : e.Obtainable) (hlocated : Located point e) :
    a.Obtainable ∧ Located point a := by
  induction h with
  | refl => exact ⟨he, hlocated⟩
  | child mem _ ih => exact ih (he.part (Expr.mem_parts_of_mem_children mem)) (hlocated.child mem)

theorem independent_of_recurse {e' : Expr} (he : e.Obtainable) (hlocated : Located point e)
    (h : recurse .all .drop (exitAnswer point) e = .ok (some e')) : Independent point e' := by
  obtain ⟨r, hr, _, rfl, -, -, hconveyed⟩ :=
    Guarantee.sure_iff.1 ((stepGives_calleeExit point).map ⟨he, hlocated⟩) false
  obtain ⟨calls, hrun, -⟩ := (Walk.tracks_mapExpr e (tidy_exitAnswer point)).exists_calls
  rw [clobberMapper_eq, Walk.map, hrun Bool (noteLeftBehind point) false, h] at hr
  cases hr
  exact hconveyed.independent

theorem independent_of_children_recursed {cs : List Expr} (he : e.Obtainable) (hlocated : Located point e)
    (h : mapEach (recurseChild .all .drop (exitAnswer point)) e.children = .ok (some cs)) :
    ∀ c ∈ cs, Independent point c := by
  have hmapped := Walk.mapEach_gives (.returned (Except Fault)) (R := fun _ r => ∀ c ∈ r, Independent point c)
    e.children (fun c hc r hr c' hc' => ?_) _ h
  · exact Walk.forall_mem_of_forall₂ (fun _ c' hc => hc c' rfl) hmapped
  · cases hc'
    rw [Walk.recurseChild_drop] at hr
    exact independent_of_recurse (he.part (Expr.mem_parts_of_mem_children hc)) (hlocated.child hc) hr

theorem leftBehind_of_call {call : Walk.Call} {cs : List Expr} (hnode : call.node.Obtainable)
    (hlocated : Located point call.node)
    (hcs : mapEach (recurseChild .all .drop (exitAnswer point)) call.node.children = .ok (some cs))
    (hvalue : rebuilt .drop call.node cs = .ok (some call.value)) (h : isClobberAt point call.value = true) :
    ∃ callee kind, LeftBehind point call.node callee kind := by
  have hindependent := independent_of_children_recursed hnode hlocated hcs
  obtain ⟨callee, kind, hleft⟩ := isClobberAt_iff.1 h
  refine Walk.forall_reaches_rebuilt (p := fun a => ∀ callee kind, LeftBehind point a callee kind →
    ∃ callee kind, LeftBehind point call.node callee kind) hvalue (fun callee kind h => ⟨callee, kind, h⟩)
    (fun s kind _ _ h => ?_) (fun v _ _ h => ?_) (fun c hc a ha callee kind h => ?_) call.value (.refl _) callee kind hleft
  · exact absurd h (not_leftBehind kind.hidden_eq)
  · exact absurd h (not_leftBehind rfl)
  · exact absurd h (hindependent c hc a ha callee kind)

/-- What was left behind is a leaf, so the mapper sees it as it is. -/
theorem isClobberAt_of_call {call : Walk.Call} {cs : List Expr}
    (hcs : mapEach (recurseChild .all .drop (exitAnswer point)) call.node.children = .ok (some cs))
    (hvalue : rebuilt .drop call.node cs = .ok (some call.value)) (h : LeftBehind point call.node callee kind) :
    isClobberAt point call.value = true := by
  obtain ⟨t, hread⟩ := h.readAtExit
  rw [hread.children_eq] at hcs
  cases hcs
  rw [← hread.children_eq, Walk.rebuilt_self] at hvalue
  have hsame : call.node = call.value := Option.some.inj (Except.ok.inj hvalue)
  rw [← hsame]
  exact isClobberAt_iff.2 ⟨callee, kind, h⟩

theorem found_iff {g' : Formula} (hg : ∀ e ∈ g.terms, e.Obtainable ∧ Located point e)
    (h : ((Walk.mapFormula .all .drop (clobberMapper point) g).run.run false).1 = .ok (some g')) :
    ((Walk.mapFormula .all .drop (clobberMapper point) g).run.run false).2 = true ↔
      ∃ e ∈ g.terms, ∃ a, e.Reaches a ∧ ∃ callee kind, LeftBehind point a callee kind := by
  have hreach : ∀ e ∈ g.terms, ∀ a, e.Reaches a → ∃ e ∈ g.terms, e.Reaches a := fun e he a ha => ⟨e, he, ha⟩
  obtain ⟨calls, hrun, horderly, -, hwithin, hbelow⟩ :=
    (Walk.tracks_mapFormulaMemo g hreach (tidy_exitAnswer point)).exists_calls
  rw [clobberMapper_eq, Walk.mapFormula, hrun Bool (noteLeftBehind point) false] at h ⊢
  rw [noted_noteLeftBehind, Bool.false_or, List.any_eq_true]
  constructor
  · rintro ⟨call, hcall, hleft⟩
    obtain ⟨e, he, hreaches⟩ := hwithin call hcall
    obtain ⟨cs, hcs, hvalue⟩ := horderly.exists_rebuilt call hcall
    obtain ⟨hnode, hlocated⟩ := located_of_reaches hreaches (hg e he).1 (hg e he).2
    exact ⟨e, he, call.node, hreaches, leftBehind_of_call hnode hlocated hcs hvalue hleft⟩
  · rintro ⟨e, he, a, ha, callee, kind, hleft⟩
    have hcalled := hbelow _ h (Option.some_ne_none g') e he a ha rfl
    obtain ⟨call, hcall, rfl⟩ := List.mem_map.1 hcalled
    obtain ⟨cs, hcs, hvalue⟩ := horderly.exists_rebuilt call hcall
    exact ⟨call, hcall, isClobberAt_of_call hcs hvalue hleft⟩

end Calls

section Dependence

variable {m : Type → Type} {memory : Memory m}

/-- It is known what is entered at the point: the body of a loop, the function of a direct call, or one of the
functions that an indirect call may reach. -/
inductive Enters (memory : Memory m) (point : Nat) : Prop
  | loop {body : Block} (edge : memory.edge? point = some (.loop body))
  | direct {function : Expr} {arguments : Arguments} {result receiver : Option Expr} {v : Variable}
    (edge : memory.edge? point = some (.call function arguments result receiver)) (callee : function.shape = .var v)
    (storage : v.storage = .function)
  | indirect {function : Expr} {arguments : Arguments} {result receiver : Option Expr} {v : Variable}
    (edge : memory.edge? point = some (.call function arguments result receiver))
    (callee : v ∈ memory.indirectCallees point)

theorem isSome_directCallee?_iff {function : Expr} (arguments : Arguments) (result receiver : Option Expr) :
    (Edge.call function arguments result receiver).directCallee?.isSome = true ↔
      ∃ v, function.shape = .var v ∧ v.storage = .function := by
  rw [Edge.directCallee?, Option.isSome_filter]
  unfold Expr.var?
  cases function.shape <;> simp

theorem hasKnownTarget_iff : hasKnownTarget memory point = true ↔ Enters memory point := by
  unfold hasKnownTarget
  constructor
  · intro h
    split at h
    · rename_i edge hedge
      cases edge with
      | loop body => exact .loop hedge
      | call function arguments result receiver =>
        rw [Edge.isLoop, Bool.false_or, Bool.or_eq_true, isSome_directCallee?_iff] at h
        rcases h with ⟨v, hcallee, hstorage⟩ | hcallees
        · exact .direct hedge hcallee hstorage
        · have hne : memory.indirectCallees point ≠ [] := by simpa using hcallees
          obtain ⟨v, hv⟩ := List.exists_mem_of_ne_nil _ hne
          exact .indirect hedge hv
    · cases h
  · intro h
    cases h with
    | loop edge =>
      rw [edge]
      rfl
    | @direct function arguments result receiver v edge callee storage =>
      have hdirect := (isSome_directCallee?_iff arguments result receiver).2 ⟨v, callee, storage⟩
      simp [edge, hdirect]
    | indirect edge callee => simp [edge, List.ne_nil_of_mem callee]

theorem atCalleeExit_eq (hg : dropReferences id f = .ok g) {r : Option Formula} {found : Bool}
    (hrun : (Walk.mapFormula .all .drop (clobberMapper point) g).run.run false = (.ok r, found)) :
    atCalleeExit memory point f id =
      .ok (if hasKnownTarget memory point = true ∧ found = true then r else none) := by
  rw [atCalleeExit, hg]
  cases hasKnownTarget memory point with
  | false => rfl
  | true => simp [hrun, bind, Except.bind, pure, Except.pure]

/-- A formula is taken to the exit of what is entered at the point if, and only if, that is known and the formula
without references to the frame depends on what was left behind there. -/
theorem calleeExit_iff_dependent (memory : Memory m) (hf : ∀ e ∈ f.terms, e.Obtainable)
    (hlocated : ∀ e ∈ f.terms, ∀ a, Opens id e a → ∀ callee kind, LeftBehind point a callee kind →
      callee.isLvalueTarget = true)
    (hg : dropReferences id f = .ok g) :
    (∃ r, atCalleeExit memory point f id = .ok r) ∧
      ((∃ f', atCalleeExit memory point f id = .ok (some f')) ↔
        Enters memory point ∧ ∃ e ∈ g.terms, ∃ a, e.Reaches a ∧ ∃ callee kind, LeftBehind point a callee kind) ∧
      ∀ f', atCalleeExit memory point f id = .ok (some f') →
        (∀ e ∈ f'.terms, ∀ a, e.Reaches a → ∀ callee kind, ¬ LeftBehind point a callee kind) ∧
        ∀ I σ, (∀ e ∈ g.terms, ValuedAtExit I σ point e) → f'.holds (I.eval σ) = g.holds (I.eval σ) := by
  have hobtainable : ∀ e ∈ g.terms, e.Obtainable := by
    have houtcome := dropReferences_outcome id hf
    rw [hg] at houtcome
    exact houtcome.2
  have hopens : ∀ e ∈ g.terms, ∀ a, Opens id e a → ∀ callee kind, LeftBehind point a callee kind →
      callee.isLvalueTarget = true :=
    forall_opens_of_dropReferences hg (fun _ _ kind _ _ hleft => absurd hleft (not_leftBehind kind.hidden_eq))
      (fun _ _ _ hleft => absurd hleft (not_leftBehind rfl)) hlocated
  have hterms : ∀ e ∈ g.terms, e.Obtainable ∧ Located point e :=
    fun e he => ⟨hobtainable e he, fun a ha => hopens e he a (opens_of_reaches ha (.refl a))⟩
  obtain ⟨g', hrun, hindependent, hholds⟩ := exists_calleeExit hterms
  rw [← hasKnownTarget_iff, ← found_iff hterms hrun, atCalleeExit_eq hg (Prod.ext hrun rfl)]
  split
  · rename_i hdepends
    refine ⟨⟨_, rfl⟩, ⟨fun _ => hdepends, fun _ => ⟨g', rfl⟩⟩, fun f' hf' => ?_⟩
    cases hf'
    exact ⟨hindependent, hholds⟩
  · rename_i hdepends
    refine ⟨⟨_, rfl⟩, ⟨?_, fun h => absurd h hdepends⟩, fun f' hf' => ?_⟩
    · rintro ⟨f', hf'⟩
      cases hf'
    · cases hf'

section Call

variable (callee v : Variable)

def leftInVariable : Expr := .of (.clobber (.var callee) none (.var v) 7)

def referenceToLeft : Expr := .of (.frame (leftInVariable callee v) 3)

theorem obtainable_leftInVariable : (leftInVariable callee v).Obtainable :=
  .make (s := .clobber (.var callee) none (.var v) 7)
    (List.forall_mem_cons.2 ⟨Walk.obtainable_var callee, List.forall_mem_singleton.2 (Walk.obtainable_var v)⟩) rfl

theorem dropReferences_referenceToLeft :
    dropReferences 3 (.of (.nonzero (referenceToLeft callee v))) = .ok (.of (.nonzero (leftInVariable callee v))) := by
  have hne : leftInVariable callee v ≠ referenceToLeft callee v := Walk.of_ne_of (by simp)
  have hinner : withoutReference 3 (referenceToLeft callee v) = leftInVariable callee v := rfl
  have happlied := applied_referenceMapper 3 (referenceToLeft callee v) (referenceToLeft callee v)
  rw [hinner] at happlied
  rw [dropReferences_test 3 hne (Walk.run_mapExpr_leaf rfl rfl happlied), leftInVariable,
    Formula.nonzero_of (by simp) (by simp)]

theorem locations_of_referenceToLeft (point : Nat) :
    ∀ e ∈ (Formula.of (.nonzero (referenceToLeft callee v))).terms, ∀ a, Opens 3 e a →
      ∀ t kind, LeftBehind point a t kind → t.isLvalueTarget = true := by
  refine forall_terms_test_iff (p := fun e => ∀ a, Opens 3 e a → _) |>.2 ?_
  rintro a ha t kind ⟨overwrite, hshape⟩
  cases ha with
  | refl => cases hshape
  | child mem => cases mem
  | value shape opens =>
    cases shape
    cases opens with
    | refl =>
      cases hshape
      rfl
    | child mem => cases mem
    | value shape => cases shape

theorem leftBehind_of_reaches {a t : Expr} {kind : Option Expr} (ha : (leftInVariable callee v).Reaches a)
    (h : LeftBehind point a t kind) : point = 7 ∧ a = leftInVariable callee v ∧ t = .var callee ∧ kind = none := by
  cases ha.eq_of_leaf rfl
  obtain ⟨overwrite, hshape⟩ := h
  cases hshape
  exact ⟨rfl, rfl, rfl, rfl⟩

def callingMemory : Memory (StateM Nat) :=
  { countingFrame.memory with edge? := fun _ => some (.call (.var (.ofFunction "g")) .empty none none) }

def unchangedByCalls : Valuation := ⟨fun _ => 1, fun _ => 1, fun _ _ x => x, fun _ x => x⟩

theorem valuedAtExit_leftInVariable : ValuedAtExit .flat unchangedByCalls 7 (leftInVariable callee v) := by
  intro a ha t kind hleft
  obtain ⟨-, rfl, rfl, rfl⟩ := leftBehind_of_reaches callee v ha hleft
  rw [leftInVariable, Interpretation.eval_of, Interpretation.eval_of]
  change 1 = Interpretation.flat.eval unchangedByCalls (.of (.var callee))
  rw [Interpretation.eval_of]
  rfl

theorem calleeExit_iff_dependent_of_call :
    ∃ f g f' : Formula, f = .of (.nonzero (referenceToLeft (.ofGlobal "y") (.ofLocal "x"))) ∧
      (∀ e ∈ f.terms, e.Obtainable) ∧ dropReferences 3 f = .ok g ∧
      atCalleeExit callingMemory 7 f 3 = .ok (some f') ∧ atCalleeExit callingMemory 8 f 3 = .ok none ∧
      (∀ e ∈ g.terms, ValuedAtExit .flat unchangedByCalls 7 e) ∧
      f'.holds (Interpretation.flat.eval unchangedByCalls) = g.holds (Interpretation.flat.eval unchangedByCalls) := by
  have hterms := forall_terms_test_iff.2
    (obtainable_reference (obtainable_leftInVariable (.ofGlobal "y") (.ofLocal "x")) rfl 3)
  have hlocated := locations_of_referenceToLeft (.ofGlobal "y") (.ofLocal "x")
  have hg := dropReferences_referenceToLeft (.ofGlobal "y") (.ofLocal "x")
  have hleft : LeftBehind 7 (leftInVariable (.ofGlobal "y") (.ofLocal "x")) (.var (.ofGlobal "y")) none := ⟨_, rfl⟩
  obtain ⟨-, hiff, hresult⟩ := calleeExit_iff_dependent callingMemory hterms (hlocated 7) hg
  obtain ⟨⟨r, hr⟩, hother, -⟩ := calleeExit_iff_dependent callingMemory hterms (hlocated 8) hg
  obtain ⟨f', hf'⟩ := hiff.2 ⟨.direct rfl rfl rfl, _, List.mem_singleton_self _, _, .refl _, _, _, hleft⟩
  have hnone : r = none := by
    refine Option.eq_none_iff_forall_ne_some.2 ?_
    rintro f'' rfl
    obtain ⟨-, e, he, a, ha, t, kind, hleft'⟩ := hother.1 ⟨f'', hr⟩
    cases List.mem_singleton.1 he
    cases (leftBehind_of_reaches _ _ ha hleft').1
  have hvalued : ∀ e ∈ (Formula.of (.nonzero (leftInVariable (.ofGlobal "y") (.ofLocal "x")))).terms,
      ValuedAtExit .flat unchangedByCalls 7 e :=
    forall_terms_test_iff.2 (valuedAtExit_leftInVariable _ _)
  exact ⟨_, _, f', rfl, hterms, hg, hf', hnone ▸ hr, hvalued, (hresult f' hf').2 _ _ hvalued⟩

end Call

end Dependence

end Search
end Retrace
