import Retrace.Proofs.Expr.Rebuilding
import Retrace.Walk.Visit

/-!
What a walk reports: at every node in reach, what its scope reports there. The walk enters a node once and
skips it from then on, also while the node is still open; nodes are only met again below nodes that are
larger, so what is skipped has been looked through by the time that it matters.

A visitor that never stops is told the same whatever it does with it, so one that writes down what it is told
stands for all of them.
-/

set_option autoImplicit false

namespace Retrace.Walk

def Scope.next : Scope → Expr → List Expr
  | .all, e => e.children
  | .lvalues, e => e.inward

def Scope.reported : Scope → Expr → List Expr
  | .all, e => [e]
  | .lvalues, e => e.read?.toList

inductive Scope.Leads (scope : Scope) : Expr → Expr → Prop
  | refl (e : Expr) : Leads scope e e
  | next {e c a : Expr} (mem : c ∈ scope.next e) (leads : Leads scope c a) : Leads scope e a

theorem leads_all_iff {e a : Expr} : Scope.all.Leads e a ↔ e.Reaches a := by
  constructor
  · intro h
    induction h with
    | refl e => exact .refl e
    | next mem _ ih => exact .child mem ih
  · intro h
    induction h with
    | refl e => exact .refl e
    | child mem _ ih => exact .next mem ih

theorem Scope.Leads.trans {scope : Scope} {e a b : Expr} (h : scope.Leads e a) (h' : scope.Leads a b) :
    scope.Leads e b := by
  induction h with
  | refl => exact h'
  | next mem _ ih => exact .next mem (ih h')

theorem forall_leads {scope : Scope} {e : Expr} {p : Expr → Prop} (here : p e)
    (next : ∀ c ∈ scope.next e, ∀ a, scope.Leads c a → p a) : ∀ a, scope.Leads e a → p a := by
  intro a ha
  cases ha with
  | refl => exact here
  | next mem leads => exact next _ mem a leads

theorem mem_parts_of_mem_next {scope : Scope} {c e : Expr} (h : c ∈ scope.next e) : c ∈ e.parts := by
  cases scope with
  | all => exact Expr.mem_parts_of_mem_children h
  | lvalues =>
    rcases List.mem_append.1 h with hchild | hhidden
    · exact Expr.mem_parts_of_mem_children hchild
    · exact Expr.mem_parts_of_mem_hidden hhidden

section Visitors

variable {σ : Type} {scope : Scope} {v : Visitor σ}

/-- The visitor that stays to the end, but no longer listens once it has finished. -/
def Visitor.patient (v : Visitor σ) : Visitor σ :=
  ⟨fun s e => if v.finished s then s else v.visit s e, fun _ => false⟩

theorem patient_visit_eq (hv : ∀ s, v.finished s = false) : v.patient.visit = v.visit := by
  funext s e
  exact if_neg (Bool.eq_false_iff.1 (hv s))

theorem report_eq (progress : Progress σ) (e : Expr) :
    progress.report v e = { progress with state := v.patient.visit progress.state e } := by
  cases h : v.finished progress.state <;> simp [Progress.report, Visitor.patient, h]

theorem foldl_walk_of_finished {progress : Progress σ} (h : v.finished progress.state = true) (es : List Expr) :
    es.foldl (walk scope v) progress = progress := by
  induction es with
  | nil => rfl
  | cons e es ih => rw [List.foldl_cons, walk, h, Bool.true_or, if_pos rfl, ih]

/-- The walk from one node. A visitor that finishes on the way is taken nowhere and told nothing from then on, whether
or not it is asked again before what the node stands for. -/
theorem walk_layer (progress : Progress σ) (e : Expr) :
    walk scope v progress e =
      if v.finished progress.state || progress.seen.contains e then progress
      else
        let after := (scope.next e).foldl (walk scope v) { progress with seen := e :: progress.seen }
        { after with state := (scope.reported e).foldl v.patient.visit after.state } := by
  rw [walk, List.foldl_attach]
  cases scope with
  | all => simp only [report_eq]; rfl
  | lvalues =>
    simp only [List.foldl_attach, report_eq, Scope.next, Expr.inward, List.foldl_append, Scope.reported]
    congr 1
    split
    · rename_i hfinished
      rw [foldl_walk_of_finished hfinished]
      cases e.read? with
      | none => rfl
      | some t => simp [Visitor.patient, hfinished]
    · cases e.read? <;> rfl

theorem walk_eq (hv : ∀ s, v.finished s = false) (progress : Progress σ) (e : Expr) :
    walk scope v progress e =
      if progress.seen.contains e then progress
      else
        let after := (scope.next e).foldl (walk scope v) { progress with seen := e :: progress.seen }
        { after with state := (scope.reported e).foldl v.visit after.state } := by
  rw [walk_layer, hv, Bool.false_or, patient_visit_eq hv]

def recorder : Visitor (List Expr) := ⟨fun visits e => visits ++ [e], fun _ => false⟩

theorem foldl_visit_recorder (es visits : List Expr) : es.foldl recorder.visit visits = visits ++ es := by
  induction es generalizing visits with
  | nil => exact (List.append_nil visits).symm
  | cons e es ih => rw [List.foldl_cons, ih, recorder, List.append_assoc, List.singleton_append]

structure Follows (v : Visitor σ) (start : σ) (told : Progress σ) (written : Progress (List Expr)) : Prop where
  seen : told.seen = written.seen
  state : told.state = written.state.foldl v.visit start

variable {start : σ} {told : Progress σ} {written : Progress (List Expr)}

theorem follows_walk (hv : ∀ s, v.finished s = false) (e : Expr) (h : Follows v start told written) :
    Follows v start (walk scope v told e) (walk scope recorder written e) := by
  induction e using Expr.inductionOnParts generalizing told written with
  | step e ih =>
    rw [walk_eq hv, walk_eq (fun _ => rfl), h.seen]
    split
    · exact h
    · have hopen : Follows v start { told with seen := e :: written.seen }
          { written with seen := e :: written.seen } := ⟨rfl, h.state⟩
      have hnext := List.foldl_rel (l := scope.next e) hopen fun c hc _ _ => ih c (mem_parts_of_mem_next hc)
      refine ⟨hnext.seen, ?_⟩
      dsimp only
      rw [foldl_visit_recorder, List.foldl_append, hnext.state]

def visitsFrom (scope : Scope) (es : List Expr) : List Expr := (es.foldl (walk scope recorder) ⟨[], []⟩).state

def visits (scope : Scope) (f : Formula) : List Expr := visitFormula scope recorder [] f

theorem visitFormula_eq (hv : ∀ s, v.finished s = false) (start : σ) (f : Formula) :
    visitFormula scope v start f = (visits scope f).foldl v.visit start :=
  (List.foldl_rel (⟨rfl, rfl⟩ : Follows v start _ _) fun e _ _ _ => follows_walk hv e).state

end Visitors

section Completeness

variable {scope : Scope} {e t : Expr}

def Told (scope : Scope) (visits : List Expr) (e : Expr) : Prop :=
  ∀ a, scope.Leads e a → ∀ t ∈ scope.reported a, t ∈ visits

theorem told_of_next {visits : List Expr} (hnext : ∀ c ∈ scope.next e, Told scope visits c)
    (here : ∀ t ∈ scope.reported e, t ∈ visits) : Told scope visits e := forall_leads here hnext

structure Walked (scope : Scope) (before after : Progress (List Expr)) (es : List Expr) : Prop where
  grown : before.state ⊆ after.state
  told : ∀ e ∈ es, Told scope after.state e
  seen : ∀ a ∈ after.seen, a ∈ before.seen ∨ Told scope after.state a
  due : ∀ t ∈ after.state, t ∈ before.state ∨ ∃ e ∈ es, ∃ a, scope.Leads e a ∧ t ∈ scope.reported a

/-- Among what was seen, only larger nodes may still be open. -/
def Settled (scope : Scope) (n : Nat) (progress : Progress (List Expr)) : Prop :=
  ∀ a ∈ progress.seen, sizeOf a < n → Told scope progress.state a

theorem Told.mono {visits visits' : List Expr} (h : Told scope visits e) (hsub : visits ⊆ visits') :
    Told scope visits' e := fun a ha t ht => hsub (h a ha t ht)

theorem Walked.settled {n : Nat} {before after : Progress (List Expr)} {es : List Expr}
    (h : Walked scope before after es) (hsettled : Settled scope n before) : Settled scope n after := by
  intro a ha hlt
  rcases h.seen a ha with hbefore | htold
  · exact (hsettled a hbefore hlt).mono h.grown
  · exact htold

/-- A node counts as seen before it is done, but nothing that follows it is as large. -/
theorem Settled.enter {progress : Progress (List Expr)} (h : Settled scope (sizeOf e + 1) progress) :
    Settled scope (sizeOf e) { progress with seen := e :: progress.seen } := by
  intro a ha hlt
  rcases List.mem_cons.1 ha with rfl | hmem
  · exact absurd hlt (Nat.lt_irrefl _)
  · exact h a hmem (by omega)

theorem walked_foldl {n : Nat} (es : List Expr) (hn : ∀ e ∈ es, sizeOf e < n)
    (hes : ∀ e ∈ es, ∀ progress, Settled scope (sizeOf e + 1) progress →
      Walked scope progress (walk scope recorder progress e) [e])
    (progress : Progress (List Expr)) (hsettled : Settled scope n progress) :
    Walked scope progress (es.foldl (walk scope recorder) progress) es := by
  induction es generalizing progress with
  | nil => exact ⟨List.Subset.refl _, List.forall_mem_nil _, fun a ha => .inl ha, fun t ht => .inl ht⟩
  | cons e es ih =>
    obtain ⟨hne, hnes⟩ := List.forall_mem_cons.1 hn
    obtain ⟨he, hes⟩ := List.forall_mem_cons.1 hes
    have hfirst := he progress fun a ha hlt => hsettled a ha (by omega)
    have hrest := ih hnes hes _ (hfirst.settled hsettled)
    refine ⟨List.Subset.trans hfirst.grown hrest.grown, ?_, ?_, ?_⟩
    · exact List.forall_mem_cons.2 ⟨(hfirst.told e List.mem_cons_self).mono hrest.grown, hrest.told⟩
    · intro a ha
      rcases hrest.seen a ha with hmiddle | htold
      · exact (hfirst.seen a hmiddle).imp_right fun htold => htold.mono hrest.grown
      · exact .inr htold
    · intro t ht
      rcases hrest.due t ht with hmiddle | ⟨c, hc, hdue⟩
      · rcases hfirst.due t hmiddle with hbefore | ⟨c, hc, hdue⟩
        · exact .inl hbefore
        · cases List.mem_singleton.1 hc
          exact .inr ⟨e, List.mem_cons_self, hdue⟩
      · exact .inr ⟨c, List.mem_cons_of_mem e hc, hdue⟩

theorem walked_walk (e : Expr) (progress : Progress (List Expr))
    (hsettled : Settled scope (sizeOf e + 1) progress) :
    Walked scope progress (walk scope recorder progress e) [e] := by
  induction e using Expr.inductionOnParts generalizing progress with
  | step e ih =>
    rw [walk_eq (fun _ => rfl)]
    split
    · rename_i hseen
      have htold := hsettled e (List.contains_iff_mem.1 hseen) (Nat.lt_succ_self _)
      exact ⟨List.Subset.refl _, List.forall_mem_singleton.2 htold, fun a ha => .inl ha, fun t ht => .inl ht⟩
    have hnext := walked_foldl (scope.next e)
      (fun c hc => Expr.sizeOf_lt_of_mem_parts (mem_parts_of_mem_next hc))
      (fun c hc progress => ih c (mem_parts_of_mem_next hc) progress) _ hsettled.enter
    dsimp only
    rw [foldl_visit_recorder]
    have hsub := List.subset_append_left ((scope.next e).foldl (walk scope recorder)
      { progress with seen := e :: progress.seen }).state (scope.reported e)
    have htold : Told scope _ e := told_of_next (fun c hc => (hnext.told c hc).mono hsub)
      fun t ht => List.mem_append_right _ ht
    refine ⟨List.Subset.trans hnext.grown hsub, List.forall_mem_singleton.2 htold, ?_, ?_⟩
    · intro a ha
      rcases hnext.seen a ha with hbefore | hdone
      · rcases List.mem_cons.1 hbefore with rfl | hmem
        · exact .inr htold
        · exact .inl hmem
      · exact .inr (hdone.mono hsub)
    · intro t ht
      rcases List.mem_append.1 ht with hbelow | hhere
      · rcases hnext.due t hbelow with hbefore | ⟨c, hc, a, ha, hdue⟩
        · exact .inl hbefore
        · exact .inr ⟨e, List.mem_singleton_self e, a, .next hc ha, hdue⟩
      · exact .inr ⟨e, List.mem_singleton_self e, e, .refl e, hhere⟩

theorem mem_visitsFrom_iff (es : List Expr) :
    t ∈ visitsFrom scope es ↔ ∃ e ∈ es, ∃ a, scope.Leads e a ∧ t ∈ scope.reported a := by
  have hwalked := walked_foldl (n := sizeOf es) es (fun e he => List.sizeOf_lt_of_mem he)
    (fun e _ progress => @walked_walk scope e progress) ⟨[], []⟩
    fun _ hmem => absurd hmem List.not_mem_nil
  constructor
  · intro ht
    rcases hwalked.due t ht with hbefore | hdue
    · cases hbefore
    · exact hdue
  · rintro ⟨e, he, a, ha, ht⟩
    exact hwalked.told e he a ha t ht

theorem mem_visits_iff (f : Formula) :
    t ∈ visits scope f ↔ ∃ e ∈ f.terms, ∃ a, scope.Leads e a ∧ t ∈ scope.reported a := mem_visitsFrom_iff f.terms

end Completeness

theorem foldl_or {α : Type} (p : α → Bool) (as : List α) (found : Bool) :
    as.foldl (fun found a => found || p a) found = (found || as.any p) := by
  induction as generalizing found with
  | nil => exact (Bool.or_false found).symm
  | cons a as ih => rw [List.foldl_cons, ih, List.any_cons, Bool.or_assoc]

/-- A formula mentions what is in reach of the expressions that it tests. -/
theorem mentions_eq_false_iff {p : Expr → Bool} (f : Formula) :
    mentions p f = false ↔ ∀ e ∈ f.terms, ∀ a, e.Reaches a → p a = false := by
  rw [mentions, visitFormula_eq (fun _ => rfl), foldl_or, Bool.false_or, List.any_eq_false]
  constructor
  · intro h e he a ha
    refine eq_false_of_ne_true (h a ((mem_visits_iff f).2 ⟨e, he, a, leads_all_iff.2 ha, ?_⟩))
    exact List.mem_singleton_self a
  · intro h t ht
    obtain ⟨e, he, a, ha, hmem⟩ := (mem_visits_iff f).1 ht
    cases List.mem_singleton.1 hmem
    exact ne_true_of_eq_false (h e he t (leads_all_iff.1 ha))

theorem mem_foldl_addDistinct {α : Type} [DecidableEq α] {a : α} (as found : List α) :
    a ∈ as.foldl addDistinct found ↔ a ∈ found ∨ a ∈ as := by
  induction as generalizing found with
  | nil => simp
  | cons b as ih =>
    have hadd : a ∈ addDistinct found b ↔ a ∈ found ∨ a = b := by
      unfold addDistinct
      split
      · rename_i hmem
        exact ⟨.inl, fun h => h.elim id fun heq => heq ▸ hmem⟩
      · simp
    rw [List.foldl_cons, ih, hadd, List.mem_cons, or_assoc]

theorem mem_locations_iff {t : Expr} (f : Formula) :
    t ∈ locations f ↔ ∃ e ∈ f.terms, ∃ a, Scope.lvalues.Leads e a ∧ a.read? = some t := by
  rw [locations, visitFormula_eq (fun _ => rfl), mem_foldl_addDistinct, mem_visits_iff]
  simp [Scope.reported]

end Retrace.Walk
