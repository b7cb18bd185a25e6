import Retrace.Proofs.Walk.Replacing
import Mathlib.Data.List.Nodup

/-!
Visits that stop early. A visitor that has finished is told nothing more, so it ends as one would that stays to the end
and no longer listens; and staying to the end, every visitor is told the same. One that counts its visits and has
finished after some number of them is therefore told that many from the start of a sequence that does not depend on it.

In a walk over all nodes that sequence has every node in reach once, after all its children.
-/

set_option autoImplicit false

namespace Retrace.Walk

section Stopping

variable {σ : Type} {scope : Scope} {v : Visitor σ} {progress patient : Progress σ}

theorem foldl_patient_of_finished {s : σ} (h : v.finished s = true) (es : List Expr) :
    es.foldl v.patient.visit s = s := by
  induction es with
  | nil => rfl
  | cons e es ih =>
    have hdeaf : v.patient.visit s e = s := if_pos h
    rw [List.foldl_cons, hdeaf, ih]

theorem state_walk_patient (h : v.finished progress.state = true) (e : Expr) :
    (walk scope v.patient progress e).state = progress.state := by
  have hstart : Follows v.patient progress.state progress ⟨progress.seen, []⟩ := ⟨rfl, rfl⟩
  rw [(follows_walk (fun _ => rfl) e hstart).state, foldl_patient_of_finished h]

/-- A walk that may have been stopped, beside the one that was not: the visitors are in the same state, and have come by
the same nodes unless the first has finished. -/
structure Abreast (v : Visitor σ) (progress patient : Progress σ) : Prop where
  state : progress.state = patient.state
  seen : v.finished progress.state = false → progress.seen = patient.seen

theorem Abreast.tell (h : Abreast v progress patient) (es : List Expr) :
    Abreast v { progress with state := es.foldl v.patient.visit progress.state }
      { patient with state := es.foldl v.patient.visit patient.state } := by
  refine ⟨congrArg (es.foldl v.patient.visit) h.state, fun hgoing => h.seen ?_⟩
  rw [← Bool.not_eq_true]
  intro hfinished
  rw [foldl_patient_of_finished hfinished es, hfinished] at hgoing
  cases hgoing

theorem abreast_walk (e : Expr) (h : Abreast v progress patient) :
    Abreast v (walk scope v progress e) (walk scope v.patient patient e) := by
  induction e using Expr.inductionOnParts generalizing progress patient with
  | step e ih =>
    cases hfinished : v.finished progress.state with
    | true =>
      have hstay : walk scope v progress e = progress := foldl_walk_of_finished hfinished [e]
      rw [hstay]
      refine ⟨?_, fun hgoing => absurd hfinished (Bool.eq_false_iff.1 hgoing)⟩
      rw [state_walk_patient (h.state ▸ hfinished), h.state]
    | false =>
      -- As long as the visitor has not finished, both walks skip and enter the same nodes.
      have hseen := h.seen hfinished
      rw [walk_layer, walk_eq (fun _ => rfl), hfinished, Bool.false_or, hseen]
      split
      · exact h
      · have hopen : Abreast v { progress with seen := e :: patient.seen }
            { patient with seen := e :: patient.seen } := ⟨h.state, fun _ => rfl⟩
        have hnext := List.foldl_rel (l := scope.next e) hopen
          fun c hc _ _ => ih c (mem_parts_of_mem_next hc)
        exact hnext.tell (scope.reported e)

/-- Any visitor ends as if it had been told everything and listened until it had finished. -/
theorem state_foldl_walk (es : List Expr) (start : σ) :
    (es.foldl (walk scope v) ⟨[], start⟩).state = (visitsFrom scope es).foldl v.patient.visit start := by
  have habreast : Abreast v (es.foldl (walk scope v) ⟨[], start⟩) (es.foldl (walk scope v.patient) ⟨[], start⟩) :=
    List.foldl_rel ⟨rfl, fun _ => rfl⟩ fun e _ _ _ => abreast_walk e
  have hfollows : Follows v.patient start (es.foldl (walk scope v.patient) ⟨[], start⟩)
      (es.foldl (walk scope recorder) ⟨[], []⟩) :=
    List.foldl_rel ⟨rfl, rfl⟩ fun e _ _ _ => follows_walk (fun _ => rfl) e
  rw [habreast.state, hfollows.state, visitsFrom]

/-- The visitor has finished once it has made `k` visits, which it counts by `made`. -/
structure Visitor.StopsAfter (v : Visitor σ) (k : Nat) (made : σ → Nat) : Prop where
  counts : ∀ s e, made (v.visit s e) = made s + 1
  finished : ∀ s, v.finished s = decide (k ≤ made s)

theorem Visitor.StopsAfter.foldl_patient {k : Nat} {made : σ → Nat} (h : v.StopsAfter k made) (es : List Expr)
    (s : σ) : es.foldl v.patient.visit s = (es.take (k - made s)).foldl v.visit s := by
  induction es generalizing s with
  | nil => rw [List.take_nil, List.foldl_nil, List.foldl_nil]
  | cons e es ih =>
    by_cases hdone : k ≤ made s
    · have hfinished : v.finished s = true := by rw [h.finished, decide_eq_true hdone]
      rw [foldl_patient_of_finished hfinished, Nat.sub_eq_zero_of_le hdone, List.take_zero, List.foldl_nil]
    · have hlistens : v.patient.visit s e = v.visit s e := if_neg (by simpa [h.finished] using hdone)
      have hleft : k - made s = k - made (v.visit s e) + 1 := by rw [h.counts]; omega
      rw [List.foldl_cons, hlistens, ih, hleft, List.take_succ_cons, List.foldl_cons]

end Stopping

section Order

/-- Visits one after the other, each of a node that was not visited so far and whose children all were. -/
inductive ChildrenFirst : List Expr → Prop
  | nil : ChildrenFirst []
  | snoc {visits : List Expr} {e : Expr} (earlier : ChildrenFirst visits) (new : e ∉ visits)
    (children : ∀ c ∈ e.children, c ∈ visits) : ChildrenFirst (visits ++ [e])

theorem ChildrenFirst.nodup {visits : List Expr} (h : ChildrenFirst visits) : visits.Nodup := by
  induction h with
  | nil => exact List.nodup_nil
  | snoc _ new _ ih =>
    rw [← List.concat_eq_append]
    exact List.Nodup.concat new ih

theorem ChildrenFirst.before {visits : List Expr} (h : ChildrenFirst visits) {earlier later : List Expr} {e : Expr}
    (heq : visits = earlier ++ e :: later) : ∀ c ∈ e.children, c ∈ earlier := by
  induction h generalizing later with
  | nil => exact absurd heq (by simp)
  | snoc _ _ children ih =>
    rcases List.eq_nil_or_concat later with rfl | ⟨middle, last, rfl⟩
    · obtain ⟨rfl, hlast⟩ := List.append_inj' heq rfl
      cases hlast
      exact children
    · rw [List.concat_eq_append, ← List.cons_append, ← List.append_assoc] at heq
      exact ih (List.append_inj' heq rfl).1

structure InOrder (before after : Progress (List Expr)) : Prop where
  first : ChildrenFirst after.state
  visited : after.state ⊆ after.seen
  kept : before.seen ⊆ after.seen

theorem inOrder_foldl {n : Nat} (es : List Expr) (hn : ∀ e ∈ es, sizeOf e < n)
    (hes : ∀ e ∈ es, ∀ progress, Settled .all (sizeOf e + 1) progress → InOrder progress progress →
      InOrder progress (walk .all recorder progress e))
    {progress : Progress (List Expr)} (hsettled : Settled .all n progress) (h : InOrder progress progress) :
    InOrder progress (es.foldl (walk .all recorder) progress) := by
  induction es generalizing progress with
  | nil => exact h
  | cons e es ih =>
    obtain ⟨hne, hnes⟩ := List.forall_mem_cons.1 hn
    obtain ⟨he, hes⟩ := List.forall_mem_cons.1 hes
    have hbelow : Settled .all (sizeOf e + 1) progress := fun a ha hlt => hsettled a ha (by omega)
    have hfirst := he progress hbelow h
    have hrest := ih hnes hes ((walked_walk e progress hbelow).settled hsettled)
      ⟨hfirst.first, hfirst.visited, List.Subset.refl _⟩
    exact ⟨hrest.first, hrest.visited, List.Subset.trans hfirst.kept hrest.kept⟩

theorem inOrder_walk (e : Expr) {progress : Progress (List Expr)} (hsettled : Settled .all (sizeOf e + 1) progress)
    (h : InOrder progress progress) : InOrder progress (walk .all recorder progress e) := by
  induction e using Expr.inductionOnParts generalizing progress with
  | step e ih =>
    rw [walk_eq (fun _ => rfl)]
    split
    · exact h
    rename_i hunseen
    have hsmaller (c : Expr) (hc : c ∈ e.children) : sizeOf c < sizeOf e := Expr.sizeOf_lt_of_mem_children hc
    have hentered : InOrder { progress with seen := e :: progress.seen } { progress with seen := e :: progress.seen } :=
      ⟨h.first, List.subset_cons_of_subset e h.visited, List.Subset.refl _⟩
    have hnext := inOrder_foldl e.children hsmaller
      (fun c hc _ => ih c (Expr.mem_parts_of_mem_children hc)) hsettled.enter hentered
    have hwalked := walked_foldl e.children hsmaller (fun c _ => walked_walk c) _ hsettled.enter
    -- Only nodes below the children were visited in between, and these are smaller than the node.
    have hnew : e ∉ (e.children.foldl (walk .all recorder) { progress with seen := e :: progress.seen }).state := by
      intro hmem
      rcases hwalked.due e hmem with hbefore | ⟨c, hc, a, ha, hreported⟩
      · exact hunseen (List.contains_iff_mem.2 (h.visited hbefore))
      · cases List.mem_singleton.1 hreported
        exact absurd (Nat.lt_of_le_of_lt (leads_all_iff.1 ha).sizeOf_le (hsmaller c hc)) (Nat.lt_irrefl _)
    have hchildren (c : Expr) (hc : c ∈ e.children) := hwalked.told c hc c (.refl c) c (List.mem_singleton_self c)
    dsimp only [Scope.next, Scope.reported]
    rw [foldl_visit_recorder]
    refine ⟨.snoc hnext.first hnew hchildren, ?_, List.subset_of_cons_subset hnext.kept⟩
    exact List.append_subset.2 ⟨hnext.visited, List.cons_subset.2 ⟨hnext.kept List.mem_cons_self, List.nil_subset _⟩⟩

/-- Visits of every node in reach, once, and after all its children. -/
structure PostOrder (roots visits : List Expr) : Prop where
  nodup : visits.Nodup
  mem_iff : ∀ a, a ∈ visits ↔ ∃ e ∈ roots, e.Reaches a
  children_before : ∀ earlier e later, visits = earlier ++ e :: later → ∀ c ∈ e.children, c ∈ earlier

theorem postOrder_visitsFrom (roots : List Expr) : PostOrder roots (visitsFrom .all roots) := by
  have hordered : InOrder ⟨[], []⟩ (roots.foldl (walk .all recorder) ⟨[], []⟩) :=
    inOrder_foldl (n := sizeOf roots) roots (fun e he => List.sizeOf_lt_of_mem he)
      (fun e _ _ => inOrder_walk e) (fun _ hmem => absurd hmem List.not_mem_nil)
      ⟨.nil, List.Subset.refl _, List.Subset.refl _⟩
  refine ⟨hordered.first.nodup, fun a => ?_, fun _ _ _ heq => hordered.first.before heq⟩
  rw [mem_visitsFrom_iff]
  constructor
  · rintro ⟨e, he, b, hb, ha⟩
    cases List.mem_singleton.1 ha
    exact ⟨e, he, leads_all_iff.1 hb⟩
  · rintro ⟨e, he, ha⟩
    exact ⟨e, he, a, leads_all_iff.2 ha, List.mem_singleton_self a⟩

end Order

/-- Stopping early only cuts a visit short. Visitors that never stop are all told the same sequence, and in a walk over
all nodes that has every node in reach once, after all its children. A visitor that has finished once it has made `k`
visits is told the first `k` of the sequence, or all of it if there are fewer. -/
theorem stopping_truncates {σ : Type} (scope : Scope) (v : Visitor σ) (start : σ) :
    (∀ e, PostOrder [e] (visitsFrom .all [e])) ∧ (∀ f : Formula, PostOrder f.terms (visits .all f)) ∧
    ((∀ s, v.finished s = false) →
      (∀ e, visit scope v start e = (visitsFrom scope [e]).foldl v.visit start) ∧
      ∀ f, visitFormula scope v start f = (visits scope f).foldl v.visit start) ∧
    ∀ k made, v.StopsAfter k made → made start = 0 →
      (∀ e, visit scope v start e =
        ((visitsFrom scope [e]).take (min k (visitsFrom scope [e]).length)).foldl v.visit start) ∧
      ∀ f, visitFormula scope v start f =
        ((visits scope f).take (min k (visits scope f).length)).foldl v.visit start := by
  have hlistens (es : List Expr) : (es.foldl (walk scope v) ⟨[], start⟩).state = _ := state_foldl_walk es start
  refine ⟨fun e => postOrder_visitsFrom [e], fun f => postOrder_visitsFrom f.terms, fun hv => ?_,
    fun k made hstops hstart => ?_⟩
  · rw [patient_visit_eq hv] at hlistens
    exact ⟨fun e => hlistens [e], fun f => hlistens f.terms⟩
  · simp only [hstops.foldl_patient, hstart, Nat.sub_zero] at hlistens
    simp only [← List.take_eq_take_min]
    exact ⟨fun e => hlistens [e], fun f => hlistens f.terms⟩

section Sharing

def atMost (k : Nat) : Visitor (List Expr) := ⟨recorder.visit, fun visits => decide (k ≤ visits.length)⟩

def counter : Visitor Nat := ⟨fun n _ => n + 1, fun _ => false⟩

def squareOfSum (v w : Variable) : Expr :=
  let sum := Expr.of (.binary .add .unbounded none (pointee v) (pointee w))
  .of (.binary .mul .unbounded none sum sum)

/-- Of the six nodes of the square a visitor that stops after three is told of the contents of one variable, their
location and the location of the other. -/
theorem stopping_truncates_of_shared :
    ∃ e : Expr, e = squareOfSum (.ofGlobal "x") (.ofGlobal "y") ∧
      (∀ s, counter.finished s = false) ∧ visit .all counter 0 e = 6 ∧ (atMost 3).StopsAfter 3 List.length ∧
      visit .all (atMost 3) [] e = [.var (.ofGlobal "x"), pointee (.ofGlobal "x"), .var (.ofGlobal "y")] := by
  obtain ⟨-, -, hall, -⟩ := stopping_truncates .all counter 0
  obtain ⟨-, -, -, hcut⟩ := stopping_truncates .all (atMost 3) []
  have hstops : (atMost 3).StopsAfter 3 List.length := ⟨fun _ _ => List.length_append, fun _ => rfl⟩
  have hcount := (hall fun _ => rfl).1 (squareOfSum (.ofGlobal "x") (.ofGlobal "y"))
  have hfirst := (hcut 3 List.length hstops rfl).1 (squareOfSum (.ofGlobal "x") (.ofGlobal "y"))
  refine ⟨_, rfl, fun _ => rfl, hcount.trans ?_, hstops, hfirst.trans ?_⟩
  · decide +kernel
  · decide +kernel

end Sharing
end Retrace.Walk
