import Retrace.Proofs.Walk.Mapping
import Retrace.Walk.Replace

/-!
Rules for mappings that are started anew on the way. The outcome of one that ends is known from one step, if
the same is known of what the step enters. Where every step enters something smaller, a mapping ends.
-/

set_option autoImplicit false

namespace Retrace.Walk

theorem eq_some_of_concluded {α : Type} {x : Option (Except Fault α)} {a : α} (h : concluded x = .ok a) :
    x = some (.ok a) := by
  cases x with
  | none => cases h
  | some r => exact congrArg some h

/-- Of a computation that may not end, the outcome is known up to the fault of not ending. -/
theorem outcome_concluded {α : Type} {p : α → Prop} {q : Fault → Prop} {x : ExceptT Fault Option α}
    (hendless : q .endless) (h : ((Guarantee.returned Option).throwing q).Gives x p) :
    Guarantee.Outcome p q (concluded x.run) := by
  cases hx : x.run with
  | none => exact hendless
  | some r => exact h r hx

theorem outcome_of_ending {α : Type} {p : α → Prop} {q : Fault → Prop} {x : ExceptT Fault Option α}
    (h : (Guarantee.ending.throwing q).Gives x p) : Guarantee.Outcome p q (concluded x.run) := by
  obtain ⟨r, hr, houtcome⟩ := h
  rw [hr]
  exact houtcome

variable {scope : Scope} {policy : Policy} {reply : (value node : Expr) → Reply} {q : Fault → Prop}
  {Q : Expr → Prop} {P : Expr → Option Expr → Prop} {value node i : Expr}

theorem run_map_enterer (e : Expr) :
    (map scope policy (enterer scope policy reply) e).run = mapEntering scope policy reply e :=
  (mapEntering.eq_1 scope policy reply e).symm

section Replies

variable {again : Expr → Option (Except Fault (Option Expr))} {close : Option Expr → Except Fault (Option Expr)}
  {answer : Except Fault (Option Expr)}

theorem entering_of_answer (h : reply value node = .answer answer) :
    (entering reply again).map value node = lift answer := by
  simp only [entering, h]

theorem entering_of_enter (h : reply value node = .enter i close) :
    (entering reply again).map value node = ExceptT.mk (again i) >>= fun r => lift (close r) := by
  simp only [entering, h]

variable {G : Guarantee Option} {p s : Option Expr → Prop}

theorem gives_of_answer (h : reply value node = .answer answer) (hanswer : Guarantee.Outcome p q answer) :
    (G.throwing q).Gives ((entering reply again).map value node) p := by
  rw [entering_of_answer h]
  exact (G.throwing q).imp (lift_gives hanswer) fun _ hr => hr.2

theorem gives_of_enter (h : reply value node = .enter i close)
    (hentered : (G.throwing q).Gives (ExceptT.mk (again i)) s)
    (hclose : ∀ r, s r → Guarantee.Outcome p q (close r)) :
    (G.throwing q).Gives ((entering reply again).map value node) p := by
  rw [entering_of_enter h]
  refine (G.throwing q).bind hentered fun r hr => ?_
  exact (G.throwing q).imp (lift_gives (hclose r hr)) fun _ hr => hr.2

end Replies

/-- Induction on the steps of a mapping that ends. -/
theorem stepGives_enterer (step : ∀ again : Expr → Option (Except Fault (Option Expr)),
      (∀ i, Q i → ((Guarantee.returned Option).throwing q).Gives (ExceptT.mk (again i)) (P i)) →
      StepGives (.returned Option) q scope policy (entering reply again) Q P) :
    StepGives (.returned Option) q scope policy (enterer scope policy reply) Q P := by
  have houtcome := mapEntering.partial_correctness scope policy reply
    (fun e r => Q e → Guarantee.Outcome (P e) q r) fun again ih e r hr he =>
      (step again fun i hi r hr => ih i r hr hi).map he r hr
  exact step _ fun i hi r hr => houtcome i r hr hi

/-- Induction on the size of what is mapped. -/
theorem stepGives_enterer_ending (step : ∀ n : Nat,
      (∀ i, sizeOf i < n → Q i →
        (Guarantee.ending.throwing q).Gives (ExceptT.mk (mapEntering scope policy reply i)) (P i)) →
      StepGives .ending q scope policy (enterer scope policy reply) (fun e => Q e ∧ sizeOf e ≤ n) P) :
    StepGives .ending q scope policy (enterer scope policy reply) Q P := by
  have hends (n : Nat) : ∀ i, sizeOf i < n → Q i →
      (Guarantee.ending.throwing q).Gives (ExceptT.mk (mapEntering scope policy reply i)) (P i) := by
    induction n with
    | zero => exact fun i hi => absurd hi (Nat.not_lt_zero _)
    | succ n ih =>
      intro i hi hQ
      have hmap := (step n ih).map ⟨hQ, Nat.le_of_lt_succ hi⟩
      rwa [mapEntering.eq_1]
  have bounded (e : Expr) := step (sizeOf e) (hends (sizeOf e))
  constructor
  case child => exact fun e he c hc => ((bounded e).child e ⟨he, Nat.le_refl _⟩ c hc).1
  case kept => exact fun hkeep e he => (bounded e).kept hkeep e ⟨he, Nat.le_refl _⟩
  case lost => exact fun e he => (bounded e).lost e ⟨he, Nat.le_refl _⟩
  case rebuilt => exact fun e cs he => (bounded e).rebuilt e cs ⟨he, Nat.le_refl _⟩
  case answered => exact fun e cs value he => (bounded e).answered e cs value ⟨he, Nat.le_refl _⟩

section Replacing

variable {old new : Expr}

theorem replacing_old : replacing old new value old = .answer (.ok (some new)) := by
  rw [replacing, if_pos rfl]

theorem replacing_closed (hne : node ≠ old) (hclosed : isOpened value = false) :
    replacing old new value node = .answer (.ok (some value)) := by
  rw [replacing, if_neg hne, hclosed]

theorem replacing_opened (hne : node ≠ old) (hopened : isOpened value = true) (hi : i ∈ value.hidden) :
    replacing old new value node = .enter i fun r => (reclose value (r.getD i)).map some := by
  rw [replacing, if_neg hne, hopened]
  obtain ⟨d, s⟩ := value
  cases s with
  | moment m t kind =>
    cases List.mem_singleton.1 hi
    rfl
  | frame inner id =>
    cases List.mem_singleton.1 hi
    rfl
  | _ => cases hopened

theorem hidden_of_isOpened (h : isOpened value = true) : value.children = [] ∧ ∃ i, value.hidden = [i] := by
  obtain ⟨d, s⟩ := value
  cases s with
  | moment m t kind => exact ⟨rfl, t, rfl⟩
  | frame inner id => exact ⟨rfl, inner, rfl⟩
  | _ => cases h

theorem exists_hidden_of_isOpened (h : isOpened value = true) : ∃ i, i ∈ value.hidden := by
  obtain ⟨-, i, hhidden⟩ := hidden_of_isOpened h
  exact ⟨i, hhidden ▸ List.mem_singleton_self i⟩

end Replacing

end Retrace.Walk
