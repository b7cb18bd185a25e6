import Retrace.Proofs.Search.Priority
import Retrace.Search.Worklist

/-!
What is taken out of a worklist. A single scan keeps one candidate and never compares the others among
themselves, yet nothing that is left goes before what is taken: what was passed over did not go before the
candidate of that time, and whatever became the candidate later does.
-/

set_option autoImplicit false

namespace Retrace.Search.Worklist

open Obligation (priority priority_eq_lt_iff Before not_before_self before_asymm run_bind_fst)

variable {S : Type} {oracle : Oracle (StateM S)} {implies : Formula → Formula → Prop}

/-- The scan ends at one of the candidates that none goes before: the first candidate, or one that goes
before it. -/
theorem run_scan (decides : oracle.Decides implies) (best : Obligation (StateM S) × Nat)
    (cs : List (Obligation (StateM S) × Nat)) (s : S) :
    ∃ found, ((scan oracle best cs).run s).1 = found ∧ found ∈ best :: cs ∧
      (found = best ∨ Before implies found.1 best.1) ∧ ∀ c ∈ best :: cs, ¬ Before implies c.1 found.1 := by
  induction cs generalizing best s with
  | nil =>
    exact ⟨best, rfl, List.mem_singleton_self _, .inl rfl, List.forall_mem_singleton.2 (not_before_self _)⟩
  | cons c cs ih =>
    rw [scan, run_bind_fst]
    split
    · rename_i hlt
      rw [priority_eq_lt_iff decides] at hlt
      obtain ⟨found, hfound, hmem, hreplaces, hnone⟩ := ih c ((priority oracle c.1 best.1).run s).2
      obtain ⟨hc, -⟩ := List.forall_mem_cons.1 hnone
      have hbest : Before implies found.1 best.1 := by
        rcases hreplaces with rfl | hbefore
        · exact hlt
        · exact hbefore.trans decides.trans hlt
      refine ⟨found, hfound, List.mem_cons_of_mem _ hmem, .inr hbest, List.forall_mem_cons.2 ⟨?_, hnone⟩⟩
      exact before_asymm decides.trans _ _ hbest
    · rename_i hnot
      have hnot : ¬ Before implies c.1 best.1 := fun h => hnot ((priority_eq_lt_iff decides _ _ _).2 h)
      obtain ⟨found, hfound, hmem, hreplaces, hnone⟩ := ih best ((priority oracle c.1 best.1).run s).2
      obtain ⟨hbest, hrest⟩ := List.forall_mem_cons.1 hnone
      -- `c` is compared with `best` only; if it went before `found`, it would go before `best` too.
      have hc : ¬ Before implies c.1 found.1 := by
        intro hbefore
        rcases hreplaces with rfl | hreplaces
        · exact hnot hbefore
        · exact hnot (hbefore.trans decides.trans hreplaces)
      refine ⟨found, hfound, ?_, hreplaces, ?_⟩
      · rcases List.mem_cons.1 hmem with rfl | hmem
        · exact List.mem_cons_self
        · exact List.mem_cons_of_mem _ (List.mem_cons_of_mem _ hmem)
      · exact List.forall_mem_cons.2 ⟨hbest, List.forall_mem_cons.2 ⟨hc, hrest⟩⟩

theorem split_of_mem_zipIdx {α : Type} {as : List α} {a : α} {i : Nat} (h : (a, i) ∈ as.zipIdx) :
    ∃ front back, as = front ++ a :: back ∧ as.eraseIdx i = front ++ back := by
  obtain ⟨hlt, rfl⟩ := List.getElem?_eq_some_iff.1 (List.mk_mem_zipIdx_iff_getElem?.1 h)
  refine ⟨as.take i, as.drop (i + 1), ?_, List.eraseIdx_eq_take_drop_succ as i⟩
  rw [List.getElem_cons_drop hlt, List.take_append_drop]

theorem run_next? (decides : oracle.Decides implies) (o : Obligation (StateM S))
    (os : List (Obligation (StateM S))) (s : S) :
    ∃ front best back, o :: os = front ++ best :: back ∧
      ((next? oracle (o :: os)).run s).1 = some (best, front ++ back) ∧
      ∀ x ∈ o :: os, ¬ Before implies x best := by
  obtain ⟨⟨best, i⟩, hfound, hmem, -, hnone⟩ := run_scan decides (o, 0) (os.zipIdx 1) s
  have hmem : (best, i) ∈ (o :: os).zipIdx := hmem
  have hnone : ∀ c ∈ (o :: os).zipIdx, ¬ Before implies c.1 best := hnone
  obtain ⟨front, back, hsplit, herase⟩ := split_of_mem_zipIdx hmem
  refine ⟨front, best, back, hsplit, ?_, fun x hx => ?_⟩
  · rw [next?, run_bind_fst, hfound, ← herase]
    rfl
  · obtain ⟨j, hj⟩ := List.mem_iff_getElem?.1 hx
    exact hnone (x, j) (List.mk_mem_zipIdx_iff_getElem?.2 hj)

inductive Drained (oracle : Oracle (StateM S)) : S → List (Obligation (StateM S)) →
    List (Obligation (StateM S)) → Prop
  | done {s : S} {os : List (Obligation (StateM S))} (none : ((next? oracle os).run s).1 = none) :
    Drained oracle s os []
  | take {s : S} {os rest taken : List (Obligation (StateM S))} {o : Obligation (StateM S)}
    (some : ((next? oracle os).run s).1 = some (o, rest))
    (drained : Drained oracle ((next? oracle os).run s).2 rest taken) : Drained oracle s os (o :: taken)

theorem run_next?_eq_none_iff (os : List (Obligation (StateM S))) (s : S) :
    ((next? oracle os).run s).1 = none ↔ os = [] := by
  cases os with
  | nil => exact iff_of_true rfl rfl
  | cons o os => exact iff_of_false (by rw [next?, run_bind_fst]; simp) (List.cons_ne_nil o os)

theorem of_run_next? (decides : oracle.Decides implies) {os rest : List (Obligation (StateM S))}
    {o : Obligation (StateM S)} {s : S} (h : ((next? oracle os).run s).1 = some (o, rest)) :
    (∃ front back, os = front ++ o :: back ∧ rest = front ++ back) ∧ ∀ x ∈ rest, ¬ Before implies x o := by
  cases os with
  | nil => cases h
  | cons o' os =>
    obtain ⟨front, best, back, hsplit, hrun, hnone⟩ := run_next? decides o' os s
    cases hrun.symm.trans h
    refine ⟨⟨front, back, hsplit, rfl⟩, fun x hx => hnone x ?_⟩
    rw [hsplit]
    exact List.perm_middle.mem_iff.2 (List.mem_cons_of_mem o hx)

theorem Drained.perm (decides : oracle.Decides implies) {s : S} {os taken : List (Obligation (StateM S))}
    (h : Drained oracle s os taken) : taken.Perm os := by
  induction h with
  | done none => rw [(run_next?_eq_none_iff _ _).1 none]
  | take some _ ih =>
    obtain ⟨⟨front, back, rfl, rfl⟩, -⟩ := of_run_next? decides some
    exact (ih.cons _).trans List.perm_middle.symm

theorem Drained.pairwise (decides : oracle.Decides implies) {s : S} {os taken : List (Obligation (StateM S))}
    (h : Drained oracle s os taken) : taken.Pairwise fun earlier later => ¬ Before implies later earlier := by
  induction h with
  | done => exact .nil
  | take some drained ih =>
    obtain ⟨-, hnone⟩ := of_run_next? decides some
    exact List.pairwise_cons.2 ⟨fun later hlater => hnone later ((drained.perm decides).mem_iff.1 hlater), ih⟩

theorem drained_takeUpTo (decides : oracle.Decides implies) (count : Nat) (os : List (Obligation (StateM S)))
    (s : S) (hcount : os.length ≤ count) : Drained oracle s os ((takeUpTo oracle count os).run s).1 := by
  induction count generalizing os s with
  | zero =>
    have hos : os = [] := List.length_eq_zero_iff.1 (Nat.le_zero.1 hcount)
    exact .done ((run_next?_eq_none_iff os s).2 hos)
  | succ count ih =>
    rw [takeUpTo, run_bind_fst]
    cases hnext : ((next? oracle os).run s).1 with
    | none => exact .done hnext
    | some next =>
      obtain ⟨o, rest⟩ := next
      obtain ⟨⟨front, back, rfl, rfl⟩, -⟩ := of_run_next? decides hnext
      have hrest : (front ++ back).length ≤ count := by
        simp only [List.length_append, List.length_cons] at hcount ⊢
        omega
      exact .take hnext (ih _ _ hrest)

/-- Nothing is lost, and nothing goes before what is taken out earlier: the worklist gives one of its
obligations as long as there is any, and leaves the others as they stand. -/
theorem drained_by_priority (decides : oracle.Decides implies) :
    (∀ os s, ((next? oracle os).run s).1 = none ↔ os = []) ∧
    (∀ os s o rest, ((next? oracle os).run s).1 = some (o, rest) →
      (∃ front back, os = front ++ o :: back ∧ rest = front ++ back) ∧
      ∀ x ∈ rest, ∀ t, ((priority oracle x o).run t).1 ≠ .lt) ∧
    (∀ os s, Drained oracle s os ((drain oracle os).run s).1) ∧
    (∀ os s taken, Drained oracle s os taken → taken.Perm os ∧
      taken.Pairwise fun earlier later => ∀ t, ((priority oracle later earlier).run t).1 ≠ .lt) := by
  have hpriority {a b : Obligation (StateM S)} (h : ¬ Before implies a b) (t : S) :
      ((priority oracle a b).run t).1 ≠ .lt := fun hlt => h ((priority_eq_lt_iff decides a b t).1 hlt)
  refine ⟨run_next?_eq_none_iff, fun os s o rest h => ?_, fun os s => ?_, fun os s taken h => ?_⟩
  · obtain ⟨hsplit, hnone⟩ := of_run_next? decides h
    exact ⟨hsplit, fun x hx => hpriority (hnone x hx)⟩
  · exact drained_takeUpTo decides os.length os s (Nat.le_refl _)
  · exact ⟨h.perm decides, (h.pairwise decides).imp fun h => hpriority h⟩

theorem drained_by_priority_of_constants :
    ∃ os taken : List (Obligation (StateM Nat)),
      os = [.invariant ⟨none, .const false⟩, .stop .timeout, .invariant ⟨none, .const true⟩] ∧
      Obligation.countingOracle.Decides Obligation.FollowsByConstants ∧
      Drained Obligation.countingOracle 0 os taken ∧ taken.Perm os ∧
      taken.Pairwise fun earlier later =>
        ∀ t, ((priority Obligation.countingOracle later earlier).run t).1 ≠ .lt := by
  obtain ⟨-, -, hdrain, hdrained⟩ := drained_by_priority Obligation.decides_countingOracle
  exact ⟨_, _, rfl, Obligation.decides_countingOracle, hdrain _ 0, hdrained _ 0 _ (hdrain _ 0)⟩

end Retrace.Search.Worklist
