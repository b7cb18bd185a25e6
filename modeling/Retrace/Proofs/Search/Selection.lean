import Retrace.Proofs.Search.Placeholders
import Retrace.Proofs.Search.Worklist

/-!
Which of the obligations that none goes before is taken out of a worklist. The scan leaves its candidate only for one
that goes before it, so the obligation it ends with need not be the earliest that could be taken: an earlier one is
passed over when it has no preference against a candidate that something later goes before. Where having no preference
is transitive this cannot happen, and the earliest is taken.
-/

set_option autoImplicit false

namespace Retrace.Search.Worklist

open Obligation (priority priority_eq_lt_iff prefers_priority Before not_before_self run_bind_fst)

section Successions

variable {α : Type} {before : α → α → Prop} {a b found : α} {as : List α}

/-- Each candidate gives way to the first one after it that goes before it, down to a candidate that none after it
goes before. -/
inductive Succession (before : α → α → Prop) : α → List α → α → Prop
  | last {a : α} {as : List α} (rest : ∀ b ∈ as, ¬ before b a) : Succession before a as a
  | next {a b found : α} {passed as : List α} (first : ∀ c ∈ passed, ¬ before c a) (goes : before b a)
    (later : Succession before b as found) : Succession before a (passed ++ b :: as) found

theorem Succession.pass (h : Succession before a as found) (hb : ¬ before b a) :
    Succession before a (b :: as) found := by
  cases h with
  | last rest => exact .last (List.forall_mem_cons.2 ⟨hb, rest⟩)
  | next first goes later =>
    rw [← List.cons_append]
    exact .next (List.forall_mem_cons.2 ⟨hb, first⟩) goes later

theorem Succession.congr {before' : α → α → Prop} (h : Succession before a as found)
    (hiff : ∀ a b, before a b ↔ before' a b) : Succession before' a as found := by
  induction h with
  | last rest => exact .last fun b hb hgoes => rest b hb ((hiff _ _).2 hgoes)
  | next first goes _ ih => exact .next (fun c hc hgoes => first c hc ((hiff _ _).2 hgoes)) ((hiff _ _).1 goes) ih

variable (trans : ∀ a b c, before a b → before b c → before a c)
include trans

theorem Succession.eq_or_before (h : Succession before a as found) : found = a ∨ before found a := by
  induction h with
  | last => exact .inl rfl
  | next _ goes _ ih =>
    rcases ih with rfl | hbefore
    · exact .inr goes
    · exact .inr (trans _ _ _ hbefore goes)

/-- What stands earlier than the last candidate either was a candidate itself, or did not go before the candidate of
its time. -/
theorem Succession.split (h : Succession before a as found) :
    ∃ front back, a :: as = front ++ found :: back ∧
      ∀ earlier x between, front = earlier ++ x :: between →
        before found x ∨ ∃ y ∈ earlier, before found y ∧ ¬ before x y := by
  induction h with
  | @last a as => exact ⟨[], as, rfl, fun earlier x between hnil => by simp at hnil⟩
  | @next a b found passed as first goes later ih =>
    obtain ⟨front, back, hsplit, hpassed⟩ := ih
    have hfound : before found a := by
      rcases later.eq_or_before trans with rfl | hbefore
      · exact goes
      · exact trans _ _ _ hbefore goes
    refine ⟨a :: passed ++ front, back, by rw [hsplit]; simp, fun earlier x between hfront => ?_⟩
    rcases List.append_eq_append_iff.1 hfront with ⟨skipped, rfl, hlater⟩ | ⟨tail, hcandidate, htail⟩
    · -- It stands after the next candidate, or is that candidate.
      rcases hpassed skipped x between hlater with hgoes | ⟨y, hy, hgoes⟩
      · exact .inl hgoes
      · exact .inr ⟨y, List.mem_append_right _ hy, hgoes⟩
    cases tail with
    | nil =>
      rcases hpassed [] x between htail.symm with hgoes | ⟨y, hy, -⟩
      · exact .inl hgoes
      · cases hy
    | cons c tail =>
      obtain ⟨rfl, -⟩ := List.cons.inj htail
      cases earlier with
      | nil => exact .inl ((List.cons.inj hcandidate).1 ▸ hfound)
      | cons a' earlier =>
        obtain ⟨rfl, rfl⟩ := List.cons.inj hcandidate
        exact .inr ⟨a, List.mem_cons_self, hfound, first x (by simp)⟩

end Successions

section Selections

variable {S : Type} {oracle : Oracle (StateM S)} {implies : Formula → Formula → Prop}
  {os rest : List (Obligation (StateM S))} {a b best : Obligation (StateM S)}

def Precedes (oracle : Oracle (StateM S)) (a b : Obligation (StateM S)) : Prop :=
  ∀ s, ((priority oracle a b).run s).1 = .lt

def Indifferent (oracle : Oracle (StateM S)) (a b : Obligation (StateM S)) : Prop :=
  ∀ s, ((priority oracle a b).run s).1 = .eq

def Unbeaten (oracle : Oracle (StateM S)) (os : List (Obligation (StateM S))) (a : Obligation (StateM S)) : Prop :=
  ∀ b ∈ os, ∀ s, ((priority oracle b a).run s).1 ≠ .lt

theorem precedes_iff (decides : oracle.Decides implies) (s : S) : Precedes oracle a b ↔ Before implies a b :=
  ⟨fun h => (priority_eq_lt_iff decides a b s).1 (h s), fun h t => (priority_eq_lt_iff decides a b t).2 h⟩

theorem indifferent_iff (decides : oracle.Decides implies) (s : S) :
    Indifferent oracle a b ↔ ¬ Before implies a b ∧ ¬ Before implies b a := by
  have answered (t : S) := prefers_priority decides a b t
  constructor
  · intro h
    have hanswer := answered s
    rwa [h s] at hanswer
  · rintro ⟨hab, hba⟩ t
    have hanswer := answered t
    cases ho : ((priority oracle a b).run t).1 with
    | eq => rfl
    | lt =>
      rw [ho] at hanswer
      exact absurd hanswer hab
    | gt =>
      rw [ho] at hanswer
      exact absurd hanswer hba

theorem unbeaten_iff (decides : oracle.Decides implies) (s : S) :
    Unbeaten oracle os a ↔ ∀ b ∈ os, ¬ Before implies b a := by
  constructor
  · exact fun h b hb hbefore => h b hb s ((priority_eq_lt_iff decides b a s).2 hbefore)
  · exact fun h b hb t hlt => h b hb ((priority_eq_lt_iff decides b a t).1 hlt)

theorem run_scan_cons (best c : Obligation (StateM S) × Nat) (cs : List (Obligation (StateM S) × Nat)) (s : S) :
    ((scan oracle best (c :: cs)).run s).1 =
      ((scan oracle (if ((priority oracle c.1 best.1).run s).1 = .lt then c else best) cs).run
        ((priority oracle c.1 best.1).run s).2).1 := by
  rw [scan, run_bind_fst]
  split
  · rename_i hlt
    rw [if_pos hlt]
  · rename_i hnot
    rw [if_neg hnot]

theorem succession_scan (decides : oracle.Decides implies) (best : Obligation (StateM S) × Nat)
    (cs : List (Obligation (StateM S) × Nat)) (s : S) :
    Succession (fun c d => Before implies c.1 d.1) best cs ((scan oracle best cs).run s).1 := by
  induction cs generalizing best s with
  | nil => exact .last (List.forall_mem_nil _)
  | cons c cs ih =>
    rw [run_scan_cons]
    split
    · rename_i hlt
      exact .next (List.forall_mem_nil _) ((priority_eq_lt_iff decides _ _ _).1 hlt) (ih c _)
    · rename_i hnot
      exact (ih best _).pass fun hbefore => hnot ((priority_eq_lt_iff decides _ _ _).2 hbefore)

theorem split_of_zipIdx {α : Type} {as : List α} {a : α} {i : Nat} {front back : List (α × Nat)}
    (h : as.zipIdx = front ++ (a, i) :: back) :
    i = front.length ∧ as = front.map Prod.fst ++ a :: back.map Prod.fst := by
  have hget : as.zipIdx[front.length]? = some (a, i) := by simp [h]
  refine ⟨?_, ?_⟩
  · rw [List.getElem?_zipIdx] at hget
    obtain ⟨_, -, heq⟩ := Option.map_eq_some_iff.1 hget
    have hi := congrArg Prod.snd heq
    simpa using hi.symm
  · have hmap := congrArg (List.map Prod.fst) h
    simpa using hmap

theorem succession_next? (decides : oracle.Decides implies) {o : Obligation (StateM S)} {s : S}
    (h : ((next? oracle (o :: os)).run s).1 = some (best, rest)) :
    ∃ front back, o :: os = front ++ best :: back ∧ rest = front ++ back ∧
      Succession (fun c d => Before implies c.1 d.1) (o, 0) (os.zipIdx 1) (best, front.length) ∧
      ∀ earlier x between, front = earlier ++ x :: between →
        Before implies best x ∨ ∃ y ∈ earlier, Before implies best y ∧ ¬ Before implies x y := by
  have hscan := succession_scan decides (o, 0) (os.zipIdx 1) s
  rw [next?, run_bind_fst] at h
  generalize ((scan oracle (o, 0) (os.zipIdx 1)).run s).1 = found at h hscan
  obtain ⟨found, i⟩ := found
  cases h
  obtain ⟨front, back, hsplit, hpassed⟩ := hscan.split fun _ _ _ hab hbc => hab.trans decides.trans hbc
  have hpositions : (o :: os).zipIdx = front ++ (best, i) :: back := hsplit
  obtain ⟨rfl, hplain⟩ := split_of_zipIdx hpositions
  refine ⟨front.map Prod.fst, back.map Prod.fst, hplain, ?_, by rwa [List.length_map], ?_⟩
  · rw [hplain]
    simp [List.eraseIdx_append_of_length_le]
  · intro earlier x between hfront
    obtain ⟨earlier', later, rfl, rfl, hlater⟩ := List.map_eq_append_iff.1 hfront
    obtain ⟨c, between', rfl, rfl, -⟩ := List.map_eq_cons_iff.1 hlater
    rcases hpassed earlier' c between' rfl with hgoes | ⟨d, hd, hgoes, hnot⟩
    · exact .inl hgoes
    · exact .inr ⟨d.1, List.mem_map_of_mem hd, hgoes, hnot⟩

/-- What is taken out of a worklist is the last of a succession of candidates. None goes before it, but it need not be
the earliest of which this can be said: one that stands earlier has been passed over where it had no preference against
something even earlier that what is taken goes before. If having no preference is transitive, none has been. -/
theorem selection_by_succession (decides : oracle.Decides implies) {s : S}
    (h : ((next? oracle os).run s).1 = some (best, rest)) :
    ∃ front back, os = front ++ best :: back ∧ rest = front ++ back ∧
      (∀ o others, os = o :: others →
        Succession (fun c d => Precedes oracle c.1 d.1) (o, 0) (others.zipIdx 1) (best, front.length)) ∧
      Unbeaten oracle os best ∧
      (∀ earlier x between, front = earlier ++ x :: between → Unbeaten oracle os x →
        ∃ y ∈ earlier, Precedes oracle best y ∧ Indifferent oracle x y) ∧
      ((∀ x ∈ os, ∀ y ∈ os, ∀ z ∈ os, Indifferent oracle x y → Indifferent oracle y z → Indifferent oracle x z) →
        ∀ x ∈ front, ¬ Unbeaten oracle os x) := by
  cases os with
  | nil => cases h
  | cons o os =>
    obtain ⟨front, back, hsplit, hrest, hsuccession, hpassed⟩ := succession_next? decides h
    obtain ⟨-, hnone⟩ := of_run_next? decides h
    have hmem {x : Obligation (StateM S)} (hx : x ∈ o :: os) : x = best ∨ x ∈ rest := by
      rw [hsplit] at hx
      rw [hrest]
      exact List.mem_cons.1 (List.perm_middle.mem_iff.1 hx)
    have hbest : ∀ x ∈ o :: os, ¬ Before implies x best := by
      intro x hx
      rcases hmem hx with rfl | hx
      · exact not_before_self x
      · exact hnone x hx
    have hover (earlier : List (Obligation (StateM S))) (x : Obligation (StateM S))
        (between : List (Obligation (StateM S))) (hfront : front = earlier ++ x :: between)
        (hx : Unbeaten oracle (o :: os) x) : ∃ y ∈ earlier, Precedes oracle best y ∧ Indifferent oracle x y := by
      rw [unbeaten_iff decides s] at hx
      have hearlier {y : Obligation (StateM S)} (hy : y ∈ earlier) : y ∈ o :: os := by
        rw [hsplit, hfront]
        exact List.mem_append_left _ (List.mem_append_left _ hy)
      rcases hpassed earlier x between hfront with hgoes | ⟨y, hy, hgoes, hnot⟩
      · exact absurd hgoes (hx best (by rw [hsplit]; simp))
      · exact ⟨y, hy, (precedes_iff decides s).2 hgoes, (indifferent_iff decides s).2 ⟨hnot, hx y (hearlier hy)⟩⟩
    refine ⟨front, back, hsplit, hrest, fun o' others heq => ?_, (unbeaten_iff decides s).2 hbest, hover,
      fun trans x hx hunbeaten => ?_⟩
    · cases heq
      exact hsuccession.congr fun c d => (precedes_iff decides s).symm
    · obtain ⟨earlier, between, hfront⟩ := List.append_of_mem hx
      obtain ⟨y, hy, hgoes, hxy⟩ := hover earlier x between hfront hunbeaten
      have hx : x ∈ o :: os := by rw [hsplit]; exact List.mem_append_left _ hx
      have hy : y ∈ o :: os := by rw [hsplit, hfront]; simp [hy]
      have hb : best ∈ o :: os := by rw [hsplit]; simp
      have hbx : Indifferent oracle best x :=
        (indifferent_iff decides s).2 ⟨(unbeaten_iff decides s).1 hunbeaten best hb, hbest x hx⟩
      exact absurd ((hgoes s).symm.trans (trans best hb x hx y hy hbx hxy s)) (by decide)

def oneWayOracle (f g : Formula) : Oracle (StateM Unit) where
  implies f' g' := pure (decide (f' = g' ∨ f' = f ∧ g' = g))
  equivalent f' g' := pure (decide ((f' = g' ∨ f' = f ∧ g' = g) ∧ (g' = f' ∨ g' = f ∧ f' = g)))

theorem decides_oneWayOracle (f g : Formula) :
    (oneWayOracle f g).Decides fun f' g' => f' = g' ∨ f' = f ∧ g' = g where
  implies_iff _ _ _ := decide_eq_true_iff
  equivalent_iff _ _ _ := decide_eq_true_iff
  refl _ := .inl rfl
  trans f' g' h hfg hgh := by
    rcases hfg with rfl | ⟨rfl, rfl⟩
    · exact hgh
    · rcases hgh with rfl | ⟨-, rfl⟩
      · exact .inr ⟨rfl, rfl⟩
      · exact .inr ⟨rfl, rfl⟩

section PassedOver

variable {f g h : Formula}

theorem priority_oneWay_iff (hne : f ≠ g) (x y : Formula) (s : Unit) :
    ((priority (oneWayOracle f g) (.invariant ⟨none, x⟩) (.invariant ⟨none, y⟩)).run s).1 = .lt ↔ x = g ∧ y = f := by
  rw [priority_eq_lt_iff (decides_oneWayOracle f g), Obligation.before_iff_weaker rfl rfl rfl, Obligation.Weaker]
  constructor
  · rintro ⟨rfl | ⟨rfl, rfl⟩, hlt⟩
    · exact absurd (hlt (.inl rfl)) (by rw [Formula.order_self]; decide)
    · exact ⟨rfl, rfl⟩
  · rintro ⟨rfl, rfl⟩
    refine ⟨.inr ⟨rfl, rfl⟩, ?_⟩
    rintro (heq | ⟨heq, -⟩)
    · exact absurd heq.symm hne
    · exact absurd heq.symm hne

theorem run_next?_oneWay (hfg : f ≠ g) (hgh : h ≠ g) :
    ((next? (oneWayOracle f g) [.invariant ⟨none, f⟩, .invariant ⟨none, h⟩, .invariant ⟨none, g⟩]).run ()).1 =
      some (.invariant ⟨none, g⟩, [.invariant ⟨none, f⟩, .invariant ⟨none, h⟩]) := by
  rw [next?, run_bind_fst, List.zipIdx_cons, List.zipIdx_cons, run_scan_cons, if_neg, run_scan_cons, if_pos]
  · rfl
  · exact (priority_oneWay_iff hfg _ _ _).2 ⟨rfl, rfl⟩
  · exact fun hlt => hgh ((priority_oneWay_iff hfg _ _ _).1 hlt).1

theorem unbeaten_oneWay (hfg : f ≠ g) (hfh : h ≠ f) :
    Unbeaten (oneWayOracle f g) [.invariant ⟨none, f⟩, .invariant ⟨none, h⟩, .invariant ⟨none, g⟩]
      (.invariant ⟨none, h⟩) := by
  intro b hb s hlt
  have hformula : ∃ x, b = .invariant ⟨none, x⟩ := by
    simp only [List.mem_cons, List.not_mem_nil, or_false] at hb
    rcases hb with rfl | rfl | rfl <;> exact ⟨_, rfl⟩
  obtain ⟨x, rfl⟩ := hformula
  exact hfh ((priority_oneWay_iff hfg _ _ _).1 hlt).2

theorem tested_ne {x y : String} (h : x ≠ y) : tested x ≠ tested y := by
  intro heq
  have hvar := congrArg Expr.shape (Clause.nonzero.inj (congrArg Formula.clause heq))
  exact h (by simpa [Expr.var, Variable.ofGlobal] using hvar)

theorem invariant_ne (h : f ≠ g) : (.invariant ⟨none, f⟩ : Obligation (StateM Unit)) ≠ .invariant ⟨none, g⟩ :=
  fun heq => h (Option.some.inj (congrArg Obligation.formula? heq))

theorem selection_by_succession_of_three :
    ∃ (implies : Formula → Formula → Prop) (oracle : Oracle (StateM Unit)) (a b c : Obligation (StateM Unit)),
      a = .invariant ⟨none, tested "a"⟩ ∧ b = .invariant ⟨none, tested "b"⟩ ∧ c = .invariant ⟨none, tested "c"⟩ ∧
      oracle.Decides implies ∧ ((next? oracle [a, b, c]).run ()).1 = some (c, [a, b]) ∧ Unbeaten oracle [a, b, c] c ∧
      Unbeaten oracle [a, b, c] b ∧ Precedes oracle c a ∧ Indifferent oracle b a := by
  have hac : tested "a" ≠ tested "c" := tested_ne (by decide)
  have hba : tested "b" ≠ tested "a" := tested_ne (by decide)
  have hbc : tested "b" ≠ tested "c" := tested_ne (by decide)
  have hrun := run_next?_oneWay hac hbc
  have hb := unbeaten_oneWay hac hba
  obtain ⟨front, back, hsplit, -, -, hc, hpassed, -⟩ :=
    selection_by_succession (decides_oneWayOracle (tested "a") (tested "c")) hrun
  have hlast : (.invariant ⟨none, tested "c"⟩ : Obligation (StateM Unit)) ∉
      [.invariant ⟨none, tested "a"⟩, .invariant ⟨none, tested "b"⟩] :=
    List.not_mem_cons_of_ne_of_not_mem (invariant_ne hac).symm
      (List.not_mem_cons_of_ne_of_not_mem (invariant_ne hbc).symm List.not_mem_nil)
  obtain ⟨hfront, -, -⟩ := (List.append_cons_inj_of_notMem hlast List.not_mem_nil).1 hsplit
  obtain ⟨y, hy, hgoes, hindifferent⟩ := hpassed [.invariant ⟨none, tested "a"⟩] _ [] hfront.symm hb
  cases List.mem_singleton.1 hy
  exact ⟨_, _, _, _, _, rfl, rfl, rfl, decides_oneWayOracle _ _, hrun, hc, hb, hgoes, hindifferent⟩

/-- Of three tests, the third follows from the first. Nothing goes before the second, which stands earlier than the
third, and there is no preference between the two. Yet the third is taken. -/
theorem earliest_passed_over :
    ∃ (implies : Formula → Formula → Prop) (oracle : Oracle (StateM Unit)) (a b c : Obligation (StateM Unit)),
      a = .invariant ⟨none, tested "a"⟩ ∧ b = .invariant ⟨none, tested "b"⟩ ∧ c = .invariant ⟨none, tested "c"⟩ ∧
      oracle.Decides implies ∧ Unbeaten oracle [a, b, c] b ∧ Indifferent oracle b c ∧
      ((next? oracle [a, b, c]).run ()).1 = some (c, [a, b]) ∧ c ≠ b := by
  have hac : tested "a" ≠ tested "c" := tested_ne (by decide)
  have hba : tested "b" ≠ tested "a" := tested_ne (by decide)
  have hbc : tested "b" ≠ tested "c" := tested_ne (by decide)
  have decides := decides_oneWayOracle (tested "a") (tested "c")
  have hindifferent : Indifferent (oneWayOracle (tested "a") (tested "c")) (.invariant ⟨none, tested "b"⟩)
      (.invariant ⟨none, tested "c"⟩) := by
    rw [indifferent_iff decides (), ← priority_eq_lt_iff decides _ _ (), ← priority_eq_lt_iff decides _ _ (),
      priority_oneWay_iff hac, priority_oneWay_iff hac]
    exact ⟨fun h => hac h.2.symm, fun h => hba h.2⟩
  exact ⟨_, _, _, _, _, rfl, rfl, rfl, decides, unbeaten_oneWay hac hba, hindifferent, run_next?_oneWay hac hbc,
    invariant_ne hbc.symm⟩

end PassedOver

end Selections

end Retrace.Search.Worklist
