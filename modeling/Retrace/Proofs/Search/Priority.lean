import Retrace.Proofs.Order.Formula
import Retrace.Search.Priority

/-!
The priority of obligations is a strict partial order. The kind of an obligation gives it a rank, and ranks
are totally ordered; within a rank the weaker formula goes first. Having no preference is not transitive, so
what is followed through chains is the relation of going before.
-/

set_option autoImplicit false

namespace Retrace

/-- The oracle's answers are those of an implication, whatever was asked before: implication is a preorder,
and equivalence is implication both ways. -/
structure Oracle.Decides {S : Type} (oracle : Oracle (StateM S)) (implies : Formula → Formula → Prop) :
    Prop where
  implies_iff : ∀ f g s, ((oracle.implies f g).run s).1 = true ↔ implies f g
  equivalent_iff : ∀ f g s, ((oracle.equivalent f g).run s).1 = true ↔ implies f g ∧ implies g f
  refl : ∀ f, implies f f
  trans : ∀ f g h, implies f g → implies g h → implies f h

namespace Search

section Preferences

variable {α : Type} {before : α → α → Prop} {a b c : α} {o o' : Ordering}

def Prefers (before : α → α → Prop) (a b : α) : Ordering → Prop
  | .lt => before a b
  | .gt => before b a
  | .eq => ¬ before a b ∧ ¬ before b a

theorem Prefers.eq_lt_iff (asymm : ∀ a b, before a b → ¬ before b a) (h : Prefers before a b o) :
    o = .lt ↔ before a b := by
  cases o with
  | lt => exact ⟨fun _ => h, fun _ => rfl⟩
  | eq => exact iff_of_false (by simp) h.1
  | gt => exact iff_of_false (by simp) (asymm b a h)

theorem Prefers.eq_swap (asymm : ∀ a b, before a b → ¬ before b a) (h : Prefers before a b o)
    (h' : Prefers before b a o') : o = o'.swap := by
  cases o with
  | lt =>
    cases o' with
    | lt => exact absurd h' (asymm a b h)
    | eq => exact absurd h h'.2
    | gt => rfl
  | eq =>
    cases o' with
    | lt => exact absurd h' h.2
    | eq => rfl
    | gt => exact absurd h' h.1
  | gt =>
    cases o' with
    | lt => rfl
    | eq => exact absurd h h'.1
    | gt => exact absurd h' (asymm b a h)

theorem Prefers.of_iff {β : Type} {before' : β → β → Prop} {a' b' : β} (h : Prefers before' a' b' o)
    (hab : before a b ↔ before' a' b') (hba : before b a ↔ before' b' a') : Prefers before a b o := by
  cases o with
  | lt => exact hab.2 h
  | gt => exact hba.2 h
  | eq => exact ⟨fun hbefore => h.1 (hab.1 hbefore), fun hbefore => h.2 (hba.1 hbefore)⟩

end Preferences

namespace Obligation

section Ranks

variable {m : Type → Type}

/-- Stops without a reason, preserved preconditions, invariants, other preconditions, postconditions from
the last point to the first, stops with a reason. -/
def rank : Obligation m → Nat × Int
  | stop .nothing => (0, 0)
  | precondition p => if p.preserved then (1, 0) else (3, 0)
  | invariant _ => (2, 0)
  | postcondition p => (4, -p.point)
  | stop _ => (5, 0)

theorem rankOrder_eq (a b : Obligation m) :
    rankOrder a b = (compare a.rank.1 b.rank.1).then (compare a.rank.2 b.rank.2) := by
  rcases a with ⟨_ | _⟩ | ⟨_, _, _ | _⟩ | p | _ <;> rcases b with ⟨_ | _⟩ | ⟨_, _, _ | _⟩ | q | _
  case postcondition.postcondition =>
    have hpoints : compare (-(p.point : Int)) (-(q.point : Int)) = compare q.point p.point := by
      simp only [compare, compareOfLessAndEq]
      grind
    simp [rankOrder, rank, prefer, isVoid, formula?, isPostcondition, isPreserved, isInvariant, point, hpoints]
  all_goals rfl

theorem rankOrder_eq_iff (a b : Obligation m) : rankOrder a b = .eq ↔ a.rank = b.rank := by
  rw [rankOrder_eq, Ordering.then_eq_eq, Std.compare_eq_iff_eq, Std.compare_eq_iff_eq, Prod.ext_iff]

theorem rankOrder_swap (a b : Obligation m) : rankOrder a b = (rankOrder b a).swap := by
  rw [rankOrder_eq a b, rankOrder_eq b a]
  exact swap_then Std.OrientedOrd.eq_swap fun _ => Std.OrientedOrd.eq_swap

theorem rankOrder_composes (a b c : Obligation m) :
    Composes (rankOrder a b) (rankOrder b c) (rankOrder a c) := by
  rw [rankOrder_eq a b, rankOrder_eq b c, rankOrder_eq a c]
  exact (Composes.of_compare _ _ _).then fun _ _ => .of_compare _ _ _

end Ranks

def Weaker (implies : Formula → Formula → Prop) (f g : Formula) : Prop :=
  implies g f ∧ (implies f g → f.order g = .lt)

def Before {m : Type → Type} (implies : Formula → Formula → Prop) (a b : Obligation m) : Prop :=
  rankOrder a b = .lt ∨
    rankOrder a b = .eq ∧ ∃ f g, a.formula? = some f ∧ b.formula? = some g ∧ Weaker implies f g

section Relations

variable {implies : Formula → Formula → Prop}

theorem not_weaker_self (f : Formula) : ¬ Weaker implies f f := by
  rintro ⟨himplies, hlt⟩
  have hlt := hlt himplies
  rw [Formula.order_self] at hlt
  cases hlt

theorem Weaker.trans (trans : ∀ f g h, implies f g → implies g h → implies f h) {f g h : Formula}
    (hfg : Weaker implies f g) (hgh : Weaker implies g h) : Weaker implies f h := by
  obtain ⟨hgf, hfg⟩ := hfg
  obtain ⟨hhg, hgh⟩ := hgh
  refine ⟨trans h g f hhg hgf, fun hfh => ?_⟩
  -- An implication from one end of the chain to the other makes all three equivalent.
  have hlt : f.order g = .lt := hfg (trans f h g hfh hhg)
  have hlt' : g.order h = .lt := hgh (trans g f h hgf hfh)
  exact Std.TransCmp.lt_trans hlt hlt'

variable {m : Type → Type}

theorem before_iff_weaker {a b : Obligation m} {f g : Formula} (hrank : rankOrder a b = .eq)
    (hf : a.formula? = some f) (hg : b.formula? = some g) : Before implies a b ↔ Weaker implies f g := by
  simp [Before, hrank, hf, hg]

theorem not_before_of_formula {a b : Obligation m} (hrank : rankOrder a b = .eq)
    (h : a.formula? = none ∨ b.formula? = none) : ¬ Before implies a b := by
  rcases h with h | h <;> simp [Before, hrank, h]

theorem not_before_self (a : Obligation m) : ¬ Before implies a a := by
  rintro (hlt | ⟨-, f, g, hf, hg, hweaker⟩)
  · rw [(rankOrder_eq_iff a a).2 rfl] at hlt
    cases hlt
  · cases hf.symm.trans hg
    exact not_weaker_self f hweaker

theorem Before.trans (trans : ∀ f g h, implies f g → implies g h → implies f h) {a b c : Obligation m}
    (hab : Before implies a b) (hbc : Before implies b c) : Before implies a c := by
  obtain ⟨hleft, hright, hsame⟩ := rankOrder_composes a b c
  rcases hab with hab | ⟨hab, f, g, hf, hg, hfg⟩
  · rcases hbc with hbc | ⟨hbc, -⟩
    · exact .inl ((hsame (hab.trans hbc.symm)).trans hab)
    · exact .inl ((hright hbc).trans hab)
  · rcases hbc with hbc | ⟨hbc, g', h, hg', hh, hgh⟩
    · exact .inl ((hleft hab).trans hbc)
    · cases hg.symm.trans hg'
      exact .inr ⟨(hleft hab).trans hbc, f, h, hf, hh, hfg.trans trans hgh⟩

theorem before_asymm (trans : ∀ f g h, implies f g → implies g h → implies f h) (a b : Obligation m)
    (hab : Before implies a b) : ¬ Before implies b a :=
  fun hba => not_before_self a (hab.trans trans hba)

end Relations

section Oracles

variable {S : Type} {oracle : Oracle (StateM S)} {implies : Formula → Formula → Prop}

theorem run_bind_fst {α β : Type} (x : StateM S α) (k : α → StateM S β) (s : S) :
    ((x >>= k).run s).1 = ((k (x.run s).1).run (x.run s).2).1 := rfl

theorem prefers_formulaOrder (decides : oracle.Decides implies) (f g : Formula) (s : S) :
    Prefers (Weaker implies) f g ((formulaOrder oracle f g).run s).1 := by
  unfold formulaOrder
  split
  · rename_i heq
    subst heq
    exact ⟨not_weaker_self f, not_weaker_self f⟩
  rename_i hne
  rw [run_bind_fst]
  split
  · rename_i hequivalent
    obtain ⟨hfg, hgf⟩ := (decides.equivalent_iff f g s).1 hequivalent
    change Prefers (Weaker implies) f g (f.order g)
    cases hord : f.order g with
    | lt => exact ⟨hgf, fun _ => hord⟩
    | gt => exact ⟨hfg, fun _ => by rw [Formula.order_swap, hord]; rfl⟩
    | eq => exact absurd (Formula.eq_of_order f g hord) hne
  rename_i hequivalent
  rw [decides.equivalent_iff] at hequivalent
  rw [run_bind_fst]
  split
  · rename_i hgf
    rw [decides.implies_iff] at hgf
    exact ⟨hgf, fun hfg => absurd ⟨hfg, hgf⟩ hequivalent⟩
  rename_i hgf
  rw [decides.implies_iff] at hgf
  rw [run_bind_fst]
  split
  · rename_i hfg
    rw [decides.implies_iff] at hfg
    exact ⟨hfg, fun hgf => absurd ⟨hfg, hgf⟩ hequivalent⟩
  · rename_i hfg
    rw [decides.implies_iff] at hfg
    exact ⟨fun hweaker => hgf hweaker.1, fun hweaker => hfg hweaker.1⟩

theorem prefers_priority (decides : oracle.Decides implies) (a b : Obligation (StateM S)) (s : S) :
    Prefers (Before implies) a b ((priority oracle a b).run s).1 := by
  have hswap := rankOrder_swap b a
  unfold priority
  cases hrank : rankOrder a b with
  | lt => exact .inl hrank
  | gt =>
    rw [hrank] at hswap
    exact .inl hswap
  | eq =>
    rw [hrank] at hswap
    cases hf : a.formula? with
    | none => exact ⟨not_before_of_formula hrank (.inl hf), not_before_of_formula hswap (.inr hf)⟩
    | some f =>
      cases hg : b.formula? with
      | none => exact ⟨not_before_of_formula hrank (.inr hg), not_before_of_formula hswap (.inl hg)⟩
      | some g =>
        have hanswer := prefers_formulaOrder decides f g s
        exact hanswer.of_iff (before_iff_weaker hrank hf hg) (before_iff_weaker hswap hg hf)

theorem priority_eq_lt_iff (decides : oracle.Decides implies) (a b : Obligation (StateM S)) (s : S) :
    ((priority oracle a b).run s).1 = .lt ↔ Before implies a b :=
  (prefers_priority decides a b s).eq_lt_iff (before_asymm decides.trans)

/-- The answers about priority are those of a strict partial order. -/
theorem priority_isStrictOrder (decides : oracle.Decides implies) :
    (∀ a b s t, ((priority oracle a b).run s).1 = ((priority oracle b a).run t).1.swap) ∧
    (∀ a s, ((priority oracle a a).run s).1 = .eq) ∧
    (∀ a b c s t u, ((priority oracle a b).run s).1 = .lt → ((priority oracle b c).run t).1 = .lt →
      ((priority oracle a c).run u).1 = .lt) ∧
    (∀ a b f g s, rankOrder a b = .eq → a.formula? = some f → b.formula? = some g → implies f g →
      ¬ implies g f → ((priority oracle b a).run s).1 = .lt) := by
  have hswap (a b : Obligation (StateM S)) (s t : S) :=
    (prefers_priority decides a b s).eq_swap (before_asymm decides.trans) (prefers_priority decides b a t)
  refine ⟨hswap, fun a s => eq_of_eq_swap (hswap a a s s), fun a b c s t u hab hbc => ?_,
    fun a b f g s hrank hf hg hfg hgf => ?_⟩
  · rw [priority_eq_lt_iff decides] at hab hbc ⊢
    exact hab.trans decides.trans hbc
  · have hrank : rankOrder b a = .eq := by rw [rankOrder_swap, hrank]; rfl
    rw [priority_eq_lt_iff decides, before_iff_weaker hrank hg hf]
    exact ⟨hfg, fun h => absurd h hgf⟩

end Oracles

def FollowsByConstants (f g : Formula) : Prop := f = g ∨ f = .const false ∨ g = .const true

instance (f g : Formula) : Decidable (FollowsByConstants f g) :=
  inferInstanceAs (Decidable (_ ∨ _))

def countingOracle : Oracle (StateM Nat) where
  implies f g := do
    modify (· + 1)
    return decide (FollowsByConstants f g)
  equivalent f g := do
    modify (· + 1)
    return decide (FollowsByConstants f g ∧ FollowsByConstants g f)

theorem const_true_ne_const_false : Formula.const true ≠ .const false := by
  intro heq
  have hclause := congrArg Formula.clause heq
  simp [Formula.const] at hclause

theorem const_ne_nonzero (b : Bool) (e : Expr) : Formula.const b ≠ .of (.nonzero e) := by
  intro heq
  have hclause := congrArg Formula.clause heq
  simp [Formula.const] at hclause

theorem decides_countingOracle : countingOracle.Decides FollowsByConstants where
  implies_iff f g s := decide_eq_true_iff
  equivalent_iff f g s := decide_eq_true_iff
  refl f := .inl rfl
  trans f g h hfg hgh := by
    rcases hfg with rfl | rfl | rfl
    · exact hgh
    · exact .inr (.inl rfl)
    · rcases hgh with rfl | htrue | rfl
      · exact .inr (.inr rfl)
      · exact absurd htrue const_true_ne_const_false
      · exact .inr (.inr rfl)

theorem priority_isStrictOrder_of_constants :
    ∃ a b c : Obligation (StateM Nat), countingOracle.Decides FollowsByConstants ∧
      a.formula? = some (.const true) ∧ b.formula? = some (.of (.nonzero (.var .receiver))) ∧
      c.formula? = some (.const false) ∧
      ((priority countingOracle a b).run 0).1 = .lt ∧ ((priority countingOracle b c).run 0).1 = .lt ∧
      ((priority countingOracle a c).run 0).1 = .lt ∧ ((priority countingOracle c a).run 0).1 = .gt := by
  obtain ⟨hswap, -, htrans, hweaker⟩ := priority_isStrictOrder decides_countingOracle
  have hstrict (f g : Formula) (hfg : FollowsByConstants f g) (hgf : ¬ FollowsByConstants g f) :
      ((priority countingOracle (invariant ⟨none, g⟩) (invariant ⟨none, f⟩)).run 0).1 = .lt :=
    hweaker _ _ f g 0 rfl rfl rfl hfg hgf
  have hab := hstrict (.of (.nonzero (.var .receiver))) (.const true) (.inr (.inr rfl)) (by
    rintro (heq | heq | heq)
    · exact const_ne_nonzero _ _ heq
    · exact const_true_ne_const_false heq
    · exact const_ne_nonzero _ _ heq.symm)
  have hbc := hstrict (.const false) (.of (.nonzero (.var .receiver))) (.inr (.inl rfl)) (by
    rintro (heq | heq | heq)
    · exact const_ne_nonzero _ _ heq.symm
    · exact const_ne_nonzero _ _ heq.symm
    · exact const_true_ne_const_false heq.symm)
  have hac := htrans _ _ _ 0 0 0 hab hbc
  refine ⟨_, _, _, decides_countingOracle, rfl, rfl, rfl, hab, hbc, hac, ?_⟩
  rw [hswap _ _ 0 0, hac]
  rfl

end Obligation
end Search
end Retrace
