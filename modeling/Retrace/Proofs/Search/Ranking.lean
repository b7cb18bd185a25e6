import Retrace.Proofs.Search.Priority
import Mathlib.Data.Prod.Lex

/-!
The kinds of two obligations decide their priority before their formulas are looked at. The rules that do so
are one comparison of ranks, so they hold together whatever an oracle answers: an oracle without any
consistency can put obligations of one rank in a circle, but none of another rank.
-/

set_option autoImplicit false

namespace Retrace.Search.Obligation

section Places

variable {m : Type → Type}

def place (a : Obligation m) : Nat ×ₗ Int := toLex a.rank

theorem place_eq_iff {a b : Obligation m} : a.place = b.place ↔ a.rank = b.rank := toLex_inj

theorem rankOrder_eq_compare (a b : Obligation m) : rankOrder a b = compare a.place b.place := by
  rw [rankOrder_eq, Prod.Lex.compare_def]
  rfl

theorem rankOrder_eq_iff_place (a b : Obligation m) : rankOrder a b = .eq ↔ a.place = b.place := by
  rw [rankOrder_eq_iff, place_eq_iff]

variable [Monad m] (oracle : Oracle m) {a b c : Obligation m}

theorem priority_of_place_ne (h : a.place ≠ b.place) :
    priority oracle a b = pure (compare a.place b.place) := by
  have hrank : rankOrder a b ≠ .eq := fun heq => h ((rankOrder_eq_iff_place a b).1 heq)
  rw [← rankOrder_eq_compare]
  unfold priority
  split
  · rename_i heq _ _
    exact absurd heq hrank
  · rfl

theorem priority_of_place_eq (h : a.place = b.place) (hnone : a.formula? = none ∨ b.formula? = none) :
    priority oracle a b = pure .eq := by
  have hrank : rankOrder a b = .eq := (rankOrder_eq_iff_place a b).2 h
  unfold priority
  rcases hnone with hnone | hnone <;> simp [hrank, hnone]

theorem priority_of_formulas {f g : Formula} (h : a.place = b.place) (hf : a.formula? = some f)
    (hg : b.formula? = some g) : priority oracle a b = formulaOrder oracle f g := by
  have hrank : rankOrder a b = .eq := (rankOrder_eq_iff_place a b).2 h
  simp only [priority, hrank, hf, hg]

/-- An obligation of a better rank goes first, whatever the oracle says. -/
theorem priority_of_place_lt (h : a.place < b.place) : priority oracle a b = pure .lt := by
  rw [priority_of_place_ne oracle h.ne, compare_lt_iff_lt.2 h]

end Places

/-- Priority is the order of the ranks; only within a rank are formulas compared, where there are any. So of
two obligations the one that ranks no later goes last only if nothing between them has another rank. -/
theorem priority_follows_rank {S : Type} (oracle : Oracle (StateM S)) :
    (∀ a b : Obligation (StateM S), a.place ≠ b.place →
      priority oracle a b = pure (compare a.place b.place)) ∧
    (∀ a b : Obligation (StateM S), a.place = b.place → a.formula? = none ∨ b.formula? = none →
      priority oracle a b = pure .eq) ∧
    (∀ (a b : Obligation (StateM S)) (f g : Formula), a.place = b.place → a.formula? = some f →
      b.formula? = some g → priority oracle a b = formulaOrder oracle f g) ∧
    (∀ (a b c : Obligation (StateM S)) (s : S), a.place ≤ b.place → b.place ≤ c.place →
      ((priority oracle a c).run s).1 = .gt → a.place = b.place ∧ b.place = c.place) := by
  refine ⟨fun a b => priority_of_place_ne oracle, fun a b => priority_of_place_eq oracle,
    fun a b f g => priority_of_formulas oracle, fun a b c s hab hbc hgt => ?_⟩
  have hac : ¬ a.place < c.place := by
    intro hlt
    rw [priority_of_place_lt oracle hlt] at hgt
    cases hgt
  have hca : c.place ≤ a.place := not_lt.1 hac
  exact ⟨le_antisymm hab (hbc.trans hca), le_antisymm hbc (hca.trans hab)⟩

def fickleOracle : Oracle (StateM Bool) where
  implies _ _ := do
    let answer ← get
    set (!answer)
    return answer
  equivalent _ _ := pure false

theorem run_formulaOrder_fickleOracle {f g : Formula} (hne : f ≠ g) :
    ((formulaOrder fickleOracle f g).run false).1 = .gt := by
  unfold formulaOrder
  rw [if_neg hne]
  rfl

/-- What always holds is put after what never holds, as both are invariants. A stop without a reason goes
before an invariant all the same, and two stops with reasons are alike. -/
theorem priority_follows_rank_of_fickle :
    ∃ a b c : Obligation (StateM Bool), a.formula? = some (.const true) ∧ c.formula? = some (.const false) ∧
      ((priority fickleOracle a c).run false).1 = .gt ∧ a.place = b.place ∧ b.place = c.place ∧
      priority fickleOracle (stop .nothing) a = pure .lt ∧
      priority fickleOracle (stop .timeout) (stop .finished) = pure .eq := by
  obtain ⟨hdiffer, hnone, hformulas, hlast⟩ := priority_follows_rank fickleOracle
  let a : Obligation (StateM Bool) := invariant ⟨none, .const true⟩
  let c : Obligation (StateM Bool) := invariant ⟨none, .const false⟩
  have hgt : ((priority fickleOracle a c).run false).1 = .gt := by
    rw [hformulas a c _ _ rfl rfl rfl]
    exact run_formulaOrder_fickleOracle const_true_ne_const_false
  obtain ⟨hab, hbc⟩ := hlast a a c false (le_refl _) (le_refl _) hgt
  refine ⟨a, a, c, rfl, rfl, hgt, hab, hbc, ?_, hnone _ _ rfl (.inl rfl)⟩
  exact hdiffer _ _ (by decide)

end Retrace.Search.Obligation
