import Retrace.Formula.Build
import Retrace.Proofs.Order.Formula

/-!
The parts of a junction: which operands are left once it is flat, and what sorting them and dropping
repetitions does. A junction is decided by one of its operands, or else it has exactly the operands of
its flat list, in increasing order.
-/

set_option autoImplicit false

namespace Retrace

open Std

theorem pairwise_mergeSort_of_transCmp {α : Type} {cmp : α → α → Ordering} [TransCmp cmp] {le : α → α → Bool}
    (hle : ∀ a b, le a b = true ↔ (cmp a b).isLE = true) (as : List α) :
    (as.mergeSort le).Pairwise fun a b => (cmp a b).isLE := by
  have htrans : ∀ a b c, le a b = true → le b c = true → le a c = true := by
    intro a b c hab hbc
    rw [hle] at hab hbc ⊢
    exact TransCmp.isLE_trans hab hbc
  have htotal : ∀ a b, (le a b || le b a) = true := by
    intro a b
    have hswap : cmp b a = (cmp a b).swap := OrientedCmp.eq_swap
    rw [Bool.or_eq_true, hle, hle, hswap]
    cases cmp a b <;> decide
  exact (List.pairwise_mergeSort htrans htotal as).imp fun hab => (hle _ _).1 hab

namespace Formula

theorem flattenAll_eq_none_iff (k : Connective) (fs : List Formula) :
    flattenAll k fs = none ↔ ∃ f ∈ fs, f.const? = some (!k.neutral) := by
  induction fs with
  | nil => simp [flattenAll]
  | cons f fs ih =>
    rw [flattenAll]
    split
    · rename_i h
      simp [h]
    · rename_i h
      simp [h, ih]

theorem flattenAll_eq_some {k : Connective} {fs flat : List Formula} (h : flattenAll k fs = some flat) :
    flat = fs.flatMap (flatten k) := by
  induction fs generalizing flat with
  | nil =>
    cases h
    rfl
  | cons f fs ih =>
    rw [flattenAll] at h
    split at h
    · cases h
    · obtain ⟨rest, hrest, rfl⟩ := Option.map_eq_some_iff.1 h
      rw [ih hrest, List.flatMap_cons]

theorem flattenAll_of_ne {k : Connective} {fs : List Formula} (h : ∀ f ∈ fs, f.const? ≠ some (!k.neutral)) :
    flattenAll k fs = some (fs.flatMap (flatten k)) := by
  cases hflat : flattenAll k fs with
  | none =>
    obtain ⟨f, hf, hconst⟩ := (flattenAll_eq_none_iff k fs).1 hflat
    exact absurd hconst (h f hf)
  | some flat => rw [flattenAll_eq_some hflat]

theorem mem_dropRepeated {g : Formula} (fs : List Formula) : g ∈ dropRepeated fs ↔ g ∈ fs := by
  fun_induction dropRepeated fs with
  | case1 => rfl
  | case2 => rfl
  | case3 f fs ih => rw [ih]; simp
  | case4 f g' fs hne ih => simp [ih]

theorem pairwise_dropRepeated (fs : List Formula) (h : fs.Pairwise fun f g => (order f g).isLE) :
    (dropRepeated fs).Pairwise fun f g => order f g = .lt := by
  fun_induction dropRepeated fs with
  | case1 => exact .nil
  | case2 f => exact List.pairwise_singleton _ f
  | case3 f fs ih => exact ih (List.pairwise_cons.1 h).2
  | case4 f g fs hne ih =>
    obtain ⟨hf, hrest⟩ := List.pairwise_cons.1 h
    refine List.pairwise_cons.2 ⟨fun x hx => ?_, ih hrest⟩
    -- `f` is below its neighbour, and the neighbour is below all that follow.
    have hfg : order f g = .lt := by
      cases hord : order f g with
      | lt => rfl
      | eq => exact absurd (eq_of_order f g hord) hne
      | gt =>
        have hle := hf g List.mem_cons_self
        rw [hord] at hle
        cases hle
    have hgx : (order g x).isLE := by
      rcases List.mem_cons.1 ((mem_dropRepeated _).1 hx) with rfl | hmem
      · rw [order_self]; rfl
      · exact (List.pairwise_cons.1 hrest).1 x hmem
    exact TransCmp.lt_of_lt_of_isLE hfg hgx

theorem dropRepeated_of_pairwise (fs : List Formula) (h : fs.Pairwise fun f g => order f g = .lt) :
    dropRepeated fs = fs := by
  fun_induction dropRepeated fs with
  | case1 => rfl
  | case2 => rfl
  | case3 f fs ih =>
    have hlt := (List.pairwise_cons.1 h).1 f List.mem_cons_self
    rw [order_self] at hlt
    cases hlt
  | case4 f g fs hne ih => rw [ih (List.pairwise_cons.1 h).2]

theorem atMost_iff (f g : Formula) : atMost f g = true ↔ (order f g).isLE = true := by
  unfold atMost
  cases order f g <;> decide

theorem pairwise_mergeSort_atMost (fs : List Formula) :
    (fs.mergeSort atMost).Pairwise fun f g => (order f g).isLE :=
  pairwise_mergeSort_of_transCmp atMost_iff fs

theorem mem_canonical {g : Formula} (fs : List Formula) : g ∈ canonical fs ↔ g ∈ fs := by
  rw [canonical, mem_dropRepeated, List.mem_mergeSort]

theorem pairwise_canonical (fs : List Formula) :
    (canonical fs).Pairwise fun f g => order f g = .lt :=
  pairwise_dropRepeated _ (pairwise_mergeSort_atMost fs)

theorem canonical_of_pairwise {fs : List Formula} (h : fs.Pairwise fun f g => order f g = .lt) :
    canonical fs = fs := by
  have hle : fs.Pairwise fun f g => atMost f g = true :=
    h.imp fun hfg => (atMost_iff _ _).2 (by rw [hfg]; rfl)
  rw [canonical, List.mergeSort_of_pairwise hle, dropRepeated_of_pairwise fs h]

/-- What a junction amounts to: one operand decides it, nothing is left of it, one operand is left of
it, or it is a node over at least two operands. -/
theorem junction_cases (k : Connective) (fs : List Formula) :
    ((∃ f ∈ fs, f.const? = some (!k.neutral)) ∧ junction k fs = const (!k.neutral)) ∨
    (∀ f ∈ fs, f.const? ≠ some (!k.neutral)) ∧
      ((canonical (fs.flatMap (flatten k)) = [] ∧ junction k fs = const k.neutral) ∨
      (∃ f, canonical (fs.flatMap (flatten k)) = [f] ∧ junction k fs = f) ∨
      (2 ≤ (canonical (fs.flatMap (flatten k))).length ∧
        junction k fs = of (.junction k (canonical (fs.flatMap (flatten k)))))) := by
  by_cases hdecided : ∃ f ∈ fs, f.const? = some (!k.neutral)
  · left
    refine ⟨hdecided, ?_⟩
    rw [junction, (flattenAll_eq_none_iff k fs).2 hdecided]
  · right
    push Not at hdecided
    refine ⟨hdecided, ?_⟩
    rw [junction, flattenAll_of_ne hdecided]
    dsimp only
    cases canonical (fs.flatMap (flatten k)) with
    | nil => exact .inl ⟨rfl, rfl⟩
    | cons f rest =>
      cases rest with
      | nil => exact .inr (.inl ⟨f, rfl, rfl⟩)
      | cons g rest => exact .inr (.inr ⟨by simp, rfl⟩)

end Formula
end Retrace
