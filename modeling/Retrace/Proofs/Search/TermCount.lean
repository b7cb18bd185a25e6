import Retrace.Proofs.Search.Attribution
import Mathlib.Data.Set.Card

/-!
The number of terms of a value. A term occurs once for every way down to it through the operations of the value, and in
a value with shared operands there are more ways down than a word can count. Spending a budget on the terms decides how
many there are all the same; counting them does so for every number but the largest of a word, at which it stops.
-/

set_option autoImplicit false

namespace Retrace.Expr

/-- Where a term stands in a value: the operands that lead to it through operations, by their places. Constants and
operations are no terms. -/
inductive TermAt : Expr → List Nat → Expr → Prop
  | here {e : Expr} (term : e.isRvalue = false) : TermAt e [] e
  | operand {e c t : Expr} {i : Nat} {p : List Nat} (value : e.isRvalue = true) (child : e.children[i]? = some c)
    (below : TermAt c p t) : TermAt e (i :: p) t

def occurrences (e : Expr) : Set (List Nat) := {p | ∃ t, e.TermAt p t}

variable {e : Expr} {p : List Nat}

theorem occurrences_of_term (h : e.isRvalue = false) : e.occurrences = {[]} := by
  ext p
  constructor
  · rintro ⟨t, hterm⟩
    cases hterm with
    | here => rfl
    | operand value => cases h.symm.trans value
  · rintro rfl
    exact ⟨e, .here h⟩

theorem mem_occurrences_of_value (h : e.isRvalue = true) :
    p ∈ e.occurrences ↔ ∃ i c q, e.children[i]? = some c ∧ q ∈ c.occurrences ∧ i :: q = p := by
  constructor
  · rintro ⟨t, hterm⟩
    cases hterm with
    | here term => cases h.symm.trans term
    | operand _ child below => exact ⟨_, _, _, child, ⟨t, below⟩, rfl⟩
  · rintro ⟨i, c, q, hchild, ⟨t, hterm⟩, rfl⟩
    exact ⟨t, .operand h hchild hterm⟩

theorem occurrences_of_constant (h : e.isRvalue = true) (hnone : e.children = []) : e.occurrences = ∅ := by
  ext p
  rw [mem_occurrences_of_value h, hnone]
  simp

theorem occurrences_of_single {a : Expr} (h : e.isRvalue = true) (hone : e.children = [a]) :
    e.occurrences = (0 :: ·) '' a.occurrences := by
  ext p
  rw [mem_occurrences_of_value h, hone]
  constructor
  · rintro ⟨i, c, q, hchild, hq, rfl⟩
    cases i with
    | zero =>
      cases hchild
      exact ⟨q, hq, rfl⟩
    | succ i => cases hchild
  · rintro ⟨q, hq, rfl⟩
    exact ⟨0, a, q, rfl, hq, rfl⟩

theorem occurrences_of_pair {l r : Expr} (h : e.isRvalue = true) (htwo : e.children = [l, r]) :
    e.occurrences = (0 :: ·) '' l.occurrences ∪ (1 :: ·) '' r.occurrences := by
  ext p
  rw [mem_occurrences_of_value h, htwo]
  constructor
  · rintro ⟨i, c, q, hchild, hq, rfl⟩
    cases i with
    | zero =>
      cases hchild
      exact .inl ⟨q, hq, rfl⟩
    | succ i =>
      cases i with
      | zero =>
        cases hchild
        exact .inr ⟨q, hq, rfl⟩
      | succ i => cases hchild
  · rintro (⟨q, hq, rfl⟩ | ⟨q, hq, rfl⟩)
    · exact ⟨0, l, q, rfl, hq, rfl⟩
    · exact ⟨1, r, q, rfl, hq, rfl⟩

/-- The exact count is the number of places at which terms stand. -/
theorem encard_occurrences (e : Expr) : e.occurrences.encard = e.exactCount := by
  induction e using inductionOnParts with
  | step e ih =>
    obtain ⟨d, s⟩ := e
    cases s with
    | int | float =>
      rw [occurrences_of_constant rfl rfl, Set.encard_empty]
      rfl
    | unary op w a =>
      rw [occurrences_of_single rfl rfl, List.cons_injective.encard_image, ih a List.mem_cons_self]
      rfl
    | binary op w stride l r =>
      have hl := ih l List.mem_cons_self
      have hr := ih r (List.mem_cons_of_mem l List.mem_cons_self)
      have hdisjoint : Disjoint ((0 :: ·) '' l.occurrences) ((1 :: ·) '' r.occurrences) := by
        rw [Set.disjoint_left]
        rintro _ ⟨q, -, rfl⟩ ⟨q', -, heq⟩
        cases heq
      rw [occurrences_of_pair rfl rfl, Set.encard_union_eq hdisjoint, List.cons_injective.encard_image,
        List.cons_injective.encard_image, hl, hr, exactCount, Nat.cast_add]
    | _ =>
      rw [occurrences_of_term rfl, Set.encard_singleton]
      rfl

theorem hasMoreTerms_iff {n : Nat} : e.hasMoreTerms n = true ↔ n < e.exactCount := by
  rw [← Bool.not_eq_false, hasMoreTerms_eq_false_iff, Nat.not_le]

/-- Spending decides for every number whether there are more terms, and below the largest number of a word so does
counting, which stops there. -/
theorem term_tests_agree (e : Expr) (n : Nat) :
    e.occurrences.encard = e.exactCount ∧ e.termCount = min e.exactCount termCeiling ∧
    (n < termCeiling → (e.hasMoreTerms n = true ↔ n < e.termCount)) ∧
    (e.hasMoreTerms n = true ↔ n < e.exactCount) := by
  refine ⟨encard_occurrences e, termCount_eq_min e, fun hn => ?_, hasMoreTerms_iff⟩
  rw [hasMoreTerms_iff, termCount_eq_min]
  omega

/-- With one term more than the largest number of a word, counting finds more terms than any smaller number and misses
that there are more than that number itself. -/
theorem term_tests_agree_of_doubled :
    ∃ e : Expr, e = Search.doubled (.ofGlobal "x") 64 ∧ e.occurrences.encard = UInt64.size ∧
      termCeiling - 1 < termCeiling ∧ e.hasMoreTerms (termCeiling - 1) = true ∧ termCeiling - 1 < e.termCount ∧
      e.hasMoreTerms termCeiling = true ∧ ¬ termCeiling < e.termCount := by
  have hexact : (Search.doubled (.ofGlobal "x") 64).exactCount = UInt64.size := Search.exactCount_doubled _ 64
  have hbelow : termCeiling - 1 < termCeiling := by decide
  obtain ⟨hplaces, hcounted, hsame, hspent⟩ :=
    term_tests_agree (Search.doubled (.ofGlobal "x") 64) (termCeiling - 1)
  obtain ⟨-, -, -, hspent'⟩ := term_tests_agree (Search.doubled (.ofGlobal "x") 64) termCeiling
  rw [hexact] at hplaces hcounted hspent hspent'
  have hmore := hspent.2 (by decide)
  refine ⟨_, rfl, hplaces, hbelow, hmore, (hsame hbelow).1 hmore, hspent'.2 (by decide), ?_⟩
  rw [hcounted]
  decide

end Retrace.Expr
