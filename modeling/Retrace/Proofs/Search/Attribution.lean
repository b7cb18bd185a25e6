import Retrace.Proofs.Walk.Reach
import Retrace.Search.Attribution

/-!
Which formulas are handed to the callers. Terms are taken off a budget one after the other, and the walk over a value
ends as soon as the budget is used up; counting stops at the largest number of a word. Both come to the exact number
of terms wherever it matters, also in a value so heavily shared that no word has room for the number.
-/

set_option autoImplicit false

namespace Retrace

namespace Expr

def exactCount : Expr → Nat
  | node _ (.int _) => 0
  | node _ (.float _) => 0
  | node _ (.unary _ _ e) => e.exactCount
  | node _ (.binary _ _ _ l r) => l.exactCount + r.exactCount
  | _ => 1

theorem one_le_termCeiling : 1 ≤ termCeiling := by decide

/-- Counting up to the ceiling at every operator is counting up to the ceiling once. -/
theorem termCount_eq_min (e : Expr) : e.termCount = min e.exactCount termCeiling := by
  induction e using inductionOnParts with
  | step e ih =>
    obtain ⟨d, s⟩ := e
    cases s with
    | int | float => exact (Nat.zero_min _).symm
    | unary op w a => exact ih a List.mem_cons_self
    | binary op w stride l r =>
      have hl := ih l List.mem_cons_self
      have hr := ih r (List.mem_cons_of_mem l List.mem_cons_self)
      rw [termCount, exactCount, hl, hr]
      omega
    | _ => exact (Nat.min_eq_left one_le_termCeiling).symm

/-- What is left of a budget and the terms that it was spent on make up the budget. -/
theorem spendTerms_eq_some_iff {e : Expr} {budget rest : Nat} :
    e.spendTerms budget = some rest ↔ e.exactCount + rest = budget := by
  induction e using inductionOnParts generalizing budget rest with
  | step e ih =>
    obtain ⟨d, s⟩ := e
    cases s with
    | int | float =>
      rw [spendTerms, exactCount, Option.some_inj]
      omega
    | unary op w a => exact ih a List.mem_cons_self
    | binary op w stride l r =>
      have hl (left : Nat) : l.spendTerms budget = some left ↔ _ := ih l List.mem_cons_self
      have hr {left : Nat} : r.spendTerms left = some rest ↔ _ := ih r (List.mem_cons_of_mem l List.mem_cons_self)
      rw [spendTerms, exactCount]
      cases hleft : l.spendTerms budget with
      | none =>
        have hover : l.exactCount + (r.exactCount + rest) ≠ budget := by
          intro hfits
          cases hleft.symm.trans ((hl _).2 hfits)
        exact iff_of_false (Option.some_ne_none rest).symm (by omega)
      | some left =>
        have hsome := (hl left).1 hleft
        dsimp only
        rw [hr]
        omega
    | _ =>
      cases budget with
      | zero => simp [spendTerms, exactCount]
      | succ left => simp [spendTerms, exactCount, Nat.add_comm 1, eq_comm]

variable {e : Expr} {budget : Nat}

theorem hasMoreTerms_eq_false_iff : e.hasMoreTerms budget = false ↔ e.exactCount ≤ budget := by
  rw [hasMoreTerms, Option.isNone_eq_false_iff, Option.isSome_iff_exists]
  simp only [spendTerms_eq_some_iff]
  constructor
  · rintro ⟨rest, rfl⟩
    exact Nat.le_add_right _ rest
  · exact fun hle => ⟨budget - e.exactCount, Nat.add_sub_cancel' hle⟩

theorem termCount_le_of_hasMoreTerms (h : e.hasMoreTerms budget = false) : e.termCount ≤ budget := by
  rw [hasMoreTerms_eq_false_iff] at h
  rw [termCount_eq_min]
  omega

/-- A count that is known to fit the budget of a word is exact, so taking it off leaves what spending leaves. -/
theorem spendTerms_of_hasMoreTerms (h : e.hasMoreTerms budget = false) (hword : budget ≤ termCeiling) :
    e.spendTerms budget = some (budget - e.termCount) := by
  rw [hasMoreTerms_eq_false_iff] at h
  rw [spendTerms_eq_some_iff, termCount_eq_min]
  omega

end Expr

def Formula.exactCount (f : Formula) : Nat := f.terms.foldr (fun e total => e.exactCount + total) 0

namespace Search

/-- Over the whole run, what is left after the counts were taken off is what spending term by term leaves. -/
theorem withinBudget_eq_isSome (es : List Expr) (budget : UInt64) :
    withinBudget es budget = (es.foldlM (fun left (e : Expr) => e.spendTerms left) budget.toNat).isSome := by
  induction es generalizing budget with
  | nil => rfl
  | cons e es ih =>
    rw [withinBudget, List.foldlM_cons]
    cases hmore : e.hasMoreTerms budget.toNat with
    | true =>
      rw [Expr.hasMoreTerms, Option.isNone_iff_eq_none] at hmore
      rw [hmore]
      rfl
    | false =>
      have hword : budget.toNat ≤ Expr.termCeiling := Nat.le_sub_one_of_lt budget.toNat_lt
      have hcount : e.termCount ≤ budget.toNat := Expr.termCount_le_of_hasMoreTerms hmore
      -- The budget does not wrap around: the count was seen to fit before it is taken off.
      have hleft : (budget - .ofNat e.termCount).toNat = budget.toNat - e.termCount := by
        have hexact : (UInt64.ofNat e.termCount).toNat = e.termCount :=
          UInt64.toNat_ofNat_of_lt' (Nat.lt_of_le_of_lt hcount budget.toNat_lt)
        have hfits : UInt64.ofNat e.termCount ≤ budget := by
          rw [UInt64.le_iff_toNat_le, hexact]
          exact hcount
        rw [UInt64.toNat_sub_of_le _ _ hfits, hexact]
      rw [if_neg Bool.false_ne_true, ih, hleft, Expr.spendTerms_of_hasMoreTerms hmore hword]
      rfl

theorem foldlM_spendTerms_eq_some_iff {es : List Expr} {budget rest : Nat} :
    es.foldlM (fun left (e : Expr) => e.spendTerms left) budget = some rest ↔
      es.foldr (fun e total => e.exactCount + total) 0 + rest = budget := by
  induction es generalizing budget with
  | nil =>
    rw [List.foldlM_nil, List.foldr_nil, Nat.zero_add, eq_comm]
    exact Option.some_inj
  | cons e es ih =>
    rw [List.foldlM_cons, List.foldr_cons, Option.bind_eq_bind, Option.bind_eq_some_iff]
    simp only [Expr.spendTerms_eq_some_iff, ih]
    constructor
    · rintro ⟨left, rfl, rfl⟩
      omega
    · intro h
      exact ⟨_, by omega, rfl⟩

theorem withinBudget_iff (es : List Expr) (budget : UInt64) :
    withinBudget es budget = true ↔ es.foldr (fun e total => e.exactCount + total) 0 ≤ budget.toNat := by
  rw [withinBudget_eq_isSome, Option.isSome_iff_exists]
  simp only [foldlM_spendTerms_eq_some_iff]
  constructor
  · rintro ⟨rest, hrest⟩
    omega
  · exact fun hle => ⟨_, Nat.add_sub_cancel' hle⟩

/-- What the callers know nothing about: placeholders and what calls left behind, and of a function also the values at
its exit and at its first entry, and the variables that are its own. -/
inductive Unknown (isFunction : Bool) (e : Expr) : Prop
  | value {lval : Expr} {kind : Option Expr} {point : Nat} {relative : Bool}
    (shape : e.shape = .value lval kind point relative)
  | guard {point : Nat} (shape : e.shape = .guard point)
  | frame {inner : Expr} {id : Nat} (shape : e.shape = .frame inner id)
  | clobber {callee overwrite : Expr} {kind : Option Expr} {point : Nat}
    (shape : e.shape = .clobber callee kind overwrite point)
  | exit {target : Expr} {kind : Option Expr} (function : isFunction = true)
    (shape : e.shape = .moment .exit target kind)
  | initial {target : Expr} {kind : Option Expr} (function : isFunction = true)
    (shape : e.shape = .moment .initial target kind)
  | own {v : Variable} (function : isFunction = true) (shape : e.shape = .var v)
    (storage : v.storage = .local ∨ v.storage = .temporary ∨ v.storage = .result)

theorem unknownToCaller_iff {isFunction : Bool} {e : Expr} :
    unknownToCaller isFunction e = true ↔ Unknown isFunction e := by
  constructor
  · intro h
    unfold unknownToCaller at h
    split at h
    · exact .value ‹_›
    · exact .guard ‹_›
    · exact .frame ‹_›
    · exact .clobber ‹_›
    · rename_i m _ _ hshape
      cases m with
      | exit => exact .exit h hshape
      | initial => exact .initial h hshape
    · rename_i v hshape
      obtain ⟨hfunction, hstorage⟩ := Bool.and_eq_true_iff.1 h
      refine .own hfunction hshape ?_
      cases hv : v.storage <;> simp_all
    · cases h
  · intro h
    unfold unknownToCaller
    cases h with
    | value shape | guard shape | frame shape | clobber shape => rw [shape]
    | exit function shape | initial function shape => rw [shape]; exact function
    | own function shape storage =>
      rcases storage with hv | hv | hv <;> simp [shape, function, hv]

/-- A formula is handed to the callers exactly if all its terms together are within the limit and they know about every
node in reach. A value is counted only once it is known to have no more terms than are left of the budget, so that its
count can be taken off, and what is then left is exact for every budget that a word has room for. -/
theorem suitsCaller_decides (limits : Limits) (isFunction : Bool) (f : Formula) :
    (suitsCaller limits isFunction f = true ↔
      f.exactCount ≤ limits.callerTerms.toNat ∧ ∀ e ∈ f.terms, ∀ a, e.Reaches a → ¬ Unknown isFunction a) ∧
    (∀ e : Expr, e.termCount = min e.exactCount Expr.termCeiling) ∧
    ∀ (e : Expr) (budget : Nat), e.hasMoreTerms budget = false →
      e.termCount ≤ budget ∧ (budget ≤ Expr.termCeiling → e.spendTerms budget = some (budget - e.termCount)) := by
  have hknown : (!Walk.mentions (unknownToCaller isFunction) f) = true ↔
      ∀ e ∈ f.terms, ∀ a, e.Reaches a → ¬ Unknown isFunction a := by
    rw [Bool.not_eq_true', Walk.mentions_eq_false_iff]
    simp only [← unknownToCaller_iff, Bool.not_eq_true]
  refine ⟨?_, Expr.termCount_eq_min, fun e budget h => ⟨Expr.termCount_le_of_hasMoreTerms h, fun hword => ?_⟩⟩
  · rw [suitsCaller, Bool.and_eq_true, withinBudget_iff, hknown, Formula.exactCount]
  · exact Expr.spendTerms_of_hasMoreTerms h hword

section Sharing

def doubled (v : Variable) : Nat → Expr
  | 0 => .var v
  | n + 1 => .of (.binary .add .unbounded none (doubled v n) (doubled v n))

theorem exactCount_doubled (v : Variable) (n : Nat) : (doubled v n).exactCount = Nat.pow 2 n := by
  induction n with
  | zero => rfl
  | succ n ih =>
    rw [doubled, Expr.of, Expr.exactCount, ih]
    exact (Nat.mul_two _).symm

/-- With as many terms as numbers in a word the value is refused under every limit; the sum of two variables uses up a
budget of two. -/
theorem suitsCaller_decides_of_shared :
    ∃ (f : Formula) (e : Expr), f = .of (.nonzero (doubled (.ofGlobal "x") 64)) ∧ f.exactCount = UInt64.size ∧
      suitsCaller ⟨20, .ofNat Expr.termCeiling⟩ true f = false ∧ e = doubled (.ofGlobal "x") 1 ∧
      e.hasMoreTerms 2 = false ∧ e.termCount ≤ 2 ∧ e.spendTerms 2 = some (2 - e.termCount) := by
  have hcount : (Formula.of (.nonzero (doubled (.ofGlobal "x") 64))).exactCount = UInt64.size := by
    rw [Formula.exactCount, Formula.of, Formula.terms, List.foldr_cons, List.foldr_nil, exactCount_doubled]
  have htwo : (doubled (.ofGlobal "x") 1).hasMoreTerms 2 = false :=
    Expr.hasMoreTerms_eq_false_iff.2 (Nat.le_of_eq (exactCount_doubled _ 1))
  obtain ⟨hiff, -, hcounts⟩ := suitsCaller_decides ⟨20, .ofNat Expr.termCeiling⟩ true
    (.of (.nonzero (doubled (.ofGlobal "x") 64)))
  obtain ⟨hle, hleft⟩ := hcounts _ 2 htwo
  refine ⟨_, _, rfl, hcount, ?_, rfl, htwo, hle, hleft (by decide)⟩
  rw [← Bool.not_eq_true, hiff, hcount]
  exact fun h => absurd h.1 (by decide)

end Sharing
end Search
end Retrace
