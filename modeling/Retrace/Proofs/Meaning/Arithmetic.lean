import Retrace.Expr.Constant
import Mathlib.Data.Int.Bitwise
import Mathlib.Tactic.Linarith
import Mathlib.Tactic.Positivity
import Mathlib.Tactic.Ring

/-!
Constants have 128 bits. On such constants the operations on bits are those of unbounded integers in two's
complement, and all results that exist are constants again. They are the results over the unbounded integers,
except that shifting to the left keeps the low 128 bits only.
-/

set_option autoImplicit false

namespace Retrace.Constant

theorem isInRange_iff (v : Int) : isInRange v = true ↔ -2 ^ 127 ≤ v ∧ v < 2 ^ 127 := by
  have hpow : Int.pow 2 127 = 2 ^ 127 := by decide
  unfold isInRange
  rw [hpow, Bool.and_eq_true, decide_eq_true_eq, decide_eq_true_eq]

def signBit : Int → Bool
  | .ofNat _ => false
  | .negSucc _ => true

/-- A constant is one whose bits from 127 on all show its sign. -/
theorem isInRange_iff_testBit (v : Int) :
    isInRange v = true ↔ ∀ k, 127 ≤ k → v.testBit k = signBit v := by
  have hsmall (n : Nat) : n < 2 ^ 127 ↔ ∀ k, 127 ≤ k → n.testBit k = false := by
    constructor
    · intro hn k hk
      exact Nat.testBit_lt_two_pow (hn.trans_le (Nat.pow_le_pow_right (by decide) hk))
    · exact Nat.lt_pow_two_of_testBit n
  rw [isInRange_iff]
  cases v with
  | ofNat n =>
    refine Iff.trans ?_ (hsmall n)
    simp only [Int.ofNat_eq_natCast]
    omega
  | negSucc n =>
    simp only [signBit, Int.testBit, Bool.not_eq_true']
    rw [← hsmall n]
    omega

theorem getLsbD_ofInt (v : Int) (k : Nat) (hk : k < 128) :
    (BitVec.ofInt 128 v).getLsbD k = v.testBit k := by
  cases v with
  | ofNat n =>
    rw [Int.ofNat_eq_natCast, BitVec.ofInt_natCast, BitVec.getLsbD_ofNat]
    simp only [hk, decide_true, Bool.true_and]
    rfl
  | negSucc n =>
    rw [BitVec.ofInt_negSucc_eq_not_ofNat, BitVec.getLsbD_not, BitVec.getLsbD_ofNat]
    simp only [hk, decide_true, Bool.true_and]
    rfl

theorem toInt_ofInt {v : Int} (h : isInRange v = true) : (BitVec.ofInt 128 v).toInt = v := by
  obtain ⟨hlow, hhigh⟩ := (isInRange_iff v).1 h
  rw [BitVec.toInt_ofInt]
  exact Int.bmod_eq_of_le (by omega) (by omega)

theorem isInRange_toInt (x : BitVec 128) : isInRange x.toInt = true :=
  (isInRange_iff _).2 ⟨x.le_toInt, x.toInt_lt⟩

/-- An operation that works bit by bit is the same on 128 bits and without bound, because the sign of a
result is the result for the signs. -/
theorem bitwise_eq {op : BitVec 128 → BitVec 128 → BitVec 128} {f : Int → Int → Int}
    {bit : Bool → Bool → Bool} (hop : ∀ x y k, (op x y).getLsbD k = bit (x.getLsbD k) (y.getLsbD k))
    (hf : ∀ l r k, (f l r).testBit k = bit (l.testBit k) (r.testBit k))
    (hsign : ∀ l r, signBit (f l r) = bit (signBit l) (signBit r)) {l r : Int}
    (hl : isInRange l = true) (hr : isInRange r = true) : bitwise op l r = f l r := by
  have hrange : isInRange (f l r) = true := by
    rw [isInRange_iff_testBit] at hl hr ⊢
    intro k hk
    rw [hf, hsign, hl k hk, hr k hk]
  have hbits : op (.ofInt 128 l) (.ofInt 128 r) = .ofInt 128 (f l r) := by
    refine BitVec.eq_of_getLsbD_eq fun k hk => ?_
    rw [hop, getLsbD_ofInt l k hk, getLsbD_ofInt r k hk, getLsbD_ofInt _ k hk, hf]
  rw [bitwise, hbits, toInt_ofInt hrange]

variable {l r : Int}

theorem bitwise_and (hl : isInRange l = true) (hr : isInRange r = true) :
    bitwise (· &&& ·) l r = l.land r := by
  refine bitwise_eq (fun x y k => BitVec.getLsbD_and) Int.testBit_land (fun l r => ?_) hl hr
  cases l <;> cases r <;> rfl

theorem bitwise_or (hl : isInRange l = true) (hr : isInRange r = true) :
    bitwise (· ||| ·) l r = l.lor r := by
  refine bitwise_eq (fun x y k => BitVec.getLsbD_or) Int.testBit_lor (fun l r => ?_) hl hr
  cases l <;> cases r <;> rfl

theorem bitwise_xor (hl : isInRange l = true) (hr : isInRange r = true) :
    bitwise (· ^^^ ·) l r = l.xor r := by
  refine bitwise_eq (fun x y k => BitVec.getLsbD_xor) Int.testBit_lxor (fun l r => ?_) hl hr
  cases l <;> cases r <;> rfl

theorem checked_eq_some_iff {v w : Int} : checked v = some w ↔ isInRange v = true ∧ v = w := by
  unfold checked
  split <;> simp_all

theorem shiftCount?_eq_some_iff {n : Nat} : shiftCount? r = some n ↔ r = n ∧ n < 128 := by
  unfold shiftCount?
  split <;> simp <;> omega

theorem isInRange_ofTruth (b : Bool) : isInRange (ofTruth b) = true := by
  cases b <;> decide

theorem isInRange_unary {op : UnOp} {v w : Int} (hv : isInRange v = true) (h : unary op v = some w) :
    isInRange w = true := by
  cases op with
  | coerce =>
    cases h
    exact hv
  | neg =>
    obtain ⟨hrange, rfl⟩ := checked_eq_some_iff.1 h
    exact hrange
  | complement =>
    cases h
    rw [isInRange_iff] at hv ⊢
    omega
  | not =>
    cases h
    exact isInRange_ofTruth _

theorem isInRange_tmod (hl : isInRange l = true) : isInRange (l.tmod r) = true := by
  have hsmaller : (l.tmod r).natAbs ≤ l.natAbs := by
    rw [Int.natAbs_tmod]
    exact Nat.mod_le _ _
  rw [isInRange_iff] at hl ⊢
  -- A remainder has the sign of what is divided.
  by_cases hnonneg : 0 ≤ l
  · have := Int.tmod_nonneg r hnonneg
    omega
  · have := Int.tmod_nonneg r (a := -l) (by omega)
    rw [Int.neg_tmod] at this
    omega

theorem isInRange_shiftRight {n : Nat} (hl : isInRange l = true) : isInRange (l.shiftRight n) = true := by
  change isInRange (l >>> n) = true
  have hpos : (0 : Int) < ((2 ^ n : Nat) : Int) := Int.natCast_pos.2 (Nat.two_pow_pos n)
  rw [isInRange_iff] at hl ⊢
  rw [Int.shiftRight_eq_div_pow]
  generalize ((2 ^ n : Nat) : Int) = p at hpos
  constructor
  · exact (Int.le_ediv_iff_mul_le hpos).2 (by nlinarith)
  · exact Int.ediv_lt_of_lt_mul hpos (by nlinarith)

theorem isInRange_binary {op : BinOp} {v : Int} (hl : isInRange l = true) (hr : isInRange r = true)
    (h : binary op l r = some v) : isInRange v = true := by
  cases op with
  | add | sub | mul =>
    obtain ⟨hrange, rfl⟩ := checked_eq_some_iff.1 h
    exact hrange
  | div =>
    obtain ⟨-, hsome⟩ := Option.ite_none_left_eq_some.1 h
    obtain ⟨hrange, rfl⟩ := checked_eq_some_iff.1 hsome
    exact hrange
  | mod =>
    obtain ⟨-, hsome⟩ := Option.ite_none_left_eq_some.1 h
    obtain ⟨_, -, rfl⟩ := Option.map_eq_some_iff.1 hsome
    exact isInRange_tmod hl
  | shiftLeft =>
    obtain ⟨n, -, rfl⟩ := Option.map_eq_some_iff.1 h
    exact isInRange_toInt _
  | shiftRight =>
    obtain ⟨n, -, rfl⟩ := Option.map_eq_some_iff.1 h
    exact isInRange_shiftRight hl
  | bitAnd | bitOr | bitXor =>
    cases h
    exact isInRange_toInt _
  | lt | gt | le | ge | eq | ne | and | or =>
    cases h
    exact isInRange_ofTruth _
  | min =>
    cases h
    rw [isInRange_iff] at hl hr ⊢
    omega
  | max =>
    cases h
    rw [isInRange_iff] at hl hr ⊢
    omega
  | pointerAdd | pointerSub | pointerDiff => cases h

def exactUnary : UnOp → Int → Int
  | .coerce, v => v
  | .neg, v => -v
  | .complement, v => ~~~v
  | .not, v => ofTruth (v == 0)

/-- The result over the unbounded integers, where there is one. Division truncates and a shift to the right
rounds down; pointers move in steps of `scale`. -/
def exactBinary? (scale : Int) : BinOp → Int → Int → Option Int
  | .add, l, r => some (l + r)
  | .sub, l, r => some (l - r)
  | .mul, l, r => some (l * r)
  | .div, l, r => if r = 0 then none else some (l.tdiv r)
  | .mod, l, r => if r = 0 then none else some (l.tmod r)
  | .shiftLeft, l, r => if r < 0 then none else some (l * 2 ^ r.toNat)
  | .shiftRight, l, r => if r < 0 then none else some (l.fdiv (2 ^ r.toNat))
  | .bitAnd, l, r => some (l.land r)
  | .bitOr, l, r => some (l.lor r)
  | .bitXor, l, r => some (l.xor r)
  | .lt, l, r => some (ofTruth (l < r))
  | .gt, l, r => some (ofTruth (l > r))
  | .le, l, r => some (ofTruth (l ≤ r))
  | .ge, l, r => some (ofTruth (l ≥ r))
  | .eq, l, r => some (ofTruth (l == r))
  | .ne, l, r => some (ofTruth (l != r))
  | .and, l, r => some (ofTruth (l != 0 && r != 0))
  | .or, l, r => some (ofTruth (l != 0 || r != 0))
  | .pointerAdd, l, r => some (l + scale * r)
  | .pointerSub, l, r => some (l - scale * r)
  | .pointerDiff, _, _ => none
  | .min, l, r => some (min l r)
  | .max, l, r => some (max l r)

theorem exactUnary_of_unary {op : UnOp} {v w : Int} (h : unary op v = some w) : w = exactUnary op v := by
  cases op with
  | coerce | not =>
    cases h
    rfl
  | neg => exact (checked_eq_some_iff.1 h).2.symm
  | complement =>
    cases h
    cases v with
    | ofNat n => change _ = Int.negSucc n; simp only [Int.ofNat_eq_natCast]; omega
    | negSucc n => change _ = Int.ofNat n; simp only [Int.ofNat_eq_natCast]; omega

theorem toInt_shiftLeft (l : Int) (n : Nat) : (BitVec.ofInt 128 l <<< n).toInt = (l * 2 ^ n).bmod (2 ^ 128) := by
  have hpow : BitVec.twoPow 128 n = BitVec.ofInt 128 (2 ^ n) := by
    apply BitVec.eq_of_toNat_eq
    rw [BitVec.toNat_twoPow, BitVec.toNat_ofInt]
    norm_cast
  rw [BitVec.shiftLeft_eq_mul_twoPow, hpow, ← BitVec.ofInt_mul, BitVec.toInt_ofInt]

theorem shiftLeft_eq_some {v : Int} (h : binary .shiftLeft l r = some v) :
    0 ≤ r ∧ r < 128 ∧ v = (l * 2 ^ r.toNat).bmod (2 ^ 128) := by
  obtain ⟨n, hn, rfl⟩ := Option.map_eq_some_iff.1 h
  obtain ⟨rfl, hcount⟩ := shiftCount?_eq_some_iff.1 hn
  rw [Int.toNat_natCast]
  exact ⟨by omega, by omega, toInt_shiftLeft l n⟩

theorem shiftRight_eq_some {v : Int} (h : binary .shiftRight l r = some v) :
    0 ≤ r ∧ r < 128 ∧ v = l.fdiv (2 ^ r.toNat) := by
  obtain ⟨n, hn, rfl⟩ := Option.map_eq_some_iff.1 h
  obtain ⟨rfl, hcount⟩ := shiftCount?_eq_some_iff.1 hn
  rw [Int.toNat_natCast]
  refine ⟨by omega, by omega, ?_⟩
  change l >>> n = _
  rw [Int.shiftRight_eq_div_pow, Int.fdiv_eq_ediv_of_nonneg _ (by positivity), Nat.cast_pow, Nat.cast_two]

/-- Every other result than that of a shift to the left is exact. -/
theorem exactBinary?_of_binary {op : BinOp} {v : Int} (hop : op ≠ .shiftLeft) (hl : isInRange l = true)
    (hr : isInRange r = true) (h : binary op l r = some v) (scale : Int) :
    exactBinary? scale op l r = some v := by
  cases op with
  | add | sub | mul => exact congrArg some (checked_eq_some_iff.1 h).2
  | div =>
    obtain ⟨hne, hsome⟩ := Option.ite_none_left_eq_some.1 h
    rw [exactBinary?, if_neg hne, (checked_eq_some_iff.1 hsome).2]
  | mod =>
    obtain ⟨hne, hsome⟩ := Option.ite_none_left_eq_some.1 h
    obtain ⟨_, -, rfl⟩ := Option.map_eq_some_iff.1 hsome
    rw [exactBinary?, if_neg hne]
  | shiftLeft => exact absurd rfl hop
  | shiftRight =>
    obtain ⟨hcount, -, rfl⟩ := shiftRight_eq_some h
    rw [exactBinary?, if_neg (by omega)]
  | bitAnd => rw [exactBinary?, ← bitwise_and hl hr]; exact h
  | bitOr => rw [exactBinary?, ← bitwise_or hl hr]; exact h
  | bitXor => rw [exactBinary?, ← bitwise_xor hl hr]; exact h
  | lt | gt | le | ge | eq | ne | and | or | min | max => exact h
  | pointerAdd | pointerSub | pointerDiff => cases h

end Retrace.Constant
