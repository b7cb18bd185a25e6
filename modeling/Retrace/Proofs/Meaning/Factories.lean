import Retrace.Proofs.Meaning.Rewriting

/-!
What the factories of formulas say. Expressions may have any values as long as constants, logical negations
and comparisons have theirs; then each factory gives a formula with the truth that its name promises, whatever
it folds, flattens, sorts or cancels. Main statement: `factories_truthful`.
-/

set_option autoImplicit false

namespace Retrace

def BinOp.compares : BinOp → Int → Int → Bool
  | .lt, x, y => x < y
  | .gt, x, y => y < x
  | .le, x, y => x ≤ y
  | .ge, x, y => y ≤ x
  | .eq, x, y => x = y
  | .ne, x, y => x ≠ y
  | _, _, _ => false

def Clause.connect (value : Expr → Int) : Clause Formula → List Bool → Bool
  | .const b, _ => b
  | .nonzero e, _ => value e != 0
  | .not _, bs => !bs.all id
  | .junction .all _, bs => bs.all id
  | .junction .any _, bs => bs.any id

theorem Constant.ofTruth_ne_zero (b : Bool) : (Constant.ofTruth b != 0) = b := by
  cases b <;> rfl

theorem Constant.binary_comparison {op : BinOp} (h : op.isComparison = true) (x y : Int) :
    Constant.binary op x y = some (Constant.ofTruth (op.compares x y)) := by
  cases op <;> simp_all [BinOp.isComparison, Constant.binary, BinOp.compares] <;> grind

theorem Expr.identity?_comparison {op : BinOp} (h : op.isComparison = true) (l r : Expr) :
    Expr.identity? op l r = none := by
  cases op <;> simp_all [BinOp.isComparison, Expr.identity?]

namespace Formula

/-- Values that agree with everything the factories of formulas look at. -/
structure Faithful (value : Expr → Int) : Prop extends Sensible value where
  comparison : ∀ e op w stride l r, e.shape = .binary op w stride l r → op.isComparison = true →
    value e = Constant.ofTruth (op.compares (value l) (value r))

section Factories

variable {value : Expr → Int}

theorem holds_all (fs : List Formula) : (all fs).holds value = fs.all (holds value) := by
  have h : (all fs).holds value = true ↔ ∀ f ∈ fs, f.holds value = true := holds_junction_iff .all fs
  rw [Bool.eq_iff_iff, h, List.all_eq_true]

theorem holds_any (fs : List Formula) : (any fs).holds value = fs.any (holds value) := by
  have h : (any fs).holds value = false ↔ ∀ f ∈ fs, f.holds value = false := holds_junction_iff .any fs
  rw [Bool.eq_iff_iff, ← not_iff_not, Bool.not_eq_true, Bool.not_eq_true, h, List.any_eq_false]
  simp

theorem holds_imply (f g : Formula) : (imply f g).holds value = (!f.holds value || g.holds value) := by
  rw [imply, or, holds_any]
  simp [holds_not]

theorem value_comparison (faithful : Faithful value) {op : BinOp} (hop : op.isComparison = true) (l r : Expr) :
    value (Expr.simplifyBinary op .unbounded none l r) = Constant.ofTruth (op.compares (value l) (value r)) := by
  have hint (v : Int) : value (.int v) = v := faithful.int _ v rfl
  unfold Expr.simplifyBinary
  rw [Expr.identity?_comparison hop]
  split
  · rename_i v hfold
    unfold Expr.foldBinary? at hfold
    split at hfold
    · rename_i x y hx hy
      rw [Constant.binary_comparison hop] at hfold
      have hv := (Option.filter_eq_some_iff.1 hfold).1
      rw [hint, faithful.int l x (Expr.shape_of_int? hx), faithful.int r y (Expr.shape_of_int? hy)]
      exact (Option.some.inj hv).symm
    · cases hfold
  · exact faithful.comparison _ op _ none l r rfl hop

theorem exists_comparison (faithful : Faithful value) {op : BinOp} (hop : op.isComparison = true) (l r : Expr) :
    ∃ f, comparison op l r = .ok f ∧ f.holds value = op.compares (value l) (value r) := by
  refine ⟨_, if_pos hop, ?_⟩
  rw [holds_nonzero faithful.toSensible, value_comparison faithful hop, Constant.ofTruth_ne_zero]

theorem exists_withOperands_connect {f : Formula} {gs : List Formula} (hlength : gs.length = f.operands.length) :
    ∃ f', f.withOperands gs = .ok f' ∧ f'.holds value = f.clause.connect value (gs.map (holds value)) := by
  unfold withOperands
  rw [if_pos hlength]
  obtain ⟨d, c⟩ := f
  cases c with
  | const | nonzero =>
    refine ⟨_, rfl, ?_⟩
    rw [holds]
    rfl
  | not g =>
    obtain ⟨g', rfl⟩ := List.length_eq_one_iff.1 hlength
    exact ⟨_, rfl, by simp [holds_not, Clause.connect]⟩
  | junction k fs =>
    refine ⟨_, rfl, ?_⟩
    cases k with
    | all => exact (holds_all gs).trans (by simp [Clause.connect])
    | any => exact (holds_any gs).trans (by simp [Clause.connect])

end Factories

/-- Each factory gives a formula with the truth it stands for. -/
theorem factories_truthful {value : Expr → Int} (faithful : Faithful value) :
    (∀ e : Expr, (nonzero e).holds value = true ↔ value e ≠ 0) ∧
    (∀ (op : BinOp) (l r : Expr), op.isComparison = true →
      ∃ f, comparison op l r = .ok f ∧ (f.holds value = true ↔ op.compares (value l) (value r) = true)) ∧
    (∀ f : Formula, (not f).holds value = true ↔ f.holds value = false) ∧
    (∀ f g : Formula, (imply f g).holds value = true ↔ f.holds value = false ∨ g.holds value = true) ∧
    (∀ fs : List Formula, (all fs).holds value = true ↔ ∀ f ∈ fs, f.holds value = true) ∧
    (∀ fs : List Formula, (any fs).holds value = true ↔ ∃ f ∈ fs, f.holds value = true) ∧
    ∀ (f : Formula) (gs : List Formula), gs.length = f.operands.length →
      ∃ f', f.withOperands gs = .ok f' ∧ f'.holds value = f.clause.connect value (gs.map (holds value)) := by
  refine ⟨fun e => ?_, fun op l r hop => ?_, fun f => ?_, fun f g => ?_, fun fs => ?_, fun fs => ?_, ?_⟩
  · rw [holds_nonzero faithful.toSensible]
    simp
  · obtain ⟨f, hf, hholds⟩ := exists_comparison faithful hop l r
    exact ⟨f, hf, by rw [hholds]⟩
  · rw [holds_not]
    simp
  · rw [holds_imply]
    simp
  · rw [holds_all, List.all_eq_true]
  · rw [holds_any, List.any_eq_true]
  · exact fun f gs hlength => exists_withOperands_connect hlength

theorem faithful_eval (I : Interpretation) (σ : Valuation) : Faithful (I.eval σ) where
  toSensible := Walk.sensible_eval
  comparison e op w stride l r hshape hop := by
    rw [Interpretation.eval_eq e, hshape, Interpretation.layer]
    cases op <;> simp_all [BinOp.isComparison, Interpretation.binary, BinOp.compares] <;> grind

/-- Where every variable is five, the comparison with seven holds, implies nothing false, and is not lost among
operands that are repeated, nested and doubly negated. -/
theorem factories_truthful_of_fives :
    ∃ value : Expr → Int, Faithful value ∧ value (.var (.ofGlobal "x")) = 5 ∧
      ∃ f, comparison .lt (.var (.ofGlobal "x")) (.int 7) = .ok f ∧ f.holds value = true ∧
        (imply f (not f)).holds value = false ∧ (all [f, all [not (not f), const true], f]).holds value = true := by
  let fives : Valuation := ⟨fun _ => 5, fun _ => 0, fun _ _ x => x, fun _ x => x⟩
  have faithful := faithful_eval .flat fives
  obtain ⟨-, hcomparison, hnot, himply, hall, -, -⟩ := factories_truthful faithful
  obtain ⟨f, hf, hiff⟩ := hcomparison .lt (.var (.ofGlobal "x")) (.int 7) rfl
  have hx : Interpretation.flat.eval fives (.var (.ofGlobal "x")) = 5 := Interpretation.eval_of _
  have hseven : Interpretation.flat.eval fives (.int 7) = 7 := Interpretation.eval_int 7
  have hholds : f.holds (Interpretation.flat.eval fives) = true := by
    rw [hiff, hx, hseven]
    decide
  refine ⟨_, faithful, hx, f, hf, hholds, ?_, ?_⟩
  · simp [← Bool.not_eq_true, himply, hnot, hholds]
  · simp [hall, holds_not, hholds, holds_const]

end Formula
end Retrace
