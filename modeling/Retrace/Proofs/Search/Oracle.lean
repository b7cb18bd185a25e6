import Retrace.Proofs.Formula.Canonical
import Retrace.Proofs.Meaning.Truth
import Retrace.Formula.Printer
import Retrace.Search.Oracle

/-!
The oracle that asks a solver claims no implication that does not hold. Of the solver it is relied on that its
answers depend only on what is asserted, that leaving a context brings back the one around it, and that it
refutes only what is false under all values. Then answers do not depend on what was asked before, and every
context that a question opens is left again.
-/

set_option autoImplicit false

namespace Retrace

open Formula (Sensible Normal)

theorem Formula.of_ne_of {c c' : Clause Formula} (h : c ≠ c') : Formula.of c ≠ Formula.of c' := by
  intro heq
  have hclause := congrArg Formula.clause heq
  rw [Formula.clause_of, Formula.clause_of] at hclause
  exact h hclause

theorem Formula.Normal.not_not {f : Formula} (h : Normal f) : f.not.not = f := by
  obtain ⟨layer, -⟩ := h
  rename_i c
  cases c with
  | const b =>
    change const (!!b) = const b
    rw [Bool.not_not]
  | not g =>
    obtain ⟨d, c⟩ := g
    cases c with
    | const b => cases layer.1
    | not g => cases layer.2
    | _ => rfl
  | _ => rfl

namespace Solver

variable {π S C : Type}

/-- What a solver makes of its contexts. Its answers and the contexts it leaves are decided by the context that
it finds, and leaving a context undoes entering it. -/
structure Contexts (s : Solver π (StateM S)) (C : Type) where
  context : S → C
  translate : Formula → π
  opened : C → C
  extended : C → π → C
  closed : C → C
  verdict : C → Verdict
  predicate : ∀ f σ, ((s.predicate f).run σ).1 = translate f ∧ context ((s.predicate f).run σ).2 = context σ
  enter : ∀ σ, context (s.enter.run σ).2 = opened (context σ)
  assert : ∀ p σ, context ((s.assert p).run σ).2 = extended (context σ) p
  solve : ∀ σ, (s.solve.run σ).1 = verdict (context σ) ∧ context (s.solve.run σ).2 = context σ
  leave : ∀ σ, context (s.leave.run σ).2 = closed (context σ)
  closed_extended : ∀ c p, closed (extended (opened c) p) = c

def Contexts.verdictOn {s : Solver π (StateM S)} (k : s.Contexts C) (c : C) (f : Formula) : Verdict :=
  k.verdict (k.extended (k.opened c) (k.translate f))

/-- Only formulas that are false under all values are refuted within `c`. -/
def Contexts.Truthful {s : Solver π (StateM S)} (k : s.Contexts C) (c : C) : Prop :=
  ∀ f value, Sensible value → k.verdictOn c f = .unsatisfiable → f.holds value = false

structure Counts (s : Solver π (StateM S)) (depth : S → Nat) : Prop where
  predicate : ∀ f σ, depth ((s.predicate f).run σ).2 = depth σ
  enter : ∀ σ, depth (s.enter.run σ).2 = depth σ + 1
  assert : ∀ p σ, depth ((s.assert p).run σ).2 = depth σ
  solve : ∀ σ, depth (s.solve.run σ).2 = depth σ
  leave : ∀ σ, depth (s.leave.run σ).2 = depth σ - 1

variable {s : Solver π (StateM S)}

theorem Contexts.solvePredicate (k : s.Contexts C) (p : π) (σ : S) :
    ((s.solvePredicate p).run σ).1 = k.verdict (k.extended (k.opened (k.context σ)) p) ∧
      k.context ((s.solvePredicate p).run σ).2 = k.context σ := by
  let entered := (s.enter.run σ).2
  let asserted := ((s.assert p).run entered).2
  have hasserted : k.context asserted = k.extended (k.opened (k.context σ)) p := by
    rw [k.assert, k.enter]
  obtain ⟨hverdict, hsolved⟩ := k.solve asserted
  refine ⟨hverdict.trans (congrArg k.verdict hasserted), ?_⟩
  change k.context (s.leave.run (s.solve.run asserted).2).2 = k.context σ
  rw [k.leave, hsolved, hasserted, k.closed_extended]

theorem Counts.solvePredicate {depth : S → Nat} (h : s.Counts depth) (p : π) (σ : S) :
    depth ((s.solvePredicate p).run σ).2 = depth σ := by
  change depth (s.leave.run (s.solve.run ((s.assert p).run (s.enter.run σ).2).2).2).2 = depth σ
  rw [h.leave, h.solve, h.assert, h.enter, Nat.add_sub_cancel]

end Solver

namespace Oracle

inductive Question where
  | implies (f g : Formula)
  | equivalent (f g : Formula)

def ask {m : Type → Type} (o : Oracle m) : Question → m Bool
  | .implies f g => o.implies f g
  | .equivalent f g => o.equivalent f g

variable {π S C : Type}

def after (o : Oracle (StateM S)) (asked : List Question) (σ : S) : S :=
  asked.foldl (fun σ q => ((o.ask q).run σ).2) σ

def answer (o : Oracle (StateM S)) (σ : S) (q : Question) : Bool := ((o.ask q).run σ).1

section Meaning

variable {value : Expr → Int} {f g : Formula}

theorem holds_of_impliesByShape (h : impliesByShape f g = true) (hf : f.holds value = true) :
    g.holds value = true := by
  simp only [impliesByShape, Bool.or_eq_true, decide_eq_true_eq] at h
  rcases h with (((rfl | hfalse) | htrue) | hall) | hany
  · exact hf
  · have hconst : f.holds value = false := Formula.holds_of_const? (by simpa [Formula.isFalse] using hfalse)
    rw [hf] at hconst
    cases hconst
  · exact Formula.holds_of_const? (by simpa [Formula.isTrue] using htrue)
  · obtain ⟨d, c⟩ := f
    cases c with
    | junction k fs =>
      cases k with
      | all =>
        rw [Formula.holds] at hf
        exact (Formula.holdsEach_eq_neutral_iff .all fs).1 hf g (by simpa using hall)
      | any => cases hall
    | _ => cases hall
  · obtain ⟨d, c⟩ := g
    cases c with
    | junction k gs =>
      cases k with
      | all => cases hany
      | any =>
        -- A disjunction fails only where all its operands do.
        refine eq_true_of_ne_false fun hg => ?_
        rw [Formula.holds] at hg
        have hfalse := (Formula.holdsEach_eq_neutral_iff .any gs).1 hg f (by simpa using hany)
        rw [hf] at hfalse
        cases hfalse
    | _ => cases hany

theorem holds_counterexample (f g : Formula) :
    (counterexample f g).holds value = true ↔ f.holds value = true ∧ g.holds value = false := by
  rw [counterexample, Formula.and, Formula.all]
  refine (Formula.holds_junction_iff .all [f, g.not]).trans ?_
  simp [Connective.neutral, Formula.holds_not]

end Meaning

section Answers

variable {s : Solver π (StateM S)} (k : s.Contexts C)

def claims (c : C) (f g : Formula) : Bool :=
  impliesByShape f g || (counterexample f g).isFalse || k.verdictOn c (counterexample f g) = .unsatisfiable

theorem claims_self (c : C) (f : Formula) : claims k c f f = true := by simp [claims, impliesByShape]

theorem holds_of_claims {c : C} (htruthful : k.Truthful c) {f g : Formula} (h : claims k c f g = true)
    {value : Expr → Int} (hvalue : Sensible value) (hf : f.holds value = true) : g.holds value = true := by
  simp only [claims, Bool.or_eq_true, decide_eq_true_eq] at h
  have holds_of_refuted (hrefuted : (counterexample f g).holds value = false) : g.holds value = true := by
    refine eq_true_of_ne_false fun hg => ?_
    rw [(holds_counterexample f g).2 ⟨hf, hg⟩] at hrefuted
    cases hrefuted
  rcases h with (hshape | hfalse) | hunsat
  · exact holds_of_impliesByShape hshape hf
  · exact holds_of_refuted (Formula.holds_of_const? (by simpa [Formula.isFalse] using hfalse))
  · exact holds_of_refuted (htruthful _ value hvalue hunsat)

theorem run_implies (f g : Formula) (σ : S) :
    (((ofSolver s).implies f g).run σ).1 = claims k (k.context σ) f g ∧
      k.context (((ofSolver s).implies f g).run σ).2 = k.context σ := by
  change ((impliesBySolver s f g).run σ).1 = _ ∧ k.context ((impliesBySolver s f g).run σ).2 = _
  unfold impliesBySolver
  by_cases hread : (impliesByShape f g || (counterexample f g).isFalse) = true
  · rw [if_pos hread]
    exact ⟨by rw [claims, hread, Bool.true_or]; rfl, rfl⟩
  · rw [if_neg hread]
    obtain ⟨hpredicate, htranslated⟩ := k.predicate (counterexample f g) σ
    let translated := ((s.predicate (counterexample f g)).run σ).2
    obtain ⟨hverdict, hsolved⟩ := k.solvePredicate (k.translate (counterexample f g)) translated
    rw [htranslated] at hverdict hsolved
    rw [← hpredicate] at hverdict hsolved
    refine ⟨?_, hsolved⟩
    rw [claims, Bool.eq_false_iff.2 hread, Bool.false_or, Solver.Contexts.verdictOn, ← hpredicate, ← hverdict]
    rfl

theorem run_equivalent (f g : Formula) (σ : S) :
    (((ofSolver s).equivalent f g).run σ).1 = (claims k (k.context σ) f g && claims k (k.context σ) g f) ∧
      k.context (((ofSolver s).equivalent f g).run σ).2 = k.context σ := by
  change ((equivalentBy (impliesBySolver s) f g).run σ).1 = _ ∧
    k.context ((equivalentBy (impliesBySolver s) f g).run σ).2 = _
  unfold equivalentBy
  by_cases heq : f = g
  · subst heq
    rw [if_pos rfl, claims_self]
    exact ⟨rfl, rfl⟩
  let between := ((impliesBySolver s f g).run σ).2
  obtain ⟨hthere, hcontext⟩ : ((impliesBySolver s f g).run σ).1 = _ ∧ k.context between = _ :=
    run_implies k f g σ
  obtain ⟨hback, hcontext'⟩ : ((impliesBySolver s g f).run between).1 = _ ∧ _ := run_implies k g f between
  rw [hcontext] at hback hcontext'
  rw [if_neg heq, StateT.run_bind]
  change ((if ((impliesBySolver s f g).run σ).1 = true then impliesBySolver s g f else pure false).run
      between).1 = _ ∧
    k.context ((if ((impliesBySolver s f g).run σ).1 = true then impliesBySolver s g f else pure false).run
      between).2 = _
  rw [hthere]
  split
  · rename_i hclaimed
    exact ⟨by rw [hback, hclaimed, Bool.true_and], hcontext'⟩
  · rename_i hunclaimed
    exact ⟨by rw [Bool.eq_false_iff.2 hunclaimed, Bool.false_and]; rfl, hcontext⟩

theorem answer_implies (f g : Formula) (σ : S) :
    (ofSolver s).answer σ (.implies f g) = claims k (k.context σ) f g := (run_implies k f g σ).1

theorem answer_equivalent (f g : Formula) (σ : S) : (ofSolver s).answer σ (.equivalent f g) =
    (claims k (k.context σ) f g && claims k (k.context σ) g f) := (run_equivalent k f g σ).1

theorem context_ask (q : Question) (σ : S) : k.context (((ofSolver s).ask q).run σ).2 = k.context σ := by
  cases q with
  | implies f g => exact (run_implies k f g σ).2
  | equivalent f g => exact (run_equivalent k f g σ).2

theorem context_after (asked : List Question) (σ : S) :
    k.context ((ofSolver s).after asked σ) = k.context σ := by
  induction asked generalizing σ with
  | nil => rfl
  | cons q asked ih => exact (ih _).trans (context_ask k q σ)

theorem answer_congr {σ τ : S} (h : k.context σ = k.context τ) (q : Question) :
    (ofSolver s).answer σ q = (ofSolver s).answer τ q := by
  cases q with
  | implies f g => rw [answer_implies k, answer_implies k, h]
  | equivalent f g => rw [answer_equivalent k, answer_equivalent k, h]

end Answers

section Depth

variable {s : Solver π (StateM S)} {depth : S → Nat} (counts : s.Counts depth)
include counts

theorem depth_implies (f g : Formula) (σ : S) : depth ((impliesBySolver s f g).run σ).2 = depth σ := by
  unfold impliesBySolver
  split
  · rfl
  · exact (counts.solvePredicate _ _).trans (counts.predicate _ σ)

theorem depth_ask (q : Question) (σ : S) : depth (((ofSolver s).ask q).run σ).2 = depth σ := by
  cases q with
  | implies f g => exact depth_implies counts f g σ
  | equivalent f g =>
    change depth ((equivalentBy (impliesBySolver s) f g).run σ).2 = depth σ
    unfold equivalentBy
    split
    · rfl
    · let between := ((impliesBySolver s f g).run σ).2
      have hthere : depth between = depth σ := depth_implies counts f g σ
      change depth ((if ((impliesBySolver s f g).run σ).1 = true then impliesBySolver s g f else pure false).run
        between).2 = depth σ
      split
      · exact (depth_implies counts g f between).trans hthere
      · exact hthere

end Depth

/-- Whatever was asked before, a claimed implication or equivalence holds under all values, implication is
reflexive and equivalence is implication both ways; the answers are those given at the start, and no context is
left open. -/
theorem ofSolver_sound {s : Solver π (StateM S)} (k : s.Contexts C) {start : S}
    (htruthful : k.Truthful (k.context start)) (asked : List Question) (σ : S)
    (hσ : σ = (ofSolver s).after asked start) :
    (∀ f g value, Sensible value → (ofSolver s).answer σ (.implies f g) = true →
      f.holds value = true → g.holds value = true) ∧
    (∀ f g value, Sensible value → (ofSolver s).answer σ (.equivalent f g) = true →
      f.holds value = g.holds value) ∧
    (∀ f, (ofSolver s).answer σ (.implies f f) = true) ∧
    (∀ f g, (ofSolver s).answer σ (.equivalent f g) = true ↔
      (ofSolver s).answer σ (.implies f g) = true ∧ (ofSolver s).answer σ (.implies g f) = true) ∧
    (∀ q, (ofSolver s).answer σ q = (ofSolver s).answer start q) ∧
    ∀ depth, s.Counts depth → ∀ q, depth (((ofSolver s).ask q).run σ).2 = depth σ := by
  have hcontext : k.context σ = k.context start := hσ ▸ context_after k asked start
  rw [← hcontext] at htruthful
  refine ⟨?_, ?_, ?_, ?_, answer_congr k hcontext, fun depth counts q => depth_ask counts q σ⟩
  · intro f g value hvalue hclaimed hf
    rw [answer_implies k] at hclaimed
    exact holds_of_claims k htruthful hclaimed hvalue hf
  · intro f g value hvalue hclaimed
    rw [answer_equivalent k, Bool.and_eq_true] at hclaimed
    refine Bool.eq_iff_iff.2 ⟨?_, ?_⟩
    · exact holds_of_claims k htruthful hclaimed.1 hvalue
    · exact holds_of_claims k htruthful hclaimed.2 hvalue
  · intro f
    rw [answer_implies k, claims_self]
  · intro f g
    rw [answer_equivalent k, answer_implies k, answer_implies k, Bool.and_eq_true]

section Example

def hasClash (fs : List Formula) : Bool :=
  let conjuncts := fs.flatMap (Formula.flatten .all)
  conjuncts.any fun f => conjuncts.contains f.not

/-- A solver that refutes what clashes. It keeps the assertions of the innermost context and those of the
contexts around it. -/
def clashing : Solver Formula (StateM (List Formula × List (List Formula))) where
  predicate f := pure f
  describe f := f.render true
  assert f := modify fun σ => (f :: σ.1, σ.2)
  enter := modify fun σ => ([], σ.1 :: σ.2)
  leave := modify fun σ => (σ.2.headD [], σ.2.tail)
  solve := do
    let σ ← get
    return if hasClash (σ.1 ++ σ.2.flatten) then .unsatisfiable else .undefined

def clashingContexts : clashing.Contexts (List Formula × List (List Formula)) where
  context σ := σ
  translate f := f
  opened c := ([], c.1 :: c.2)
  extended c f := (f :: c.1, c.2)
  closed c := (c.2.headD [], c.2.tail)
  verdict c := if hasClash (c.1 ++ c.2.flatten) then .unsatisfiable else .undefined
  predicate _ _ := ⟨rfl, rfl⟩
  enter _ := rfl
  assert _ _ := rfl
  solve _ := ⟨rfl, rfl⟩
  leave _ := rfl
  closed_extended _ _ := rfl

theorem counts_clashing : clashing.Counts fun σ => σ.2.length where
  predicate _ _ := rfl
  enter _ := rfl
  assert _ _ := rfl
  solve _ := rfl
  leave _ := List.length_tail

theorem truthful_clashing : clashingContexts.Truthful ([], []) := by
  intro f value _ hverdict
  have hclash : hasClash [f] = true := by
    by_contra hne
    have hundefined : clashingContexts.verdictOn ([], []) f = .undefined := if_neg hne
    rw [hundefined] at hverdict
    cases hverdict
  obtain ⟨g, hg, hnot⟩ := List.any_eq_true.1 hclash
  rw [List.flatMap_singleton] at hg hnot
  rw [List.contains_iff_mem] at hnot
  refine eq_false_of_ne_true fun hf => ?_
  have hconjuncts := (Formula.holds_flatten .all f).2 hf
  have hneg := hconjuncts g.not hnot
  rw [Formula.holds_not, hconjuncts g hg] at hneg
  cases hneg

def atom (name : String) : Formula := .nonzero (.var (.ofGlobal name))

def denial : Formula := (atom "x").not.and (atom "y")

theorem atom_eq (name : String) : atom name = .of (.nonzero (.var (.ofGlobal name))) :=
  Formula.nonzero_of (by simp) (by simp)

theorem not_atom_eq (name : String) : (atom name).not = .of (.not (atom name)) := by rw [atom_eq]; rfl

theorem normal_denied : ∀ f ∈ [(atom "x").not, atom "y"], Normal f :=
  List.forall_mem_cons.2 ⟨Formula.normal_not (Formula.normal_nonzero _),
    List.forall_mem_singleton.2 (Formula.normal_nonzero _)⟩

theorem undecided_denied : ¬ Formula.Decided .all [(atom "x").not, atom "y"] := by
  rw [not_atom_eq, atom_eq "y"]
  simp [Formula.Decided, Formula.const?]

theorem normal_denial : Normal denial := Formula.normal_junction _ normal_denied

theorem counterexample_denial : counterexample (atom "x") denial.not = .all [atom "x", denial] := by
  rw [counterexample, normal_denial.not_not, Formula.and]

theorem normal_clash : ∀ f ∈ [atom "x", denial], Normal f :=
  List.forall_mem_cons.2 ⟨Formula.normal_nonzero _, List.forall_mem_singleton.2 normal_denial⟩

theorem undecided_clash : ¬ Formula.Decided .all [atom "x", denial] := by
  have hdenial : denial.const? ≠ some (!Connective.all.neutral) :=
    mt (Formula.const?_junction normal_denied).1 undecided_denied
  rintro ⟨f, hf, hconst⟩
  rcases List.mem_cons.1 hf with rfl | hf
  · rw [atom_eq] at hconst
    cases hconst
  · cases List.mem_singleton.1 hf
    exact hdenial hconst

theorem hasClash_denial : hasClash [counterexample (atom "x") denial.not] = true := by
  have hmem (f : Formula) : f ∈ Formula.flatten .all (.all [atom "x", denial]) ↔
      f ∈ Formula.flat .all [atom "x", denial] := Formula.mem_flatten_junction normal_clash undecided_clash
  have hx : atom "x" ∈ Formula.flatten .all (atom "x") := by
    rw [atom_eq]
    exact List.mem_singleton_self _
  have hnot : (atom "x").not ∈ Formula.flatten .all denial := by
    refine (Formula.mem_flatten_junction normal_denied undecided_denied).2 ?_
    refine List.mem_flatMap.2 ⟨_, List.mem_cons_self, ?_⟩
    rw [not_atom_eq]
    exact List.mem_singleton_self _
  rw [counterexample_denial, hasClash, List.flatMap_singleton]
  refine List.any_eq_true.2 ⟨atom "x", (hmem _).2 ?_, List.contains_iff_mem.2 ((hmem _).2 ?_)⟩
  · exact List.mem_flatMap.2 ⟨_, List.mem_cons_self, hx⟩
  · exact List.mem_flatMap.2 ⟨denial, by simp, hnot⟩

theorem exists_denial_eq : ∃ fs, denial = .of (.junction .all fs) := by
  have hne : (atom "x").not ≠ atom "y" := by
    rw [not_atom_eq, atom_eq "y"]
    exact Formula.of_ne_of (by simp)
  have hmem (f : Formula) (hf : f ∈ [(atom "x").not, atom "y"]) :
      f ∈ Formula.canonical ([(atom "x").not, atom "y"].flatMap (Formula.flatten .all)) := by
    rw [Formula.mem_canonical, not_atom_eq, atom_eq "y"]
    rw [not_atom_eq, atom_eq "y"] at hf
    exact hf
  rcases Formula.junction_cases .all [(atom "x").not, atom "y"] with
    ⟨hdecided, -⟩ | ⟨-, ⟨hnothing, -⟩ | ⟨f, hone, -⟩ | ⟨-, hnode⟩⟩
  · exact absurd hdecided undecided_denied
  · have hx := hmem _ List.mem_cons_self
    rw [hnothing] at hx
    cases hx
  · have hx := hmem _ List.mem_cons_self
    have hy := hmem (atom "y") (by simp)
    rw [hone] at hx hy
    exact absurd ((List.mem_singleton.1 hx).trans (List.mem_singleton.1 hy).symm) hne
  · exact ⟨_, hnode⟩

theorem impliesByShape_denial : impliesByShape (atom "x") denial.not = false := by
  obtain ⟨fs, hdenial⟩ := exists_denial_eq
  have hnot : denial.not = .of (.not denial) := by rw [hdenial]; rfl
  have hne : atom "x" ≠ .of (.not denial) := by
    rw [atom_eq]
    exact Formula.of_ne_of (by simp)
  rw [hnot]
  simp only [impliesByShape, hne, decide_false, Bool.false_or]
  rw [atom_eq]
  rfl

theorem isFalse_clash : (counterexample (atom "x") denial.not).isFalse = false := by
  rw [counterexample_denial]
  have hconst := mt (Formula.const?_junction normal_clash).1 undecided_clash
  simpa [Formula.isFalse, Formula.all, Connective.neutral] using hconst

theorem claims_clash : claims clashingContexts ([], []) (atom "x") denial.not = true := by
  have hverdict : clashingContexts.verdictOn ([], []) (counterexample (atom "x") denial.not) = .unsatisfiable :=
    if_pos hasClash_denial
  simp [claims, hverdict]

/-- The solver is asked whether `x` excludes a conjunction with its negation, and finds the clash. -/
theorem ofSolver_sound_of_clash :
    clashingContexts.Truthful ([], []) ∧ clashing.Counts (fun σ => σ.2.length) ∧
    impliesByShape (atom "x") denial.not = false ∧ (counterexample (atom "x") denial.not).isFalse = false ∧
    ∀ asked, ∃ σ, σ = (ofSolver clashing).after asked ([], []) ∧
      (ofSolver clashing).answer σ (.implies (atom "x") denial.not) = true ∧
      (∀ value, Sensible value → (atom "x").holds value = true → denial.not.holds value = true) ∧
      ∀ q, (((ofSolver clashing).ask q).run σ).2.2.length = σ.2.length := by
  refine ⟨truthful_clashing, counts_clashing, impliesByShape_denial, isFalse_clash, fun asked => ⟨_, rfl, ?_⟩⟩
  obtain ⟨himplies, -, -, -, hsame, hdepth⟩ := ofSolver_sound clashingContexts truthful_clashing asked _ rfl
  have hanswer : (ofSolver clashing).answer ((ofSolver clashing).after asked ([], []))
      (.implies (atom "x") denial.not) = true := by
    rw [hsame, answer_implies clashingContexts]
    exact claims_clash
  exact ⟨hanswer, fun value hvalue => himplies _ _ value hvalue hanswer, hdepth _ counts_clashing⟩

end Example

end Oracle
end Retrace
