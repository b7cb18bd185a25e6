import Retrace.Proofs.Search.Alternatives
import Retrace.Proofs.Search.Frames
import Retrace.Proofs.Walk.Reach
import Retrace.Search.Placeholders

/-!
What the elimination of placeholders gives: every formula that some alternative contributes, once, under the
disjunction of all guards that it has there. Nothing is lost, because no guard that is joined from possible
ones is false; nothing is added; and the order of the input does not show.
-/

set_option autoImplicit false

namespace Retrace

open Formula (Normal normal_junction)

namespace Formula

variable {f g : Formula} {fs : List Formula}

theorem isFalse_and (hf : Normal f) (hg : Normal g) : (f.and g).isFalse = false ↔
    f.isFalse = false ∧ g.isFalse = false := by
  have hnormal : ∀ x ∈ [f, g], Normal x := List.forall_mem_cons.2 ⟨hf, List.forall_mem_singleton.2 hg⟩
  have hdecided := const?_junction (k := .all) hnormal
  simp [Decided, Connective.neutral] at hdecided
  simp [isFalse, and, all, hdecided]

theorem isFalse_any (hfs : ∀ f ∈ fs, Normal f) (hf : f ∈ fs) (hne : f.isFalse = false) :
    (any fs).isFalse = false := by
  have hne : f.const? ≠ some Connective.any.neutral := by simpa [isFalse, Connective.neutral] using hne
  have hany := const?_junction_ne_neutral hfs hf hne
  simpa [isFalse, any, Connective.neutral] using hany

end Formula

/-- What pushing lets into a list of alternatives: a formula and a guard in normal form, the guard not false. -/
structure Alternative.Possible (a : Alternative) : Prop where
  formula : a.formula.Normal
  guard : a.guard.Normal
  arises : a.guard.isFalse = false

namespace Alternatives

variable {as bs : Alternatives} {f g : Formula}

theorem possible_push (has : ∀ a ∈ as, a.Possible) (hf : Normal f) (hg : Normal g) :
    ∀ a ∈ push as f g, a.Possible := by
  unfold push
  split
  · exact has
  · rename_i hne
    intro a ha
    rcases List.mem_append.1 ha with hmem | hlast
    · exact has a hmem
    · cases List.mem_singleton.1 hlast
      exact ⟨hf, hg, by simpa using hne⟩

theorem foldl_push (h : ∀ b ∈ bs, b.Possible) :
    bs.foldl (fun out b => push out b.formula b.guard) as = as ++ bs := by
  induction bs generalizing as with
  | nil => simp
  | cons b bs ih =>
    obtain ⟨hb, hbs⟩ := List.forall_mem_cons.1 h
    have hpush : push as b.formula b.guard = as ++ [b] := by simp [push, hb.arises]
    rw [List.foldl_cons, hpush, ih hbs, List.append_assoc, List.singleton_append]

theorem Joined.possible {out : Alternatives} (h : Joined as out) (has : ∀ a ∈ as, a.Possible) :
    ∀ x ∈ out, x.Possible := by
  intro x hx
  obtain ⟨⟨a, ha, hformula⟩, hguard⟩ := (h.mem_iff x).1 hx
  have hguards : ∀ g ∈ guardsOf x.formula as, Normal g := fun g hg => (has _ (mem_guardsOf.1 hg)).guard
  have hmem : a.guard ∈ guardsOf x.formula as := mem_guardsOf.2 (hformula ▸ ha)
  refine ⟨hformula ▸ (has a ha).formula, ?_, ?_⟩
  · rw [hguard]
    exact normal_junction _ hguards
  · rw [hguard]
    exact Formula.isFalse_any hguards hmem (has a ha).arises

end Alternatives

namespace Search

open Alternatives (guardsOf combine Joined joined_combine joined_self)
open Guarantee (sure)

def HoldsPlaceholder (f : Formula) : Prop := ∃ e ∈ f.terms, ∃ a, e.Reaches a ∧ isPlaceholder a = true

theorem hasPlaceholders_iff (f : Formula) : hasPlaceholders f = true ↔ HoldsPlaceholder f := by
  rw [← not_iff_not, Bool.not_eq_true, hasPlaceholders, Walk.mentions_eq_false_iff]
  simp [HoldsPlaceholder]

instance : DecidablePred HoldsPlaceholder := fun f => decidable_of_iff _ (hasPlaceholders_iff f)

theorem unreferenced_of_not_holdsPlaceholder {f : Formula} (h : ¬ HoldsPlaceholder f) (id : Nat) :
    ∀ e ∈ f.terms, Unreferenced id e := by
  intro e he a ha inner hshape
  refine h ⟨e, he, a, ha, ?_⟩
  rw [isPlaceholder, hshape]

/-- What a formula without references to the frame contributes under a guard: itself, or the answers of the
memory model. -/
def contribution (answers : Formula → Alternatives) (guard f : Formula) : Alternatives :=
  if HoldsPlaceholder f then (answers f).map fun b => ⟨b.formula, guard.and b.guard⟩ else [⟨f, guard⟩]

def contributions (bare : Formula → Formula) (answers : Formula → Alternatives) (input : Alternatives) :
    Alternatives :=
  input.flatMap fun a => contribution answers a.guard (bare a.formula)

def addEliminated {m : Type → Type} [Monad m] (frame : Frame m) (output : Alternatives) (a : Alternative) :
    ExceptT Fault m Alternatives := do
  return (← eliminated frame a).foldl (fun out b => Alternatives.push out b.formula b.guard) output

theorem removeValues_eq {m : Type → Type} [Monad m] (frame : Frame m) (input : Alternatives) :
    removeValues frame input = (do return combine (← input.foldlM (addEliminated frame) [])) := rfl

section Elimination

variable {S : Type} {frame : Frame (StateM S)} {bare : Formula → Formula} {answers : Formula → Alternatives}
  {input : Alternatives} {a : Alternative}

theorem possible_contribution (hanswers : ∀ f, ∀ b ∈ answers f, b.Possible) {guard f : Formula}
    (ha : Alternative.Possible ⟨f, guard⟩) : ∀ b ∈ contribution answers guard f, b.Possible := by
  unfold contribution
  split
  · intro c hc
    obtain ⟨b, hmem, rfl⟩ := List.mem_map.1 hc
    have hb := hanswers f b hmem
    have hboth : ∀ x ∈ [guard, b.guard], Normal x :=
      List.forall_mem_cons.2 ⟨ha.guard, List.forall_mem_singleton.2 hb.guard⟩
    exact ⟨hb.formula, normal_junction _ hboth, (Formula.isFalse_and ha.guard hb.guard).2 ⟨ha.arises, hb.arises⟩⟩
  · exact List.forall_mem_singleton.2 ha

theorem possible_contributions (hanswers : ∀ f, ∀ b ∈ answers f, b.Possible)
    (hinput : ∀ a ∈ input, a.Possible) {id : Nat}
    (hbare : ∀ a ∈ input, dropReferences id a.formula = .ok (bare a.formula)) :
    ∀ b ∈ contributions bare answers input, b.Possible := by
  intro b hb
  obtain ⟨a, ha, hb⟩ := List.mem_flatMap.1 hb
  have hformula := normal_of_dropReferences (hinput a ha).formula (hbare a ha)
  exact possible_contribution hanswers ⟨hformula, (hinput a ha).guard, (hinput a ha).arises⟩ b hb

theorem eliminated_gives (hmemory : ∀ f s, ((frame.memory.view .expanded 0 f).run s).1 = answers f)
    {f : Formula} (hf : dropReferences frame.id a.formula = .ok f) :
    (sure (StateM S)).Gives (eliminated frame a) (· = contribution answers a.guard f) := by
  rw [eliminated, hf, Walk.lift_ok, pure_bind, contribution]
  by_cases hplaceholder : HoldsPlaceholder f
  · rw [if_pos ((hasPlaceholders_iff f).2 hplaceholder), if_pos hplaceholder]
    have hview : (Guarantee.returned (StateM S)).Gives (frame.memory.view .expanded 0 f) (· = answers f) := by
      rintro _ ⟨s, rfl⟩
      exact hmemory f s
    refine (sure (StateM S)).bind (Guarantee.throwing_lift _ hview) fun found hfound => (sure (StateM S)).pure ?_
    rw [hfound]
  · rw [if_neg (mt (hasPlaceholders_iff f).1 hplaceholder), if_neg hplaceholder]
    exact (sure (StateM S)).pure rfl

variable (hmemory : ∀ f s, ((frame.memory.view .expanded 0 f).run s).1 = answers f)
  (hanswers : ∀ f, ∀ b ∈ answers f, b.Possible) (hinput : ∀ a ∈ input, a.Possible)
  (hbare : ∀ a ∈ input, dropReferences frame.id a.formula = .ok (bare a.formula))
include hmemory hanswers hinput hbare

theorem foldlM_addEliminated_gives (output : Alternatives) :
    (sure (StateM S)).Gives (input.foldlM (addEliminated frame) output)
      (· = output ++ contributions bare answers input) := by
  induction input generalizing output with
  | nil => exact (sure (StateM S)).pure (by simp [contributions])
  | cons a input ih =>
    have hpossible : ∀ b ∈ contribution answers a.guard (bare a.formula), b.Possible := fun b hb =>
      possible_contributions hanswers hinput hbare b (List.mem_flatMap.2 ⟨a, List.mem_cons_self, hb⟩)
    obtain ⟨-, hinput⟩ := List.forall_mem_cons.1 hinput
    obtain ⟨ha, hbare⟩ := List.forall_mem_cons.1 hbare
    rw [List.foldlM_cons]
    refine (sure (StateM S)).bind (p := (· = output ++ contribution answers a.guard (bare a.formula))) ?_ ?_
    · refine (sure (StateM S)).bind (eliminated_gives hmemory ha) fun found hfound => (sure (StateM S)).pure ?_
      rw [hfound, Alternatives.foldl_push hpossible]
    · rintro _ rfl
      refine (sure (StateM S)).imp (ih hinput hbare _) fun r hr => ?_
      rw [hr, contributions, contributions, List.flatMap_cons, List.append_assoc]

theorem removeValues_gives :
    (sure (StateM S)).Gives (removeValues frame input) (· = combine (contributions bare answers input)) := by
  rw [removeValues_eq]
  refine (sure (StateM S)).bind (foldlM_addEliminated_gives hmemory hanswers hinput hbare []) fun r hr => ?_
  exact (sure (StateM S)).pure (by rw [hr, List.nil_append])

end Elimination

section Eliminated

variable {m : Type → Type} [Monad m] [LawfulMonad m]

theorem eliminated_self (frame : Frame m) {a : Alternative} (ha : a.Possible)
    (hfree : ¬ HoldsPlaceholder a.formula) : eliminated frame a = pure [a] := by
  have hdropped := dropReferences_self ha.formula (unreferenced_of_not_holdsPlaceholder hfree frame.id)
  rw [eliminated, hdropped, Walk.lift_ok, pure_bind, if_neg (mt (hasPlaceholders_iff _).1 hfree)]

theorem foldlM_addEliminated_self (frame : Frame m) {as : Alternatives} (has : ∀ a ∈ as, a.Possible)
    (hfree : ∀ a ∈ as, ¬ HoldsPlaceholder a.formula) (output : Alternatives) :
    as.foldlM (addEliminated frame) output = pure (output ++ as) := by
  induction as generalizing output with
  | nil => simp
  | cons a as ih =>
    obtain ⟨ha, has⟩ := List.forall_mem_cons.1 has
    obtain ⟨hafree, hfree⟩ := List.forall_mem_cons.1 hfree
    have hadded : addEliminated frame output a = pure (output ++ [a]) := by
      rw [addEliminated, eliminated_self frame ha hafree, pure_bind,
        Alternatives.foldl_push (List.forall_mem_singleton.2 ha)]
    rw [List.foldlM_cons, hadded, pure_bind, ih has hfree, List.append_assoc, List.singleton_append]

theorem removeValues_self (frame : Frame m) {as : Alternatives} (hincreasing : as.Increasing)
    (has : ∀ a ∈ as, a.Possible) (hfree : ∀ a ∈ as, ¬ HoldsPlaceholder a.formula) :
    removeValues frame as = pure as := by
  have hguards : ∀ a ∈ as, Normal a.guard := fun a ha => (has a ha).guard
  have hcombined : combine as = as := (joined_combine hguards).eq (joined_self hincreasing hguards)
  rw [removeValues_eq, foldlM_addEliminated_self frame has hfree, pure_bind, List.nil_append, hcombined]

end Eliminated

theorem free_contributions {bare : Formula → Formula} {answers : Formula → Alternatives}
    (hfree : ∀ f, ∀ b ∈ answers f, ¬ HoldsPlaceholder b.formula) (input : Alternatives) :
    ∀ b ∈ contributions bare answers input, ¬ HoldsPlaceholder b.formula := by
  intro b hb
  obtain ⟨a, -, hb⟩ := List.mem_flatMap.1 hb
  unfold contribution at hb
  split at hb
  · obtain ⟨c, hc, rfl⟩ := List.mem_map.1 hb
    exact hfree _ c hc
  · rename_i hbare
    cases List.mem_singleton.1 hb
    exact hbare

/-- Elimination gives every contributed formula once, in increasing order, under the disjunction of all its
guards, none of which is false; it gives the same for every order of the input, and nothing more where the
memory model leaves no placeholders. -/
theorem removeValues_joins {S : Type} {frame : Frame (StateM S)} {bare : Formula → Formula}
    {answers : Formula → Alternatives} {input : Alternatives}
    (hmemory : ∀ f s, ((frame.memory.view .expanded 0 f).run s).1 = answers f)
    (hanswers : ∀ f, ∀ b ∈ answers f, b.Possible) (hinput : ∀ a ∈ input, a.Possible)
    (hbare : ∀ a ∈ input, dropReferences frame.id a.formula = .ok (bare a.formula)) :
    ∃ output : Alternatives,
      (∀ input', input'.Perm input → ∀ s, ((removeValues frame input').run.run s).1 = .ok output) ∧
      (output.Pairwise fun a b => a.formula.order b.formula = .lt) ∧
      (∀ f, (∃ a ∈ output, a.formula = f) ↔ ∃ a ∈ contributions bare answers input, a.formula = f) ∧
      (∀ a ∈ output, a.guard = .any (guardsOf a.formula (contributions bare answers input)) ∧
        a.guard.isFalse = false) ∧
      ((∀ f, ∀ b ∈ answers f, ¬ HoldsPlaceholder b.formula) →
        ∀ (m : Type → Type) [Monad m] [LawfulMonad m] (frame' : Frame m),
          removeValues frame' output = pure output) := by
  have hpossible := possible_contributions hanswers hinput hbare
  have hjoined := joined_combine fun a ha => (hpossible a ha).guard
  refine ⟨combine (contributions bare answers input), ?_, hjoined.increasing, ?_, ?_, ?_⟩
  · intro input' hperm s
    have hinput' : ∀ a ∈ input', a.Possible := fun a ha => hinput a (hperm.mem_iff.1 ha)
    have hbare' : ∀ a ∈ input', dropReferences frame.id a.formula = .ok (bare a.formula) :=
      fun a ha => hbare a (hperm.mem_iff.1 ha)
    obtain ⟨_, hrun, rfl⟩ := Guarantee.sure_iff.1 (removeValues_gives hmemory hanswers hinput' hbare') s
    have hmem : ∀ b, b ∈ contributions bare answers input' ↔ b ∈ contributions bare answers input :=
      fun b => (hperm.flatMap_right _).mem_iff
    have hjoined' := joined_combine fun a ha => (possible_contributions hanswers hinput' hbare' a ha).guard
    rw [hrun, (hjoined'.congr hmem).eq hjoined]
  · intro f
    constructor
    · rintro ⟨x, hx, rfl⟩
      exact ((hjoined.mem_iff x).1 hx).1
    · rintro ⟨a, ha, rfl⟩
      let guards := guardsOf a.formula (contributions bare answers input)
      exact ⟨⟨a.formula, .any guards⟩, (hjoined.mem_iff _).2 ⟨⟨a, ha, rfl⟩, rfl⟩, rfl⟩
  · exact fun x hx => ⟨((hjoined.mem_iff x).1 hx).2, (hjoined.possible hpossible x hx).arises⟩
  · intro hfree m _ _ frame'
    refine removeValues_self frame' hjoined.increasing (hjoined.possible hpossible) fun x hx => ?_
    obtain ⟨⟨b, hb, hformula⟩, -⟩ := (hjoined.mem_iff x).1 hx
    exact hformula ▸ free_contributions hfree input b hb

section Examples

def tested (name : String) : Formula := .of (.nonzero (.var (.ofGlobal name)))

def ownReference : Expr := .of (.frame (.var (.ofGlobal "x")) 3)

def openValue : Expr := .of (.value (.var (.ofGlobal "x")) none 5 false)

/-- A frame whose memory model counts how often it is asked and answers with one formula. -/
def countingFrame : Frame (StateM Nat) where
  id := 3
  memory :=
    { block := .ofFunction "f"
      exitPoint := 0
      location? := fun _ => none
      edge? := fun _ => none
      indirectCallees := fun _ => []
      view := fun _ _ _ => modifyGet fun n => (Alternatives.push [] (tested "x") (tested "k"), n + 1)
      preserves := fun _ => pure true }
  calleeView _ := .calleeEntry
  assert _ := pure ()

def twoWays : Alternatives :=
  Alternatives.push (Alternatives.push [] (.of (.nonzero ownReference)) (tested "g")) (.of (.nonzero openValue))
    (tested "h")

def withoutOwn (f : Formula) : Formula := (dropReferences 3 f).toOption.getD f

theorem normal_of_nonzero {s : Shape Expr} (hint : ∀ v, s ≠ .int v) (hnot : ∀ w a, s ≠ .unary .not w a) :
    Normal (.of (.nonzero (.of s))) := by
  rw [← Formula.nonzero_of hint hnot]
  exact Formula.normal_nonzero _

theorem forall_terms_test_iff {p : Expr → Prop} {e : Expr} :
    (∀ t ∈ (Formula.of (.nonzero e)).terms, p t) ↔ p e := by
  rw [Formula.of, Formula.terms, List.forall_mem_singleton]

theorem normal_tested (name : String) : Normal (tested name) := normal_of_nonzero (by simp) (by simp)

theorem holdsPlaceholder_leaf_iff {e : Expr} (hleaf : e.children = []) :
    HoldsPlaceholder (.of (.nonzero e)) ↔ isPlaceholder e = true := by
  have hterms : (Formula.of (.nonzero e)).terms = [e] := by rw [Formula.of, Formula.terms]
  unfold HoldsPlaceholder
  rw [hterms]
  constructor
  · rintro ⟨e', he', a, ha, hplaceholder⟩
    cases List.mem_singleton.1 he'
    rwa [← ha.eq_of_leaf hleaf]
  · exact fun h => ⟨e, List.mem_singleton_self e, e, .refl e, h⟩

theorem dropReferences_ownReference : dropReferences 3 (.of (.nonzero ownReference)) = .ok (tested "x") := by
  have hne : Expr.var (.ofGlobal "x") ≠ ownReference := Walk.of_ne_of (by simp)
  have hinner : withoutReference 3 ownReference = .var (.ofGlobal "x") := rfl
  have hmade : Formula.nonzero (.var (.ofGlobal "x")) = tested "x" := Formula.nonzero_of (by simp) (by simp)
  rw [dropReferences, dropReferences?, Formula.of, Walk.run_mapFormula_nonzero _
    (Walk.run_mapExpr_leaf rfl rfl (applied_referenceMapper 3 _ _)), hinner, Option.map_some, if_neg hne,
    hmade]
  rfl

theorem dropReferences_openValue :
    dropReferences 3 (.of (.nonzero openValue)) = .ok (.of (.nonzero openValue)) := by
  refine dropReferences_self (normal_of_nonzero (by simp) (by simp)) fun e he a ha inner hshape => ?_
  rw [Formula.of, Formula.terms] at he
  cases List.mem_singleton.1 he
  cases ha.eq_of_leaf rfl
  cases hshape

theorem twoWays_eq : twoWays =
    [⟨.of (.nonzero ownReference), tested "g"⟩, ⟨.of (.nonzero openValue), tested "h"⟩] := by
  have hpossible (name : String) : (tested name).isFalse = false := rfl
  simp [twoWays, Alternatives.push, hpossible]

theorem contributions_twoWays :
    contributions withoutOwn (fun _ => Alternatives.push [] (tested "x") (tested "k")) twoWays =
      [⟨tested "x", tested "g"⟩, ⟨tested "x", (tested "h").and (tested "k")⟩] := by
  have hown : withoutOwn (.of (.nonzero ownReference)) = tested "x" := by
    rw [withoutOwn, dropReferences_ownReference]
    rfl
  have hopen : withoutOwn (.of (.nonzero openValue)) = .of (.nonzero openValue) := by
    rw [withoutOwn, dropReferences_openValue]
    rfl
  have hfree : ¬ HoldsPlaceholder (tested "x") := by
    rw [tested, holdsPlaceholder_leaf_iff rfl]
    exact Bool.false_ne_true
  have hheld : HoldsPlaceholder (.of (.nonzero openValue)) := (holdsPlaceholder_leaf_iff rfl).2 rfl
  have hpossible : (tested "k").isFalse = false := rfl
  rw [twoWays_eq]
  simp [contributions, contribution, hown, hopen, hfree, hheld, Alternatives.push, hpossible]

/-- Of two alternatives one is a reference of the frame to itself and the other is answered by the memory
model: both come to one formula, which stands once in the output. -/
theorem removeValues_joins_of_two_ways :
    (∀ f s, ((countingFrame.memory.view .expanded 0 f).run s).1 = Alternatives.push [] (tested "x") (tested "k")) ∧
    (∀ a ∈ twoWays, a.Possible) ∧
    (∀ a ∈ twoWays, dropReferences countingFrame.id a.formula = .ok (withoutOwn a.formula)) ∧
    ∃ output : Alternatives, (∀ s, ((removeValues countingFrame twoWays).run.run s).1 = .ok output) ∧
      (∀ f, (∃ a ∈ output, a.formula = f) ↔ f = tested "x") ∧
      (∀ a ∈ output, a.guard = .any [tested "g", (tested "h").and (tested "k")]) ∧
      ∀ (m : Type → Type) [Monad m] [LawfulMonad m] (frame' : Frame m),
        removeValues frame' output = pure output := by
  have hmemory (f : Formula) (s : Nat) : ((countingFrame.memory.view .expanded 0 f).run s).1 =
      Alternatives.push [] (tested "x") (tested "k") := rfl
  have hanswers := Alternatives.possible_push (List.forall_mem_nil _) (normal_tested "x") (normal_tested "k")
  have hinput : ∀ a ∈ twoWays, a.Possible := by
    refine Alternatives.possible_push (Alternatives.possible_push (List.forall_mem_nil _) ?_ ?_) ?_ ?_
    · exact normal_of_nonzero (by simp) (by simp)
    · exact normal_tested "g"
    · exact normal_of_nonzero (by simp) (by simp)
    · exact normal_tested "h"
  have hbare : ∀ a ∈ twoWays, dropReferences countingFrame.id a.formula = .ok (withoutOwn a.formula) := by
    rw [twoWays_eq]
    refine List.forall_mem_cons.2 ⟨?_, List.forall_mem_singleton.2 ?_⟩
    · rw [withoutOwn, dropReferences_ownReference]
      exact dropReferences_ownReference
    · rw [withoutOwn, dropReferences_openValue]
      exact dropReferences_openValue
  obtain ⟨output, hrun, -, hformulas, hguards, hagain⟩ :=
    removeValues_joins hmemory (fun _ => hanswers) hinput hbare
  rw [contributions_twoWays] at hformulas hguards
  have hx : ∀ f, (∃ a ∈ output, a.formula = f) ↔ f = tested "x" := by
    intro f
    rw [hformulas]
    simp [eq_comm]
  refine ⟨hmemory, hinput, hbare, output, hrun _ (.refl _), hx, fun a ha => ?_, hagain fun f b hb => ?_⟩
  · have hformula := (hx a.formula).1 ⟨a, ha, rfl⟩
    rw [(hguards a ha).1, hformula]
    simp [guardsOf]
  · have hb : b = ⟨tested "x", tested "k"⟩ := by
      have hpossible : (tested "k").isFalse = false := rfl
      simpa [Alternatives.push, hpossible] using hb
    rw [hb, tested, holdsPlaceholder_leaf_iff rfl]
    exact Bool.false_ne_true

end Examples

end Search
end Retrace
