import Retrace.Proofs.Formula.Canonical
import Mathlib.Data.Set.Basic

/-!
Which junctions are equal. An operand that decides a junction makes all others irrelevant; without one, a
junction is the set of its operands, where operands of the same kind are spread out and neutral constants
do not count. No other junctions are equal, as the set can be read off the junction again.
-/

set_option autoImplicit false

namespace Retrace.Formula

variable {k : Connective} {f g h x : Formula} {fs gs : List Formula}

/-- What an operand brings into a junction: its operands if it is a junction of the same kind, nothing if it
is neutral, and else itself. -/
inductive Contributes (k : Connective) (f : Formula) : Formula → Prop
  | operand {x : Formula} {gs : List Formula} (same : f.clause = .junction k gs) (mem : x ∈ gs) : Contributes k f x
  | self (other : f.isJunction k = false) (ne : f ≠ const k.neutral) : Contributes k f f

def operandSet (k : Connective) (fs : List Formula) : Set Formula := {x | ∃ f ∈ fs, Contributes k f x}

theorem const_inj {b b' : Bool} : const b = const b' ↔ b = b' :=
  ⟨fun heq => Option.some.inj (congrArg const? heq), congrArg const⟩

theorem Normal.const?_eq_some_iff (hf : Normal f) (b : Bool) : f.const? = some b ↔ f = const b := by
  constructor
  · intro heq
    obtain ⟨-, -⟩ := hf
    rename_i c
    cases c with
    | const b' =>
      cases heq
      rfl
    | _ => cases heq
  · rintro rfl
    rfl

theorem decided_iff_mem (hfs : ∀ f ∈ fs, Normal f) : Decided k fs ↔ const (!k.neutral) ∈ fs := by
  constructor
  · rintro ⟨f, hf, heq⟩
    rwa [← ((hfs f hf).const?_eq_some_iff _).1 heq]
  · exact fun hmem => ⟨_, hmem, rfl⟩

theorem contributes_of_same (same : f.clause = .junction k gs) : Contributes k f x ↔ x ∈ gs := by
  refine ⟨fun hx => ?_, .operand same⟩
  cases hx with
  | operand same' mem =>
    cases same.symm.trans same'
    exact mem
  | self other => simp [isJunction, same] at other

theorem contributes_of_other (other : f.isJunction k = false) :
    Contributes k f x ↔ f ≠ const k.neutral ∧ x = f := by
  constructor
  · intro hx
    cases hx with
    | operand same => simp [isJunction, same] at other
    | self _ ne => exact ⟨ne, rfl⟩
  · rintro ⟨ne, rfl⟩
    exact .self other ne

theorem mem_flatten_iff_contributes (hf : Normal f) : x ∈ flatten k f ↔ Contributes k f x := by
  cases hj : f.isJunction k with
  | true =>
    obtain ⟨d, c⟩ := f
    cases c with
    | junction k' gs =>
      cases beq_iff_eq.1 hj
      rw [contributes_of_same rfl, flatten, clause_node]
      simp
    | _ => cases hj
  | false =>
    rw [contributes_of_other hj]
    cases hconst : f.const? with
    | none =>
      have hne : f ≠ const k.neutral := by
        rintro rfl
        cases hconst
      rw [flatten_eq_singleton hconst hj, List.mem_singleton, and_iff_right hne]
    | some b =>
      cases (hf.const?_eq_some_iff b).1 hconst
      by_cases hb : b = k.neutral
      · simp [flatten_eq_nil (hb ▸ hconst), hb]
      · have hne : const b ≠ const k.neutral := fun heq => hb (const_inj.1 heq)
        have hflatten : flatten k (const b) = [const b] := if_neg hb
        rw [hflatten, List.mem_singleton, and_iff_right hne]

theorem mem_flat_iff (hfs : ∀ f ∈ fs, Normal f) : x ∈ flat k fs ↔ x ∈ operandSet k fs := by
  rw [flat, List.mem_flatMap]
  exact exists_congr fun f => and_congr_right fun hf => mem_flatten_iff_contributes (hfs f hf)

theorem mem_operandSet_cons :
    x ∈ operandSet k (f :: fs) ↔ Contributes k f x ∨ x ∈ operandSet k fs := by
  simp [operandSet]

theorem not_mem_operandSet_nil : x ∉ operandSet k [] := by
  rintro ⟨f, hf, -⟩
  cases hf

/-- A nested junction brings in what its operands bring in, so nothing is hidden more than one level down. -/
theorem contributes_junction (hfs : ∀ f ∈ fs, Normal f) (hne : const (!k.neutral) ∉ fs) :
    Contributes k (junction k fs) x ↔ x ∈ operandSet k fs := by
  rw [← decided_iff_mem hfs] at hne
  rw [← mem_flatten_iff_contributes (normal_junction k hfs), mem_flatten_junction hfs hne, mem_flat_iff hfs]

/-- Junctions are equal if each is decided by an operand, or none is and they have the same operands. -/
theorem junction_eq_iff (hfs : ∀ f ∈ fs, Normal f) (hgs : ∀ g ∈ gs, Normal g) :
    junction k fs = junction k gs ↔
      const (!k.neutral) ∈ fs ∧ const (!k.neutral) ∈ gs ∨
      const (!k.neutral) ∉ fs ∧ const (!k.neutral) ∉ gs ∧ operandSet k fs = operandSet k gs := by
  rw [← decided_iff_mem hfs, ← decided_iff_mem hgs]
  constructor
  · intro heq
    have hdecided : Decided k fs ↔ Decided k gs := by
      rw [← const?_junction hfs, ← const?_junction hgs, heq]
    by_cases h : Decided k fs
    · exact .inl ⟨h, hdecided.1 h⟩
    have h' : ¬ Decided k gs := fun hgs => h (hdecided.2 hgs)
    -- The operands can be read off the junction, so equal junctions have the same ones.
    refine .inr ⟨h, h', Set.ext fun x => ?_⟩
    rw [← mem_flat_iff hfs, ← mem_flat_iff hgs, ← mem_flatten_junction hfs h, heq, mem_flatten_junction hgs h']
  · rintro (⟨h, h'⟩ | ⟨h, h', hset⟩)
    · rw [junction_of_decided h, junction_of_decided h']
    · refine junction_congr (iff_of_false h h') fun _ x => ?_
      rw [mem_flat_iff hfs, mem_flat_iff hgs, hset]

theorem junction_assoc (k : Connective) (hf : Normal f) (hg : Normal g) (hh : Normal h) :
    junction k [f, junction k [g, h]] = junction k [junction k [f, g], h] := by
  have hfg : ∀ x ∈ [f, g], Normal x := by simp [hf, hg]
  have hgh : ∀ x ∈ [g, h], Normal x := by simp [hg, hh]
  calc junction k [f, junction k [g, h]]
      = junction k [junction k [g, h], f] := junction_congr_mem (by simp [or_comm])
    _ = junction k ([g, h] ++ [f]) := junction_junction_cons hgh [f]
    _ = junction k ([f, g] ++ [h]) := junction_congr_mem (by simp [or_comm, or_left_comm])
    _ = junction k [junction k [f, g], h] := (junction_junction_cons hfg [h]).symm

/-- Junctions of formulas that can be built are canonical up to associativity, commutativity and idempotence. -/
theorem junctions_canonical (fs gs : List Formula) (hfs : ∀ f ∈ fs, Obtainable f)
    (hgs : ∀ g ∈ gs, Obtainable g) :
    (all fs = all gs ↔ const false ∈ fs ∧ const false ∈ gs ∨
      const false ∉ fs ∧ const false ∉ gs ∧ operandSet .all fs = operandSet .all gs) ∧
    (any fs = any gs ↔ const true ∈ fs ∧ const true ∈ gs ∨
      const true ∉ fs ∧ const true ∉ gs ∧ operandSet .any fs = operandSet .any gs) ∧
    ((∀ f, f ∈ fs ↔ f ∈ gs) → all fs = all gs ∧ any fs = any gs) ∧
    (∀ f g h, Obtainable f → Obtainable g → Obtainable h →
      and f (and g h) = and (and f g) h ∧ or f (or g h) = or (or f g) h) := by
  have hnormal : ∀ f ∈ fs, Normal f := fun f hf => (hfs f hf).normal
  have hnormal' : ∀ g ∈ gs, Normal g := fun g hg => (hgs g hg).normal
  refine ⟨junction_eq_iff hnormal hnormal', junction_eq_iff hnormal hnormal', fun hmem => ?_,
    fun f g h hf hg hh => ?_⟩
  · exact ⟨junction_congr_mem hmem, junction_congr_mem hmem⟩
  · exact ⟨junction_assoc .all hf.normal hg.normal hh.normal, junction_assoc .any hf.normal hg.normal hh.normal⟩

structure IsTest (f : Formula) : Prop where
  obtainable : Obtainable f
  isJunction : ∀ k, f.isJunction k = false
  const_ne : ∀ b, const b ≠ f

theorem IsTest.mem_operandSet_cons (hf : IsTest f) :
    x ∈ operandSet k (f :: fs) ↔ x = f ∨ x ∈ operandSet k fs := by
  rw [Formula.mem_operandSet_cons, contributes_of_other (hf.isJunction k), and_iff_right (hf.const_ne _).symm]

theorem exists_tests : ∃ x y, IsTest x ∧ IsTest y ∧ x ≠ y := by
  have test (name : String) : IsTest (of (.nonzero (.var (.ofGlobal name)))) := by
    refine ⟨?_, fun _ => rfl, fun b heq => ?_⟩
    · rw [Expr.var, ← nonzero_of (by simp) (by simp)]
      exact .nonzero _
    · have hclause := congrArg clause heq
      simp [const] at hclause
  refine ⟨_, _, test "x", test "y", fun heq => ?_⟩
  have hvar : Expr.var (.ofGlobal "x") = .var (.ofGlobal "y") := Clause.nonzero.inj (congrArg clause heq)
  exact Walk.of_ne_of (by simp [Variable.ofGlobal]) hvar

/-- A nested conjunction, the constant true and a repeated operand make no difference; an operand left out
does. -/
theorem junctions_canonical_of_nested :
    ∃ x y : Formula, Obtainable x ∧ Obtainable y ∧
      all [and x y, const true, x] = all [y, x] ∧ all [x, y] ≠ all [x] ∧
      any [x, const true] = any [const true, y] ∧ and x (and y x) = and (and x y) x := by
  obtain ⟨x, y, hx, hy, hne⟩ := exists_tests
  have hpair : ∀ f ∈ [x, y], Normal f := by simp [hx.obtainable.normal, hy.obtainable.normal]
  have hfalse : const false ∉ [x, y] := by simp [hx.const_ne, hy.const_ne]
  have hand : const false ≠ and x y := fun heq =>
    hfalse ((decided_iff_mem (k := .all) hpair).1 ((const?_junction hpair).1 (congrArg const? heq.symm)))
  have hset : operandSet .all [and x y, const true, x] = operandSet .all [y, x] := by
    ext w
    have hnested : Contributes .all (and x y) w ↔ w ∈ operandSet .all [x, y] :=
      contributes_junction hpair hfalse
    have htrue : ¬ Contributes .all (const true) w := by
      rw [contributes_of_other rfl]
      exact fun h => h.1 rfl
    simp only [mem_operandSet_cons, hnested, htrue, hx.mem_operandSet_cons, hy.mem_operandSet_cons]
    tauto
  refine ⟨x, y, hx.obtainable, hy.obtainable, ?_, ?_, ?_, ?_⟩
  · refine (junctions_canonical _ _ ?_ ?_).1.2 (.inr ⟨?_, ?_, hset⟩)
    · simp [hx.obtainable, hy.obtainable, Obtainable.and, Obtainable.const]
    · simp [hx.obtainable, hy.obtainable]
    · simp [hx.const_ne, hand, const_inj]
    · simp [hx.const_ne, hy.const_ne]
  · intro heq
    rw [(junctions_canonical _ _ (by simp [hx.obtainable, hy.obtainable]) (by simp [hx.obtainable])).1] at heq
    obtain ⟨hmem, -⟩ | ⟨-, -, hsame⟩ := heq
    · exact hfalse hmem
    · have hy' : y ∈ operandSet .all [x] := by
        rw [← hsame, hx.mem_operandSet_cons, hy.mem_operandSet_cons]
        exact .inr (.inl rfl)
      rcases hx.mem_operandSet_cons.1 hy' with heq | hnil
      · exact hne heq.symm
      · exact not_mem_operandSet_nil hnil
  · refine (junctions_canonical _ _ ?_ ?_).2.1.2 (.inl ⟨?_, ?_⟩)
    · simp [hx.obtainable, Obtainable.const]
    · simp [hy.obtainable, Obtainable.const]
    · simp
    · simp
  · exact ((junctions_canonical [] [] (List.forall_mem_nil _) (List.forall_mem_nil _)).2.2.2 _ _ _
      hx.obtainable hy.obtainable hx.obtainable).1

end Retrace.Formula
