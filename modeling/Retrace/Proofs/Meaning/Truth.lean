import Retrace.Proofs.Formula.Normal
import Mathlib.Data.List.Forall2

/-!
The truth of a formula, once expressions have values. Factories mean what they say: flattening a junction,
sorting it, dropping repetitions and absorbing constants makes no difference. They also test no expression
that was not tested before.
-/

set_option autoImplicit false

namespace Retrace

namespace Connective

def join : Connective → Bool → Bool → Bool
  | all => (· && ·)
  | any => (· || ·)

theorem join_eq_neutral (k : Connective) (a b : Bool) :
    k.join a b = k.neutral ↔ a = k.neutral ∧ b = k.neutral := by
  cases k <;> cases a <;> cases b <;> decide

end Connective

namespace Formula

section Truth

variable (value : Expr → Int)

mutual
def holds : Formula → Bool
  | node _ (.const b) => b
  | node _ (.nonzero e) => value e != 0
  | node _ (.not f) => !f.holds
  | node _ (.junction k fs) => holdsEach k fs
def holdsEach (k : Connective) : List Formula → Bool
  | [] => k.neutral
  | f :: fs => k.join f.holds (holdsEach k fs)
end

variable {value}

theorem holdsEach_eq_neutral_iff (k : Connective) (fs : List Formula) :
    holdsEach value k fs = k.neutral ↔ ∀ f ∈ fs, f.holds value = k.neutral := by
  induction fs with
  | nil => simp [holdsEach]
  | cons f fs ih => rw [holdsEach, Connective.join_eq_neutral, ih, List.forall_mem_cons]

theorem holds_const (b : Bool) : (const b).holds value = b := by rw [const, of, holds]

theorem holds_of_not (f : Formula) : (of (.not f)).holds value = !f.holds value := by rw [of, holds]

theorem holds_of_junction (k : Connective) (fs : List Formula) :
    (of (.junction k fs)).holds value = k.neutral ↔ ∀ f ∈ fs, f.holds value = k.neutral := by
  rw [of, holds, holdsEach_eq_neutral_iff]

theorem holds_of_const? {f : Formula} {b : Bool} (h : f.const? = some b) : f.holds value = b := by
  obtain ⟨d, c⟩ := f
  cases c <;> simp_all [const?, holds]

theorem holds_not (f : Formula) : (not f).holds value = !f.holds value := by
  obtain ⟨d, c⟩ := f
  cases c with
  | const b => rw [holds]; exact holds_const _
  | not g => rw [holds, Bool.not_not]; rfl
  | nonzero e => exact holds_of_not _
  | junction k gs => exact holds_of_not _

theorem holds_flatten (k : Connective) (f : Formula) :
    (∀ g ∈ flatten k f, g.holds value = k.neutral) ↔ f.holds value = k.neutral := by
  obtain ⟨d, c⟩ := f
  unfold flatten
  cases c with
  | const b =>
    by_cases hb : b = k.neutral
    · simp [hb, holds]
    · simp [hb]
  | junction k' gs =>
    by_cases hk : k' = k
    · subst hk
      simp [holds, holdsEach_eq_neutral_iff]
    · simp [hk]
  | _ => simp

/-- A junction is neutral when all its operands are. -/
theorem holds_junction_iff (k : Connective) (fs : List Formula) :
    (junction k fs).holds value = k.neutral ↔ ∀ f ∈ fs, f.holds value = k.neutral := by
  have hflat : (∀ g ∈ canonical (fs.flatMap (flatten k)), g.holds value = k.neutral) ↔
      ∀ f ∈ fs, f.holds value = k.neutral := by
    constructor
    · intro h f hf
      refine (holds_flatten k f).1 fun g hg => h g ?_
      exact (mem_canonical _).2 (List.mem_flatMap.2 ⟨f, hf, hg⟩)
    · intro h g hg
      obtain ⟨f, hf, hgf⟩ := List.mem_flatMap.1 ((mem_canonical _).1 hg)
      exact (holds_flatten k f).2 (h f hf) g hgf
  rcases junction_cases k fs with ⟨⟨f, hf, hdecides⟩, hdecided⟩ | ⟨-, hcases⟩
  · -- The operand that decides the junction is not neutral.
    have hne : (!k.neutral) ≠ k.neutral := by cases k.neutral <;> decide
    rw [hdecided, holds_const]
    exact ⟨fun h => absurd h hne, fun h => absurd ((holds_of_const? hdecides).symm.trans (h f hf)) hne⟩
  rw [← hflat]
  rcases hcases with ⟨hempty, hnothing⟩ | ⟨f, hone, hleft⟩ | ⟨-, hnode⟩
  · simp [hnothing, hempty, holds_const]
  · simp [hleft, hone]
  · rw [hnode, holds_of_junction]

structure Sensible (value : Expr → Int) : Prop where
  int : ∀ e v, e.shape = .int v → value e = v
  not : ∀ e w a, e.shape = .unary .not w a → value e = Constant.ofTruth (value a == 0)

theorem holds_nonzero (sensible : Sensible value) (e : Expr) :
    (nonzero e).holds value = (value e != 0) := by
  fun_induction nonzero e with
  | case1 d v => rw [holds_const, sensible.int _ v rfl]
  | case2 d w a ih =>
    rw [holds_not, ih, sensible.not (.node d (.unary .not w a)) w a rfl]
    by_cases ha : value a = 0 <;> simp [ha, Constant.ofTruth]
  | case3 e => rw [of, holds]

theorem eq_of_eq_iff_eq {a b c : Bool} (h : a = c ↔ b = c) : a = b := by
  cases a <;> cases b <;> cases c <;> simp_all

theorem forall_holds_iff {value' : Expr → Int} {fs gs : List Formula}
    (h : List.Forall₂ (fun f g => g.holds value' = f.holds value) fs gs) (b : Bool) :
    (∀ g ∈ gs, g.holds value' = b) ↔ ∀ f ∈ fs, f.holds value = b := by
  induction h with
  | nil => simp
  | cons first _ ih => rw [List.forall_mem_cons, List.forall_mem_cons, first, ih]

theorem holds_withOperands {value' : Expr → Int} {f f' : Formula} {gs : List Formula}
    (hf : ∀ e, f.clause ≠ .nonzero e)
    (hgs : List.Forall₂ (fun g g' => g'.holds value' = g.holds value) f.operands gs)
    (h : f.withOperands gs = .ok f') : f'.holds value' = f.holds value := by
  obtain ⟨d, c⟩ := f
  unfold withOperands at h
  rw [if_pos hgs.length_eq.symm] at h
  cases c with
  | const b =>
    cases hgs
    cases h
    rw [holds, holds]
  | nonzero e => exact absurd rfl (hf e)
  | not g =>
    obtain ⟨g', rest, hg, hrest, rfl⟩ := List.forall₂_cons_left_iff.1 hgs
    cases hrest
    cases h
    rw [holds_not, holds, hg]
  | junction k fs =>
    cases h
    refine eq_of_eq_iff_eq (c := k.neutral) ?_
    rw [holds_junction_iff, holds, holdsEach_eq_neutral_iff]
    exact forall_holds_iff hgs k.neutral

end Truth

section Terms

variable {t : Expr}

theorem terms_const (b : Bool) : (const b).terms = [] := by rw [const, of, terms]

theorem terms_of_not (f : Formula) : (of (.not f)).terms = f.terms := by rw [of, terms]

theorem terms_not (f : Formula) : (not f).terms = f.terms := by
  obtain ⟨d, c⟩ := f
  cases c with
  | const b => rw [terms]; exact terms_const _
  | not g => rw [terms]; rfl
  | nonzero e => exact terms_of_not _
  | junction k gs => exact terms_of_not _

theorem mem_terms_of_mem_flatten {k : Connective} {f g : Formula} (hg : g ∈ flatten k f) (ht : t ∈ g.terms) :
    t ∈ f.terms := by
  unfold flatten at hg
  split at hg
  · split at hg
    · cases hg
    · cases List.mem_singleton.1 hg
      exact ht
  · rename_i hclause
    split at hg
    · exact mem_terms_of_mem_operands (by rwa [operands, hclause]) ht
    · cases List.mem_singleton.1 hg
      exact ht
  · cases List.mem_singleton.1 hg
    exact ht

theorem mem_terms_junction {k : Connective} {fs : List Formula} (ht : t ∈ (junction k fs).terms) :
    ∃ f ∈ fs, t ∈ f.terms := by
  have hflat : ∀ g ∈ canonical (fs.flatMap (flatten k)), t ∈ g.terms → ∃ f ∈ fs, t ∈ f.terms := by
    intro g hg htg
    obtain ⟨f, hf, hgf⟩ := List.mem_flatMap.1 ((mem_canonical _).1 hg)
    exact ⟨f, hf, mem_terms_of_mem_flatten hgf htg⟩
  rcases junction_cases k fs with ⟨-, hdecided⟩ | ⟨-, ⟨-, hnothing⟩ | ⟨f, hone, hleft⟩ | ⟨-, hnode⟩⟩
  · rw [hdecided, terms_const] at ht
    cases ht
  · rw [hnothing, terms_const] at ht
    cases ht
  · rw [hleft] at ht
    exact hflat f (by rw [hone]; exact List.mem_singleton_self f) ht
  · rw [hnode, of, terms] at ht
    obtain ⟨g, hg, htg⟩ := mem_termsAll.1 ht
    exact hflat g hg htg

theorem mem_terms_withOperands {f f' : Formula} {gs : List Formula} (hf : ∀ e, f.clause ≠ .nonzero e)
    (h : f.withOperands gs = .ok f') (ht : t ∈ f'.terms) : ∃ g ∈ gs, t ∈ g.terms := by
  obtain ⟨d, c⟩ := f
  unfold withOperands at h
  split at h
  · rename_i hlength
    cases c with
    | const b =>
      cases h
      rw [terms] at ht
      cases ht
    | nonzero e => exact absurd rfl (hf e)
    | not g =>
      obtain ⟨g', rfl⟩ := List.length_eq_one_iff.1 hlength
      cases h
      rw [terms_not] at ht
      exact ⟨g', List.mem_singleton_self g', ht⟩
    | junction k fs =>
      cases h
      exact mem_terms_junction ht
  · cases h

theorem forall_mem_terms_nonzero {p : Expr → Prop} (hnot : ∀ e w a, e.shape = .unary .not w a → p e → p a)
    {e : Expr} (he : p e) : ∀ t ∈ (nonzero e).terms, p t := by
  fun_induction nonzero e with
  | case1 d v =>
    rw [terms_const]
    exact List.forall_mem_nil _
  | case2 d w a ih =>
    rw [terms_not]
    exact ih (hnot _ w a rfl he)
  | case3 e =>
    rw [of, terms]
    exact List.forall_mem_singleton.2 he

end Terms

section Mapping

variable (input : Expr → Prop)

theorem layerKeeps_terms {p : Expr → Prop} (hnot : ∀ e w a, e.shape = .unary .not w a → p e → p a) :
    Walk.LayerKeeps (fun e e' => input e → p e')
      fun b b' => (∀ e ∈ b.terms, input e) → ∀ e ∈ b'.terms, p e where
  nonzero b e e' hb he hterms := by
    obtain ⟨d, c⟩ := b
    cases hb
    rw [terms] at hterms
    have hp := he (hterms e (List.mem_singleton_self e))
    split
    · rename_i heq
      subst heq
      rw [terms]
      exact List.forall_mem_singleton.2 hp
    · exact forall_mem_terms_nonzero hnot hp
  operands b bs b' hb hbs hb' hterms t ht := by
    have hoperands := (List.forall₂_and_left _ _).2
      ⟨fun g hg e he => hterms e (mem_terms_of_mem_operands hg he), hbs⟩
    obtain ⟨g, hg, htg⟩ := mem_terms_withOperands hb hb' ht
    exact Walk.forall_mem_of_forall₂ (fun _ _ h => h.2 h.1) hoperands g hg t htg

/-- Mapping expressions to expressions of the same value, be it in another frame, maps formulas to formulas
of the same truth. -/
theorem layerKeeps_holds (value : Expr → Int) {value' : Expr → Int} (sensible : Sensible value') :
    Walk.LayerKeeps (fun e e' => input e → value' e' = value e)
      fun b b' => (∀ e ∈ b.terms, input e) → b'.holds value' = b.holds value where
  nonzero b e e' hb he hterms := by
    obtain ⟨d, c⟩ := b
    cases hb
    rw [terms] at hterms
    have hsame := he (hterms e (List.mem_singleton_self e))
    split
    · rename_i heq
      subst heq
      rw [holds, holds, hsame]
    · rw [holds_nonzero sensible, holds, hsame]
  operands b bs b' hb hbs hb' hterms := by
    have hoperands := (List.forall₂_and_left _ _).2
      ⟨fun g hg e he => hterms e (mem_terms_of_mem_operands hg he), hbs⟩
    exact holds_withOperands hb (hoperands.imp fun _ _ h => h.2 h.1) hb'

end Mapping
end Formula
end Retrace
