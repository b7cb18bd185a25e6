import Retrace.Proofs.Formula.Normal

/-!
A junction depends only on the set of its operands once it is flat. So it makes no difference in which order
and how often operands are given, and a junction within a junction can be spread out.
-/

set_option autoImplicit false

namespace Retrace

theorem eq_of_pairwise_of_mem_iff {α : Type} {lt : α → α → Prop} {as bs : List α} (irrefl : ∀ a, ¬ lt a a)
    (trans : ∀ a b c, lt a b → lt b c → lt a c) (has : as.Pairwise lt) (hbs : bs.Pairwise lt)
    (h : ∀ a, a ∈ as ↔ a ∈ bs) : as = bs := by
  have hne : ∀ a b, lt a b → a ≠ b := by
    rintro a _ hlt rfl
    exact irrefl a hlt
  have hperm : as.Perm bs :=
    (List.perm_ext_iff_of_nodup (has.imp fun hlt => hne _ _ hlt) (hbs.imp fun hlt => hne _ _ hlt)).2 h
  exact hperm.eq_of_pairwise (fun a b _ _ hab hba => absurd (trans a b a hab hba) (irrefl a)) has hbs

namespace Formula

variable {k : Connective} {f x : Formula} {fs gs : List Formula}

theorem order_irrefl (f : Formula) : f.order f ≠ .lt := by
  rw [order_self]
  decide

theorem canonical_congr (h : ∀ x, x ∈ fs ↔ x ∈ gs) : canonical fs = canonical gs := by
  refine eq_of_pairwise_of_mem_iff order_irrefl (fun _ _ _ => Std.TransCmp.lt_trans) (pairwise_canonical fs)
    (pairwise_canonical gs) fun x => ?_
  rw [mem_canonical, mem_canonical, h]

def Decided (k : Connective) (fs : List Formula) : Prop := ∃ f ∈ fs, f.const? = some (!k.neutral)

def flat (k : Connective) (fs : List Formula) : List Formula := fs.flatMap (flatten k)

theorem decided_append : Decided k (fs ++ gs) ↔ Decided k fs ∨ Decided k gs := by
  simp [Decided, or_and_right, exists_or]

theorem decided_singleton : Decided k [f] ↔ f.const? = some (!k.neutral) := by simp [Decided]

theorem flat_append : flat k (fs ++ gs) = flat k fs ++ flat k gs := List.flatMap_append

theorem flat_singleton : flat k [f] = flatten k f := List.flatMap_singleton _ _

theorem mem_flat_of_canonical (h : canonical (fs.flatMap (flatten k)) = [f]) : f ∈ flat k fs := by
  rw [flat, ← mem_canonical, h]
  exact List.mem_singleton_self f

theorem ne_of_not_decided (h : ¬ Decided k fs) : ∀ f ∈ fs, f.const? ≠ some (!k.neutral) :=
  fun f hf heq => h ⟨f, hf, heq⟩

theorem junction_of_decided (h : Decided k fs) : junction k fs = const (!k.neutral) := by
  rw [junction, (flattenAll_eq_none_iff k fs).2 h]

theorem junction_congr (hdecided : Decided k fs ↔ Decided k gs)
    (hflat : ¬ Decided k fs → ∀ x, x ∈ flat k fs ↔ x ∈ flat k gs) : junction k fs = junction k gs := by
  by_cases h : Decided k fs
  · rw [junction_of_decided h, junction_of_decided (hdecided.1 h)]
  · have h' : ¬ Decided k gs := fun hgs => h (hdecided.2 hgs)
    have hcanonical : canonical (fs.flatMap (flatten k)) = canonical (gs.flatMap (flatten k)) :=
      canonical_congr (hflat h)
    rw [junction, junction, flattenAll_of_ne (ne_of_not_decided h), flattenAll_of_ne (ne_of_not_decided h')]
    dsimp only
    rw [hcanonical]

theorem junction_congr_mem (h : ∀ f, f ∈ fs ↔ f ∈ gs) : junction k fs = junction k gs := by
  refine junction_congr ?_ fun _ x => ?_
  · simp [Decided, h]
  · simp [flat, h]

theorem flatten_eq_nil (h : f.const? = some k.neutral) : flatten k f = [] := by
  obtain ⟨d, c⟩ := f
  cases c with
  | const b => simp_all [const?, flatten]
  | _ => cases h

theorem exists_mem_flatten (h : Normal f) (hne : f.const? ≠ some k.neutral) : ∃ x, x ∈ flatten k f := by
  obtain ⟨layer, -⟩ := h
  rename_i c
  cases c with
  | const b =>
    have hb : b ≠ k.neutral := fun hb => hne (congrArg some hb)
    exact ⟨of (.const b), by simp [flatten, hb]⟩
  | nonzero e => exact ⟨_, List.mem_singleton_self _⟩
  | not g => exact ⟨_, List.mem_singleton_self _⟩
  | junction k' gs =>
    by_cases hk : k' = k
    · obtain ⟨x, hx⟩ := List.exists_mem_of_length_pos (Nat.lt_of_lt_of_le Nat.zero_lt_two layer.1)
      exact ⟨x, by simpa [flatten, hk] using hx⟩
    · exact ⟨of (.junction k' gs), by simp [flatten, hk]⟩

section Spreading

variable (hfs : ∀ f ∈ fs, Normal f)
include hfs

theorem mem_flat_of_normal (hne : ¬ Decided k fs) (hx : x ∈ flat k fs) :
    Normal x ∧ x.const? = none ∧ x.isJunction k = false := by
  obtain ⟨f, hf, hx⟩ := List.mem_flatMap.1 hx
  exact mem_flatten_of_normal (hfs f hf) (ne_of_not_decided hne f hf) hx

theorem const?_junction : (junction k fs).const? = some (!k.neutral) ↔ Decided k fs := by
  rcases junction_cases k fs with ⟨hdecided, heq⟩ | ⟨hne, hcases⟩
  · exact iff_of_true (by rw [heq]; rfl) hdecided
  have hne : ¬ Decided k fs := fun ⟨f, hf, heq⟩ => hne f hf heq
  refine iff_of_false ?_ hne
  rcases hcases with ⟨-, heq⟩ | ⟨f, hone, heq⟩ | ⟨-, heq⟩
  · rw [heq]
    cases k <;> decide
  · have hf := mem_flat_of_canonical hone
    rw [heq, (mem_flat_of_normal hfs hne hf).2.1]
    simp
  · rw [heq]
    simp [const?]

theorem mem_flatten_junction (hne : ¬ Decided k fs) : x ∈ flatten k (junction k fs) ↔ x ∈ flat k fs := by
  have hmem : x ∈ canonical (fs.flatMap (flatten k)) ↔ x ∈ flat k fs := mem_canonical _
  rcases junction_cases k fs with ⟨hdecided, -⟩ | ⟨-, ⟨hnothing, heq⟩ | ⟨f, hone, heq⟩ | ⟨-, heq⟩⟩
  · exact absurd hdecided hne
  · rw [← hmem, hnothing, heq]
    simp [flatten, const]
  · rw [hone, List.mem_singleton] at hmem
    obtain ⟨-, hconst, hjunction⟩ := mem_flat_of_normal hfs hne (mem_flat_of_canonical hone)
    rw [← hmem, heq, flatten_eq_singleton hconst hjunction, List.mem_singleton]
  · rw [← hmem, heq]
    simp [flatten]

theorem const?_junction_ne_neutral (hf : f ∈ fs) (hne : f.const? ≠ some k.neutral) :
    (junction k fs).const? ≠ some k.neutral := by
  intro heq
  have hundecided : ¬ Decided k fs := by
    rw [← const?_junction hfs, heq]
    cases k <;> decide
  obtain ⟨x, hx⟩ := exists_mem_flatten (hfs f hf) hne
  have hmem := (mem_flatten_junction hfs hundecided).2 (List.mem_flatMap.2 ⟨f, hf, hx⟩)
  rw [flatten_eq_nil heq] at hmem
  cases hmem

theorem junction_junction_cons (gs : List Formula) : junction k (junction k fs :: gs) = junction k (fs ++ gs) := by
  have hdecided : Decided k (junction k fs :: gs) ↔ Decided k (fs ++ gs) := by
    rw [← List.singleton_append, decided_append, decided_append, decided_singleton, const?_junction hfs]
  refine junction_congr hdecided fun hne x => ?_
  have hne : ¬ Decided k fs := fun h => hne (hdecided.2 (decided_append.2 (.inl h)))
  rw [← List.singleton_append, flat_append, flat_append, flat_singleton, List.mem_append, List.mem_append,
    mem_flatten_junction hfs hne]

end Spreading

theorem junction_singleton_of_flatten (hconst : f.const? = none) (hflatten : flatten k f = [f]) :
    junction k [f] = f := by
  have hcanonical : canonical [f] = [f] := canonical_of_pairwise (List.pairwise_singleton _ f)
  have hne : ∀ g ∈ [f], g.const? ≠ some (!k.neutral) := List.forall_mem_singleton.2 (by simp [hconst])
  rw [junction, flattenAll_of_ne hne, List.flatMap_singleton, hflatten]
  dsimp only
  rw [hcanonical]

theorem junction_nil (k : Connective) : junction k [] = const k.neutral := by
  simp [junction, flattenAll, canonical, dropRepeated]

theorem junction_singleton (k : Connective) (h : Normal f) : junction k [f] = f := by
  have hself := h.withOperands_self
  obtain ⟨layer, operands⟩ := h
  rename_i c
  cases c with
  | const b =>
    by_cases hb : b = k.neutral
    · have hspread : junction k [junction k []] = junction k [] := junction_junction_cons (List.forall_mem_nil _) []
      rwa [junction_nil, ← hb] at hspread
    · have hb : b = !k.neutral := by cases b <;> cases hk : k.neutral <;> simp_all
      rw [junction_of_decided (decided_singleton.2 (by rw [hb]; rfl)), hb]
      rfl
  | nonzero e => exact junction_singleton_of_flatten rfl rfl
  | not g => exact junction_singleton_of_flatten rfl rfl
  | junction k' gs =>
    by_cases hk : k' = k
    · subst hk
      unfold withOperands at hself
      rw [if_pos rfl] at hself
      have hjunction : junction k' gs = of (.junction k' gs) := Except.ok.inj hself
      have hspread : junction k' [junction k' gs] = junction k' (gs ++ []) := junction_junction_cons operands []
      rwa [List.append_nil, hjunction] at hspread
    · exact junction_singleton_of_flatten rfl (by simp [flatten, hk])

end Formula
end Retrace
