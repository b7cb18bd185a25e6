import Retrace.Proofs.Formula.Sets
import Retrace.Proofs.Meaning.Factories
import Retrace.Search.Alternatives

/-!
What sorting and merging makes of a list of alternatives: each formula once, in increasing order, under the
disjunction of all the guards it had. Guards are joined two at a time along the sorted list, which comes to
the same as joining them all at once.
-/

set_option autoImplicit false

namespace Retrace

open Formula (Normal order junction_singleton junction_junction_cons junction_congr_mem)

namespace Alternative

theorem atMost_iff (a b : Alternative) : a.atMost b = true ↔ (a.order b).isLE = true := by
  unfold atMost
  cases a.order b <;> decide

instance : Std.TransCmp Alternative.order := by
  refine Composes.transCmp (fun a b => ?_) fun a b c => ?_
  · exact swap_then (Formula.order_swap _ _) fun _ => Formula.order_swap _ _
  · exact (Formula.order_composes _ _ _).then fun _ _ => Formula.order_composes _ _ _

end Alternative

namespace Alternatives

variable {a b x : Alternative} {as bs : Alternatives} {f g : Formula}

def guardsOf (f : Formula) (as : Alternatives) : List Formula := (as.filter (·.formula = f)).map (·.guard)

theorem mem_guardsOf : g ∈ guardsOf f as ↔ ⟨f, g⟩ ∈ as := by
  simp only [guardsOf, List.mem_map, List.mem_filter, decide_eq_true_eq]
  constructor
  · rintro ⟨⟨_, _⟩, ⟨hmem, rfl⟩, rfl⟩
    exact hmem
  · intro hmem
    exact ⟨_, ⟨hmem, rfl⟩, rfl⟩

theorem guardsOf_cons :
    guardsOf f (a :: as) = if a.formula = f then a.guard :: guardsOf f as else guardsOf f as := by
  by_cases h : a.formula = f <;> simp [guardsOf, h]

theorem guardsOf_eq_nil (h : ∀ a ∈ as, a.formula ≠ f) : guardsOf f as = [] := by
  simpa [guardsOf, List.filter_eq_nil_iff] using h

def Increasing (as : Alternatives) : Prop := as.Pairwise fun a b => order a.formula b.formula = .lt

def Grouped (as : Alternatives) : Prop := as.Pairwise fun a b => (order a.formula b.formula).isLE

theorem Grouped.order_eq_lt (h : Grouped (a :: b :: bs)) (hne : a.formula ≠ b.formula) :
    ∀ x ∈ b :: bs, order a.formula x.formula = .lt := by
  obtain ⟨ha, hb⟩ := List.pairwise_cons.1 h
  have hle := ha b List.mem_cons_self
  have hab : order a.formula b.formula = .lt := by
    cases hord : order a.formula b.formula with
    | lt => rfl
    | eq => exact absurd (Formula.eq_of_order _ _ hord) hne
    | gt =>
      rw [hord] at hle
      cases hle
  refine List.forall_mem_cons.2 ⟨hab, fun x hx => ?_⟩
  exact Std.TransCmp.lt_of_lt_of_isLE hab ((List.pairwise_cons.1 hb).1 x hx)

theorem Grouped.join (h : Grouped (a :: b :: bs)) (g : Formula) : Grouped (⟨a.formula, g⟩ :: bs) := by
  obtain ⟨ha, hb⟩ := List.pairwise_cons.1 h
  exact List.pairwise_cons.2 ⟨fun x hx => ha x (List.mem_cons_of_mem b hx), (List.pairwise_cons.1 hb).2⟩

/-- Each formula of the first list stands once in the second, under the disjunction of all its guards. -/
structure Joined (as out : Alternatives) : Prop where
  increasing : Increasing out
  mem_iff : ∀ x, x ∈ out ↔ (∃ a ∈ as, a.formula = x.formula) ∧ x.guard = .any (guardsOf x.formula as)

theorem Joined.eq {out out' : Alternatives} (h : Joined as out) (h' : Joined as out') : out = out' := by
  refine eq_of_pairwise_of_mem_iff (fun a => Formula.order_irrefl a.formula)
    (fun _ _ _ => Std.TransCmp.lt_trans) h.increasing h'.increasing fun x => ?_
  rw [h.mem_iff, h'.mem_iff]

theorem Joined.congr {out : Alternatives} (hmem : ∀ a, a ∈ as ↔ a ∈ bs) (h : Joined as out) : Joined bs out := by
  refine ⟨h.increasing, fun x => ?_⟩
  have hguards : Formula.any (guardsOf x.formula as) = .any (guardsOf x.formula bs) :=
    junction_congr_mem fun g => by rw [mem_guardsOf, mem_guardsOf, hmem]
  simp [h.mem_iff, hmem, hguards]

theorem joined_nil : Joined [] [] := ⟨.nil, by simp⟩

theorem Joined.cons {out : Alternatives} (h : Joined as out) (ha : Normal a.guard)
    (hlt : ∀ x ∈ as, order a.formula x.formula = .lt) : Joined (a :: as) (a :: out) := by
  have hout : ∀ x ∈ out, order a.formula x.formula = .lt := by
    intro x hx
    obtain ⟨⟨b, hb, hformula⟩, -⟩ := (h.mem_iff x).1 hx
    exact hformula ▸ hlt b hb
  refine ⟨List.pairwise_cons.2 ⟨hout, h.increasing⟩, fun x => ?_⟩
  by_cases hformula : a.formula = x.formula
  · rw [hformula] at hlt hout
    have hothers : guardsOf x.formula as = [] :=
      guardsOf_eq_nil fun b hb heq => Formula.order_irrefl x.formula (heq ▸ hlt b hb)
    have hguard : Formula.any (guardsOf x.formula (a :: as)) = a.guard := by
      rw [guardsOf_cons, if_pos hformula, hothers]
      exact junction_singleton .any ha
    have hnot : x ∉ out := fun hx => Formula.order_irrefl x.formula (hout x hx)
    have heq : x = a ↔ x.guard = a.guard := by
      obtain ⟨f, g⟩ := x
      obtain ⟨f', g'⟩ := a
      simp_all
    simp [hguard, hnot, heq, hformula]
  · have hne : x ≠ a := fun heq => hformula (heq ▸ rfl)
    simp [guardsOf_cons, hne, hformula, h.mem_iff]

theorem Joined.of_or {out : Alternatives} (hformula : a.formula = b.formula) (ha : Normal a.guard)
    (hb : Normal b.guard) (h : Joined (⟨a.formula, a.guard.or b.guard⟩ :: bs) out) :
    Joined (a :: b :: bs) out := by
  have hspread (gs : List Formula) : Formula.any (a.guard.or b.guard :: gs) = .any (a.guard :: b.guard :: gs) :=
    junction_junction_cons (List.forall_mem_cons.2 ⟨ha, List.forall_mem_singleton.2 hb⟩) gs
  refine ⟨h.increasing, fun x => ?_⟩
  rw [h.mem_iff]
  by_cases hx : a.formula = x.formula
  · have hx' : b.formula = x.formula := hformula ▸ hx
    simp [guardsOf_cons, hx, hx', hspread]
  · have hx' : b.formula ≠ x.formula := hformula ▸ hx
    simp [guardsOf_cons, hx, hx']

theorem joined_mergeFrom (hgrouped : Grouped (a :: as)) (hnormal : ∀ x ∈ a :: as, Normal x.guard) :
    Joined (a :: as) (mergeFrom a as) := by
  fun_induction mergeFrom a as with
  | case1 a => exact joined_nil.cons (hnormal a List.mem_cons_self) (List.forall_mem_nil _)
  | case2 a b bs heq ih =>
    obtain ⟨ha, hnormal⟩ := List.forall_mem_cons.1 hnormal
    obtain ⟨hb, hbs⟩ := List.forall_mem_cons.1 hnormal
    have hor : Normal (a.guard.or b.guard) := Formula.normal_junction _ (by simp [ha, hb])
    exact .of_or heq ha hb (ih (hgrouped.join _) (List.forall_mem_cons.2 ⟨hor, hbs⟩))
  | case3 a b bs hne ih =>
    obtain ⟨ha, hnormal⟩ := List.forall_mem_cons.1 hnormal
    exact (ih (List.pairwise_cons.1 hgrouped).2 hnormal).cons ha (hgrouped.order_eq_lt hne)

theorem joined_merge (hgrouped : Grouped as) (hnormal : ∀ x ∈ as, Normal x.guard) : Joined as (merge as) := by
  cases as with
  | nil => exact joined_nil
  | cons a as => exact joined_mergeFrom hgrouped hnormal

theorem grouped_mergeSort (as : Alternatives) : Grouped (as.mergeSort Alternative.atMost) := by
  refine (pairwise_mergeSort_of_transCmp Alternative.atMost_iff as).imp fun {a b} hle => ?_
  unfold Alternative.order at hle
  cases hord : order a.formula b.formula with
  | gt =>
    rw [hord] at hle
    cases hle
  | _ => rfl

theorem joined_combine (hnormal : ∀ a ∈ as, Normal a.guard) : Joined as (combine as) := by
  have hmem : ∀ a, a ∈ as.mergeSort Alternative.atMost ↔ a ∈ as := fun a => List.mem_mergeSort
  exact (joined_merge (grouped_mergeSort as) fun a ha => hnormal a ((hmem a).1 ha)).congr hmem

theorem joined_self (h : Increasing as) (hnormal : ∀ a ∈ as, Normal a.guard) : Joined as as := by
  induction as with
  | nil => exact joined_nil
  | cons a as ih =>
    obtain ⟨hlt, has⟩ := List.pairwise_cons.1 h
    obtain ⟨ha, hnormal⟩ := List.forall_mem_cons.1 hnormal
    exact (ih has hnormal).cons ha hlt

theorem Joined.mem_formulas {out : Alternatives} (h : Joined as out) :
    f ∈ out.map (·.formula) ↔ f ∈ as.map (·.formula) := by
  rw [List.mem_map, List.mem_map]
  constructor
  · rintro ⟨x, hx, rfl⟩
    exact ((h.mem_iff x).1 hx).1
  · intro hf
    exact ⟨⟨f, .any (guardsOf f as)⟩, (h.mem_iff _).2 ⟨hf, rfl⟩, rfl⟩

theorem Joined.nodup {out : Alternatives} (h : Joined as out) : (out.map (·.formula)).Nodup := by
  refine List.pairwise_map.2 (h.increasing.imp fun {a b} hlt heq => ?_)
  rw [heq] at hlt
  exact Formula.order_irrefl b.formula hlt

/-- Joining guards changes nothing about when a formula has to be proved. -/
theorem Joined.holds_iff {out : Alternatives} (h : Joined as out) (value : Expr → Int) :
    (∃ x ∈ out, x.formula = f ∧ x.guard.holds value = true) ↔
      ∃ a ∈ as, a.formula = f ∧ a.guard.holds value = true := by
  constructor
  · rintro ⟨x, hx, rfl, hholds⟩
    rw [((h.mem_iff x).1 hx).2, Formula.holds_any, List.any_eq_true] at hholds
    obtain ⟨g, hg, hholds⟩ := hholds
    exact ⟨_, mem_guardsOf.1 hg, rfl, hholds⟩
  · rintro ⟨a, ha, rfl, hholds⟩
    refine ⟨⟨a.formula, .any (guardsOf a.formula as)⟩, (h.mem_iff _).2 ⟨⟨a, ha, rfl⟩, rfl⟩, rfl, ?_⟩
    rw [Formula.holds_any, List.any_eq_true]
    exact ⟨a.guard, mem_guardsOf.2 ha, hholds⟩

theorem Joined.normal {out : Alternatives} (h : Joined as out) (hnormal : ∀ a ∈ as, Normal a.guard) :
    ∀ x ∈ out, Normal x.guard := by
  intro x hx
  rw [((h.mem_iff x).1 hx).2]
  exact Formula.normal_junction .any fun g hg => hnormal _ (mem_guardsOf.1 hg)

/-- Combining alternatives gives each formula once, in increasing order and under the disjunction of all its guards. The
result depends on the set of the alternatives only, stays as it is when combined again, and whatever is true, the same
formulas have a guard that holds. -/
theorem combine_canonical (hnormal : ∀ a ∈ as, Normal a.guard) :
    Increasing (combine as) ∧
    (∀ f, ((combine as).map (·.formula)).count f = if f ∈ as.map (·.formula) then 1 else 0) ∧
    (∀ x ∈ combine as, ∀ gs, gs.Perm (guardsOf x.formula as) → x.guard = .any gs) ∧
    (∀ bs : Alternatives, (∀ a, a ∈ bs ↔ a ∈ as) → combine bs = combine as) ∧
    combine (combine as) = combine as ∧
    ∀ (value : Expr → Int) (f : Formula), (∃ x ∈ combine as, x.formula = f ∧ x.guard.holds value = true) ↔
      ∃ a ∈ as, a.formula = f ∧ a.guard.holds value = true := by
  have joined := joined_combine hnormal
  have hout := joined.normal hnormal
  refine ⟨joined.increasing, fun f => ?_, fun x hx gs hgs => ?_, fun bs hbs => ?_, ?_, fun value f => ?_⟩
  · rw [joined.nodup.count]
    simp only [joined.mem_formulas]
  · rw [((joined.mem_iff x).1 hx).2]
    exact junction_congr_mem fun g => hgs.mem_iff.symm
  · have hnormal' : ∀ a ∈ bs, Normal a.guard := fun a ha => hnormal a ((hbs a).1 ha)
    exact ((joined_combine hnormal').congr hbs).eq joined
  · exact (joined_combine hout).eq (joined_self joined.increasing hout)
  · exact joined.holds_iff value

theorem combine_canonical_of_repeated :
    ∃ (x y : Formula) (as : Alternatives), x ≠ y ∧ as = [⟨y, x⟩, ⟨x, y⟩, ⟨y, y⟩, ⟨x, y⟩] ∧
      (∀ a ∈ as, Normal a.guard) ∧ Increasing (combine as) ∧
      ((combine as).map (·.formula)).count x = 1 ∧ ((combine as).map (·.formula)).count y = 1 ∧
      (∀ a ∈ combine as, a.formula = y → a.guard = .any [y, x]) ∧
      combine [⟨x, y⟩, ⟨y, y⟩, ⟨y, x⟩] = combine as ∧ combine (combine as) = combine as := by
  obtain ⟨x, y, hx, hy, hne⟩ := Formula.exists_tests
  have hnormal : ∀ a ∈ ([⟨y, x⟩, ⟨x, y⟩, ⟨y, y⟩, ⟨x, y⟩] : Alternatives), Normal a.guard := by
    simp [hx.obtainable.normal, hy.obtainable.normal]
  obtain ⟨hincreasing, hcount, hguards, hset, hagain, -⟩ := combine_canonical hnormal
  have hpair : guardsOf y ([⟨y, x⟩, ⟨x, y⟩, ⟨y, y⟩, ⟨x, y⟩] : Alternatives) = [x, y] := by simp [guardsOf, hne]
  refine ⟨x, y, _, hne, rfl, hnormal, hincreasing, by simp [hcount], by simp [hcount], fun a ha hformula => ?_,
    hset _ fun a => ?_, hagain⟩
  · refine hguards a ha [y, x] ?_
    rw [hformula, hpair]
    exact .swap x y []
  · simp only [List.mem_cons, List.not_mem_nil, or_false]
    tauto

end Alternatives
end Retrace
