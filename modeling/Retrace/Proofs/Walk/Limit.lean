import Retrace.Proofs.Walk.Completion
import Retrace.Proofs.Walk.Reach

/-!
The limit on alternatives. No expansion has more of them than its limit allows, whatever the expander does. For an
expander that is a function, and takes nothing away from what was found, a limit that no node and no formula on the
way passes makes no difference. What is found without a limit are the alternatives of all combinations of
alternatives of the children, each once.
-/

set_option autoImplicit false

namespace Retrace.Walk

open Guarantee (sure sure_iff exists_of_sure_id)

section Bounds

variable {m : Type → Type} [Monad m] [Returning m] {scope : Scope} {limit : Nat} {f : Expander m}

theorem returned_any {α : Type} {p : α → Prop} (h : ∀ a, p a) (x : ExceptT Fault m α) :
    ((Guarantee.returned m).throwing fun _ => True).Gives x p := by
  intro r _
  cases r with
  | ok a => exact h a
  | error fault => trivial

theorem length_le_of_overLimit {β : Type} {r : List β} (hlimit : 1 ≤ limit) (h : overLimit limit r = false) :
    r.length ≤ limit := by
  simp only [overLimit, Bool.and_eq_false_iff, bne_eq_false_iff_eq, decide_eq_false_iff_not] at h
  omega

theorem length_withinLimit_le {β : Type} (hlimit : 1 ≤ limit) (node : β) (r : List β) :
    (withinLimit limit node r).length ≤ limit := by
  unfold withinLimit
  split
  · exact hlimit
  · rename_i h
    exact length_le_of_overLimit hlimit (by simpa using h)

theorem collect_length_le {α β : Type} (hlimit : 1 ≤ limit) (node : β)
    (g : List β → List α → ExceptT Fault m (List β)) (lists : List (List α)) :
    ((Guarantee.returned m).throwing fun _ => True).Gives (collect limit node g lists) fun r => r.length ≤ limit :=
  collect_ends _ (Nat.zero_le _) hlimit fun _ _ _ _ => returned_any (fun _ => length_le_of_overLimit hlimit) _

theorem expand_length_le (hlimit : 1 ≤ limit) (e : Expr) :
    ((Guarantee.returned m).throwing fun _ => True).Gives (expand scope limit f e) fun r => r.length ≤ limit := by
  let G := (Guarantee.returned m).throwing fun _ : Fault => True
  rw [expand]
  split
  · exact G.bind (returned_any (p := fun _ => True) (fun _ => trivial) _) fun r _ =>
      G.pure (length_withinLimit_le hlimit e r)
  refine G.bind (returned_any (p := fun _ => True) (fun _ => trivial) _) fun lists _ => ?_
  split
  · exact G.pure (Nat.zero_le _)
  split
  · exact G.pure hlimit
  · exact collect_length_le hlimit e _ lists

theorem expandOver_length_le (hlimit : 1 ≤ limit) (b : Formula) (lists : List (List Formula)) :
    ((Guarantee.returned m).throwing fun _ => True).Gives (expandOver limit b lists : ExceptT Fault m _)
      fun r => r.length ≤ limit := by
  unfold expandOver
  split
  · exact Guarantee.pure _ (Nat.zero_le _)
  · exact collect_length_le hlimit b _ lists

theorem expandFormula_length_le (hlimit : 1 ≤ limit) (b : Formula) :
    ((Guarantee.returned m).throwing fun _ => True).Gives (expandFormula scope limit f b)
      fun r => r.length ≤ limit := by
  let G := (Guarantee.returned m).throwing fun _ : Fault => True
  by_cases htest : ∃ e, b.clause = .nonzero e
  · obtain ⟨e, he⟩ := htest
    obtain ⟨d, c⟩ := b
    cases he
    rw [expandFormula]
    exact G.bind (returned_any (p := fun _ => True) (fun _ => trivial) _) fun values _ =>
      G.pure (length_withinLimit_le hlimit _ _)
  · rw [expandFormula_eq (not_exists.1 htest)]
    exact G.bind (returned_any (p := fun _ => True) (fun _ => trivial) _) fun lists _ =>
      expandOver_length_le hlimit b lists

end Bounds

section Results

variable {S : Type} {f : Expander (StateM S)}

def Expander.Total (f : Expander (StateM S)) : Prop :=
  ∀ (value : Expr) (found : List Expr) (s : S), ∃ r, ((f value found).run.run s).1 = .ok r

theorem stepExpands_any {m : Type → Type} [Monad m] {G : Guarantee m} {f : Expander m} (scope : Scope)
    (hf : ∀ value found, (G.throwing fun _ => False).Gives (f value found) fun _ => True) [LawfulMonad m] :
    StepExpands G (fun _ => False) scope f Expr.Obtainable fun _ _ => True := by
  constructor
  case child => exact fun e he c hc => he.part (Expr.mem_parts_of_mem_children hc)
  case self => exact fun _ _ => trivial
  case rebuilt =>
    intro e cs he hcs
    obtain ⟨r, hr⟩ := Expr.exists_rebuild?_any (fun _ => he.sound) hcs.length_eq.symm
    rw [hr]
    exact fun _ _ _ => trivial
  case answered =>
    intro e cs value found _ _ _ _ _
    exact (G.throwing _).imp (hf value found) fun _ _ _ _ => trivial

theorem Expander.Total.expand (hf : f.Total) {scope : Scope} {limit : Nat} {e : Expr} (he : e.Obtainable) :
    (sure (StateM S)).Gives (expand scope limit f e) fun r => ∀ e' ∈ r, True := by
  refine expand_gives (stepExpands_any scope fun value found => sure_iff.2 fun s => ?_) e he
  obtain ⟨r, hr⟩ := hf value found s
  exact ⟨r, hr, trivial⟩

end Results

section Choices

variable {α β γ σ : Type} {n : Type → Type} [Monad n] [LawfulMonad n]

def choices : List (List α) → List (List α)
  | [] => [[]]
  | as :: rest => as.flatMap fun a => (choices rest).map (a :: ·)

theorem mem_choices_iff {lists : List (List α)} {choice : List α} :
    choice ∈ choices lists ↔ List.Forall₂ (· ∈ ·) choice lists := by
  induction lists generalizing choice with
  | nil => simp [choices]
  | cons as rest ih => simp [choices, List.forall₂_cons_right_iff, ih, eq_comm]

theorem choice_iff {R : α → β → Prop} {as : List α} {lists : List (List β)}
    (h : List.Forall₂ (fun a bs => ∀ b, b ∈ bs ↔ R a b) as lists) {choice : List β} :
    List.Forall₂ (· ∈ ·) choice lists ↔ List.Forall₂ R as choice := by
  induction h generalizing choice with
  | nil => simp
  | cons first _ ih =>
    rw [List.forall₂_cons_right_iff, List.forall₂_cons_left_iff]
    simp only [first, ih]

theorem choices_eq_nil {lists : List (List α)} (h : lists.any List.isEmpty = true) : choices lists = [] := by
  induction lists with
  | nil => cases h
  | cons as rest ih =>
    rw [choices]
    rcases Bool.or_eq_true_iff.1 h with hempty | hrest
    · rw [List.isEmpty_iff.1 hempty, List.flatMap_nil]
    · simp [ih hrest]

theorem foldChoices_eq (g : σ → List α → n σ) (lists : List (List α)) (chosen : List α) (s : σ) :
    foldChoices g lists chosen s = (choices lists).foldlM (fun s choice => g s (chosen ++ choice)) s := by
  induction lists generalizing chosen s with
  | nil => simp [foldChoices, choices]
  | cons as rest ih =>
    rw [foldChoices, choices]
    induction as generalizing s with
    | nil => rfl
    | cons a as ihs =>
      rw [List.foldlM_cons, List.flatMap_cons, List.foldlM_append, List.foldlM_map, ih]
      simp only [List.append_assoc, List.singleton_append, ihs]

/-- Nothing is given up where there is no limit, or where results only grow in number and end within it. -/
def Unlimited (limit : Nat) (g : List β → γ → List β) (found : List β) (cs : List γ) : Prop :=
  limit = 0 ∨ (∀ found c, found.length ≤ (g found c).length) ∧ (cs.foldl g found).length ≤ limit

theorem length_le_foldl {g : List β → γ → List β} (hg : ∀ found c, found.length ≤ (g found c).length) (cs : List γ)
    (found : List β) : found.length ≤ (cs.foldl g found).length := by
  induction cs generalizing found with
  | nil => exact Nat.le_refl _
  | cons c cs ih => exact Nat.le_trans (hg found c) (ih (g found c))

theorem Unlimited.overLimit_eq {limit : Nat} {g : List β → γ → List β} {found : List β} {c : γ} {cs : List γ}
    (h : Unlimited limit g found (c :: cs)) : overLimit limit (g found c) = false := by
  rcases h with rfl | ⟨hg, hlength⟩
  · rfl
  · have hgrown := length_le_foldl hg cs (g found c)
    rw [List.foldl_cons] at hlength
    simp only [overLimit, Bool.and_eq_false_iff, bne_eq_false_iff_eq, decide_eq_false_iff_not]
    omega

theorem run_foldlM_eq {limit : Nat} {node : β} {f : List β → γ → n (List β)} {g : List β → γ → List β} (cs : List γ)
    (hf : ∀ found, ∀ c ∈ cs, f found c = pure (g found c)) {found : List β} (h : Unlimited limit g found cs) :
    (cs.foldlM (fun found c => (do
      let found ← ExceptT.lift (f found c)
      if overLimit limit found then throw [node] else pure found : ExceptT (List β) n (List β))) found).run =
      pure (.ok (cs.foldl g found)) := by
  induction cs generalizing found with
  | nil => rfl
  | cons c cs ih =>
    have hrest := ih (fun found c hc => hf found c (List.mem_cons_of_mem _ hc)) h
    rw [List.foldlM_cons, hf found c List.mem_cons_self]
    simp [h.overLimit_eq, hrest]

theorem collect_eq {limit : Nat} {node : β} {f : List β → List α → n (List β)} {g : List β → List α → List β}
    {lists : List (List α)} (hf : ∀ found, ∀ choice ∈ choices lists, f found choice = pure (g found choice))
    (h : Unlimited limit g [] (choices lists)) :
    collect limit node f lists = pure ((choices lists).foldl g []) := by
  unfold collect
  simp only [foldChoices_eq, List.nil_append]
  rw [run_foldlM_eq (choices lists) hf h, pure_bind]

end Choices

section Functions

variable {scope : Scope} {limit : Nat} {g : Expr → List Expr → List Expr} {e : Expr} {lists : List (List Expr)}

def Grows (g : Expr → List Expr → List Expr) : Prop := ∀ value found, found.length ≤ (g value found).length

def combinations {α : Type} (lists : List (List α)) : Nat := (lists.map List.length).foldl (· * ·) 1

def enlarged (scope : Scope) (g : Expr → List Expr → List Expr) (e : Expr) (found choice : List Expr) : List Expr :=
  match e.rebuild? choice with
  | .ok (some value) => if scope.includes e then g value found else addDistinct found value
  | _ => found

theorem length_le_addDistinct {α : Type} [DecidableEq α] (found : List α) (a : α) :
    found.length ≤ (addDistinct found a).length := by
  unfold addDistinct
  split
  · exact Nat.le_refl _
  · simp

theorem Grows.enlarged (hg : Grows g) (scope : Scope) (e : Expr) (found choice : List Expr) :
    found.length ≤ (enlarged scope g e found choice).length := by
  unfold Walk.enlarged
  split
  · split
    · exact hg _ found
    · exact length_le_addDistinct found _
  · exact Nat.le_refl _

theorem grows_addAll (alternatives : Expr → List Expr) : Grows (addAll alternatives) := fun value found =>
  length_le_foldl length_le_addDistinct (alternatives value) found

theorem exists_mapM {n : Type → Type} [Monad n] [LawfulMonad n] {α β : Type} {f : α → n β} (as : List α)
    (h : ∀ a ∈ as, ∃ b, f a = pure b) :
    ∃ bs, as.mapM f = pure bs ∧ List.Forall₂ (fun a b => f a = pure b) as bs := by
  induction as with
  | nil => exact ⟨[], List.mapM_nil, .nil⟩
  | cons a as ih =>
    obtain ⟨⟨b, hb⟩, has⟩ := List.forall_mem_cons.1 h
    obtain ⟨bs, hbs, hrel⟩ := ih has
    exact ⟨b :: bs, by simp [List.mapM_cons, hb, hbs], .cons hb hrel⟩

theorem forall₂_imp_mem {α β : Type} {R R' : α → β → Prop} {as : List α} {bs : List β} (h : List.Forall₂ R as bs)
    (himp : ∀ a ∈ as, ∀ b, R a b → R' a b) : List.Forall₂ R' as bs :=
  ((List.forall₂_and_left as bs).2 ⟨fun _ ha => ha, h⟩).imp fun a b hab => himp a hab.1 b hab.2

theorem mapM_eq_of_forall₂ {n : Type → Type} [Monad n] [LawfulMonad n] {α β : Type} {f : α → n β} {as : List α}
    {bs : List β} (h : List.Forall₂ (fun a b => f a = pure b) as bs) : as.mapM f = pure bs := by
  induction h with
  | nil => exact List.mapM_nil
  | cons first _ ih => simp [List.mapM_cons, first, ih]

theorem enlarged_of_rebuild? {choice : List Expr} {value : Expr} (h : e.rebuild? choice = .ok (some value))
    (found : List Expr) : enlarged scope g e found choice =
      if scope.includes e then g value found else addDistinct found value := by
  rw [enlarged, h]

theorem expand_eq (he : e.Obtainable)
    (hlists : List.Forall₂ (fun c r => expand scope limit (pureExpander g) c = pure r) e.children lists)
    (hcount : limit = 0 ∨ combinations lists ≤ limit)
    (hlimit : Unlimited limit (enlarged scope g e) [] (choices lists)) :
    expand scope limit (pureExpander g) e = pure ((choices lists).foldl (enlarged scope g e) []) := by
  have accept (value : Expr) (found : List Expr) :
      (if scope.includes e then pureExpander g value found else pure (addDistinct found value)) =
        pure (if scope.includes e then g value found else addDistinct found value) := by
    split <;> rfl
  rw [expand]
  simp only [accept]
  split
  · rename_i hleaf
    have hleaf := List.isEmpty_iff.1 hleaf
    rw [hleaf] at hlists
    cases hlists
    have hself : enlarged scope g e [] [] = _ := enlarged_of_rebuild? (Expr.rebuild?_nil hleaf) []
    have hwithin := hlimit.overLimit_eq
    rw [hself] at hwithin
    simp [choices, hself, withinLimit, hwithin]
  rw [attach_mapM (expand scope limit (pureExpander g)), mapM_eq_of_forall₂ hlists, pure_bind]
  split
  · rename_i hempty
    rw [choices_eq_nil hempty]
    rfl
  split
  · rename_i hpassed
    have hpassed : limit ≠ 0 ∧ limit < combinations lists := by simpa [combinations] using hpassed
    omega
  · refine collect_eq (fun found choice hchoice => ?_) hlimit
    have hlength : choice.length = e.children.length :=
      (mem_choices_iff.1 hchoice).length_eq.trans hlists.length_eq.symm
    obtain ⟨r, hr⟩ := Expr.exists_rebuild?_any (fun _ => he.sound) hlength
    rw [hr, lift_ok, pure_bind]
    cases r with
    | none => rw [enlarged, hr]
    | some value => rw [enlarged_of_rebuild? hr]

/-- The limit is not passed by what is found for a node without one, nor by the combinations of what is found for its
children. -/
structure Fits (scope : Scope) (limit : Nat) (g : Expr → List Expr → List Expr) (e : Expr) : Prop where
  combinations : ∀ lists, (e.children.mapM (expand scope 0 (pureExpander g))).run = .ok lists →
    combinations lists ≤ limit
  alternatives : ∀ r, (expand scope 0 (pureExpander g) e).run = .ok r → r.length ≤ limit

theorem exists_expand (scope : Scope) (limit : Nat) (g : Expr → List Expr → List Expr) (he : e.Obtainable) :
    ∃ r, expand scope limit (pureExpander g) e = pure r := by
  have step : StepExpands (.returned Id) (fun _ => False) scope (pureExpander g) Expr.Obtainable fun _ _ => True :=
    stepExpands_any scope fun _ _ => (sure Id).pure trivial
  obtain ⟨r, hr, -⟩ := exists_of_sure_id (x := expand scope limit (pureExpander g) e) (expand_gives step e he)
  exact ⟨r, hr⟩

theorem exists_expand_zero (scope : Scope) (g : Expr → List Expr → List Expr) (he : e.Obtainable) :
    ∃ lists, List.Forall₂ (fun c r => expand scope 0 (pureExpander g) c = pure r) e.children lists ∧
      expand scope 0 (pureExpander g) e = pure ((choices lists).foldl (enlarged scope g e) []) := by
  obtain ⟨lists, -, hlists⟩ := exists_mapM e.children fun c hc =>
    exists_expand scope 0 g (he.part (Expr.mem_parts_of_mem_children hc))
  exact ⟨lists, hlists, expand_eq he hlists (.inl rfl) (.inl rfl)⟩

theorem expand_eq_of_fits (hg : Grows g) (he : e.Obtainable) (hfits : ∀ a, e.Reaches a → Fits scope limit g a) :
    expand scope limit (pureExpander g) e = expand scope 0 (pureExpander g) e := by
  induction e using Expr.inductionOnParts with
  | step e ih =>
    obtain ⟨lists, hlists, hzero⟩ := exists_expand_zero scope g he
    have hsame : List.Forall₂ (fun c r => expand scope limit (pureExpander g) c = pure r) e.children lists := by
      refine forall₂_imp_mem hlists fun c hc r hr => ?_
      rw [← hr]
      exact ih c (Expr.mem_parts_of_mem_children hc) (he.part (Expr.mem_parts_of_mem_children hc))
        fun a ha => hfits a (.child hc ha)
    have hself := hfits e (.refl e)
    have hcount := hself.combinations lists (mapM_eq_of_forall₂ hlists)
    have hlength := hself.alternatives _ hzero
    rw [hzero, expand_eq he hsame (.inr hcount) (.inr ⟨hg.enlarged scope e, hlength⟩)]

end Functions

section Alternatives

-- What an expander offers is added where it is not there yet.

variable {α β : Type} [DecidableEq β] {scope : Scope} {alternatives : Expr → List Expr} {e : Expr}

theorem nodup_foldl_addDistinct (bs : List β) {found : List β} (hfound : found.Nodup) :
    (bs.foldl addDistinct found).Nodup := by
  induction bs generalizing found with
  | nil => exact hfound
  | cons b bs ih =>
    refine ih ?_
    unfold addDistinct
    split
    · exact hfound
    · rename_i hnew
      refine List.nodup_append.2 ⟨hfound, List.pairwise_singleton _ b, fun a ha c hc heq => ?_⟩
      rw [heq, List.mem_singleton.1 hc] at ha
      exact hnew ha

def gathered (offers : List α → List β) (lists : List (List α)) : List β :=
  (choices lists).foldl (fun found choice => (offers choice).foldl addDistinct found) []

theorem gathered_eq (offers : List α → List β) (lists : List (List α)) :
    gathered offers lists = ((choices lists).flatMap offers).foldl addDistinct [] :=
  List.foldl_flatMap.symm

theorem nodup_gathered (offers : List α → List β) (lists : List (List α)) : (gathered offers lists).Nodup := by
  rw [gathered_eq]
  exact nodup_foldl_addDistinct _ List.nodup_nil

theorem mem_gathered_iff {γ : Type} {R : γ → α → Prop} {cs : List γ} {lists : List (List α)}
    (h : List.Forall₂ (fun c as => ∀ a, a ∈ as ↔ R c a) cs lists) (offers : List α → List β) {b : β} :
    b ∈ gathered offers lists ↔ ∃ choice, List.Forall₂ R cs choice ∧ b ∈ offers choice := by
  rw [gathered_eq, mem_foldl_addDistinct]
  simp [mem_choices_iff, choice_iff h]

def offered (scope : Scope) (alternatives : Expr → List Expr) (e : Expr) (choice : List Expr) : List Expr :=
  match e.rebuild? choice with
  | .ok (some value) => if scope.includes e then alternatives value else [value]
  | _ => []

theorem enlarged_addAll : enlarged scope (addAll alternatives) e = fun found choice =>
    (offered scope alternatives e choice).foldl addDistinct found := by
  funext found choice
  unfold enlarged offered
  split
  · split <;> rfl
  · rfl

/-- An alternative of a node: one that is offered for it, rebuilt over some alternatives of its children. -/
inductive IsAlternative (scope : Scope) (alternatives : Expr → List Expr) : Expr → Expr → Prop
  | of {e e' : Expr} {choice : List Expr}
    (children : List.Forall₂ (IsAlternative scope alternatives) e.children choice)
    (mem : e' ∈ offered scope alternatives e choice) : IsAlternative scope alternatives e e'

theorem exists_alternatives (he : e.Obtainable) :
    ∃ r, expand scope 0 (pureExpander (addAll alternatives)) e = pure r ∧ r.Nodup ∧
      ∀ e', e' ∈ r ↔ IsAlternative scope alternatives e e' := by
  induction e using Expr.inductionOnParts with
  | step e ih =>
    obtain ⟨lists, hlists, hzero⟩ := exists_expand_zero scope (addAll alternatives) he
    have hchildren : List.Forall₂ (fun c r => ∀ e', e' ∈ r ↔ IsAlternative scope alternatives c e')
        e.children lists := by
      refine forall₂_imp_mem hlists fun c hc r hr => ?_
      have hpart := Expr.mem_parts_of_mem_children hc
      obtain ⟨r', hr', -, hmem⟩ := ih c hpart (he.part hpart)
      cases hr.symm.trans hr'
      exact hmem
    rw [enlarged_addAll] at hzero
    refine ⟨_, hzero, nodup_gathered _ lists, fun e' => (mem_gathered_iff hchildren _).trans ?_⟩
    constructor
    · intro h
      obtain ⟨choice, hchoice, hmem⟩ := h
      exact .of hchoice hmem
    · intro h
      obtain ⟨hchoice, hmem⟩ := h
      exact ⟨_, hchoice, hmem⟩

end Alternatives

section Formulas

variable {scope : Scope} {limit : Nat} {g : Expr → List Expr → List Expr} {alternatives : Expr → List Expr}
  {b : Formula}

def layered (b : Formula) (choice : List Formula) : List Formula := (b.withOperands choice).toOption.toList

theorem expandOver_eq {lists : List (List Formula)} (hlength : lists.length = b.operands.length)
    (hlimit : Unlimited limit (fun found choice => (layered b choice).foldl addDistinct found) [] (choices lists)) :
    (expandOver limit b lists : ExceptT Fault Id _) = pure (gathered (layered b) lists) := by
  unfold expandOver
  split
  · rename_i hempty
    rw [gathered, choices_eq_nil hempty]
    rfl
  · refine collect_eq (fun found choice hchoice => ?_) hlimit
    have hover : choice.length = b.operands.length := (mem_choices_iff.1 hchoice).length_eq.trans hlength
    obtain ⟨b', hb'⟩ := Formula.exists_withOperands hover
    rw [layered, hb', lift_ok]
    rfl

theorem expandFormula_of_test {e : Expr} {values : List Expr} (he : b.clause = .nonzero e)
    (hvalues : expand scope limit (pureExpander g) e = pure values) :
    expandFormula scope limit (pureExpander g) b =
      pure (withinLimit limit b ((values.map Formula.nonzero).foldl addDistinct [])) := by
  obtain ⟨d, c⟩ := b
  cases he
  rw [expandFormula, hvalues, pure_bind, List.foldl_map]

theorem expandFormula_eq_gathered {lists : List (List Formula)} (htest : ∀ e, b.clause ≠ .nonzero e)
    (hlists : List.Forall₂ (fun b r => expandFormula scope limit (pureExpander g) b = pure r) b.operands lists)
    (hlimit : Unlimited limit (fun found choice => (layered b choice).foldl addDistinct found) [] (choices lists)) :
    expandFormula scope limit (pureExpander g) b = pure (gathered (layered b) lists) := by
  rw [expandFormula_eq htest, mapM_eq_of_forall₂ hlists, pure_bind, expandOver_eq hlists.length_eq.symm hlimit]

theorem exists_expandFormula (scope : Scope) (limit : Nat) (g : Expr → List Expr → List Expr)
    (hb : ∀ e ∈ b.terms, e.Obtainable) : ∃ r, expandFormula scope limit (pureExpander g) b = pure r := by
  have step : StepExpands (.returned Id) (fun _ => False) scope (pureExpander g) Expr.Obtainable fun _ _ => True :=
    stepExpands_any scope fun _ _ => (sure Id).pure trivial
  obtain ⟨r, hr, -⟩ := exists_of_sure_id (x := expandFormula scope limit (pureExpander g) b)
    (expandFormula_gives layerExpandsTo_obtainable (fun e => expand_gives step e) b hb)
  exact ⟨r, hr⟩

theorem exists_gathered (scope : Scope) (g : Expr → List Expr → List Expr) (hb : ∀ e ∈ b.terms, e.Obtainable)
    (htest : ∀ e, b.clause ≠ .nonzero e) :
    ∃ lists, List.Forall₂ (fun b r => expandFormula scope 0 (pureExpander g) b = pure r) b.operands lists ∧
      expandFormula scope 0 (pureExpander g) b = pure (gathered (layered b) lists) := by
  obtain ⟨lists, -, hlists⟩ := exists_mapM b.operands fun b' hb' =>
    exists_expandFormula scope 0 g fun e he => hb e (Formula.mem_terms_of_mem_operands hb' he)
  exact ⟨lists, hlists, expandFormula_eq_gathered htest hlists (.inl rfl)⟩

structure FitsFormula (scope : Scope) (limit : Nat) (g : Expr → List Expr → List Expr) (b : Formula) : Prop where
  nodes : ∀ e ∈ b.terms, ∀ a, e.Reaches a → Fits scope limit g a
  formulas : ∀ b', Formula.Within b' b → ∀ r, (expandFormula scope 0 (pureExpander g) b').run = .ok r →
    r.length ≤ limit

theorem FitsFormula.operand (h : FitsFormula scope limit g b) {b' : Formula} (hb' : b' ∈ b.operands) :
    FitsFormula scope limit g b' where
  nodes e he := h.nodes e (Formula.mem_terms_of_mem_operands hb' he)
  formulas b'' hb'' := h.formulas b'' (.operand hb' hb'')

theorem withinLimit_zero {β : Type} (node : β) (r : List β) : withinLimit 0 node r = r := rfl

theorem withinLimit_of_length_le {β : Type} {r : List β} (h : r.length ≤ limit) (node : β) :
    withinLimit limit node r = r := by
  simp [withinLimit, overLimit, Nat.not_lt.2 h]

theorem expandFormula_eq_of_fits (hg : Grows g) (hb : ∀ e ∈ b.terms, e.Obtainable)
    (hfits : FitsFormula scope limit g b) :
    expandFormula scope limit (pureExpander g) b = expandFormula scope 0 (pureExpander g) b := by
  induction b using Formula.inductionOnOperands with
  | step b ih =>
    by_cases htest : ∃ e, b.clause = .nonzero e
    · obtain ⟨e, he⟩ := htest
      have hterm := Formula.mem_terms_of_clause he
      obtain ⟨values, hvalues⟩ := exists_expand scope 0 g (hb e hterm)
      have hsame := expand_eq_of_fits hg (hb e hterm) (hfits.nodes e hterm)
      have hzero := expandFormula_of_test he hvalues
      rw [withinLimit_zero] at hzero
      rw [hzero, expandFormula_of_test he (hsame.trans hvalues),
        withinLimit_of_length_le (hfits.formulas b .self _ hzero)]
    · have htest := not_exists.1 htest
      obtain ⟨lists, hlists, hzero⟩ := exists_gathered scope g hb htest
      have hsame : List.Forall₂ (fun b r => expandFormula scope limit (pureExpander g) b = pure r)
          b.operands lists := by
        refine forall₂_imp_mem hlists fun b' hb' r hr => ?_
        rw [← hr]
        exact ih b' hb' (fun e he => hb e (Formula.mem_terms_of_mem_operands hb' he)) (hfits.operand hb')
      have hlength := hfits.formulas b .self _ hzero
      rw [hzero, expandFormula_eq_gathered htest hsame (.inr ⟨fun found choice => ?_, hlength⟩)]
      exact length_le_foldl length_le_addDistinct _ found

inductive IsAlternativeFormula (scope : Scope) (alternatives : Expr → List Expr) : Formula → Formula → Prop
  | test {b : Formula} {e e' : Expr} (clause : b.clause = .nonzero e)
    (alternative : IsAlternative scope alternatives e e') :
    IsAlternativeFormula scope alternatives b (Formula.nonzero e')
  | layer {b b' : Formula} {choice : List Formula} (untested : ∀ e, b.clause ≠ .nonzero e)
    (operands : List.Forall₂ (IsAlternativeFormula scope alternatives) b.operands choice)
    (built : b.withOperands choice = .ok b') : IsAlternativeFormula scope alternatives b b'

theorem mem_layered_iff {b' : Formula} {choice : List Formula} :
    b' ∈ layered b choice ↔ b.withOperands choice = .ok b' := by
  rw [layered]
  cases b.withOperands choice <;> simp [Except.toOption, eq_comm]

theorem exists_alternativeFormulas (hb : ∀ e ∈ b.terms, e.Obtainable) :
    ∃ r, expandFormula scope 0 (pureExpander (addAll alternatives)) b = pure r ∧ r.Nodup ∧
      ∀ b', b' ∈ r ↔ IsAlternativeFormula scope alternatives b b' := by
  induction b using Formula.inductionOnOperands with
  | step b ih =>
    by_cases htest : ∃ e, b.clause = .nonzero e
    · obtain ⟨e, he⟩ := htest
      obtain ⟨values, hvalues, -, hmem⟩ := exists_alternatives (hb e (Formula.mem_terms_of_clause he))
      refine ⟨_, expandFormula_of_test he hvalues, nodup_foldl_addDistinct _ List.nodup_nil, fun b' => ?_⟩
      rw [withinLimit_zero, mem_foldl_addDistinct]
      constructor
      · intro h
        obtain ⟨e', he', rfl⟩ := List.mem_map.1 (h.resolve_left List.not_mem_nil)
        exact .test he ((hmem e').1 he')
      · intro h
        cases h with
        | test clause alternative =>
          cases he.symm.trans clause
          exact .inr (List.mem_map_of_mem ((hmem _).2 alternative))
        | layer untested _ _ => exact absurd he (untested e)
    · have htest := not_exists.1 htest
      obtain ⟨lists, hlists, hzero⟩ := exists_gathered scope (addAll alternatives) hb htest
      have hoperands : List.Forall₂ (fun b r => ∀ b', b' ∈ r ↔ IsAlternativeFormula scope alternatives b b')
          b.operands lists := by
        refine forall₂_imp_mem hlists fun b' hb' r hr => ?_
        obtain ⟨r', hr', -, hmem⟩ := ih b' hb' fun e he => hb e (Formula.mem_terms_of_mem_operands hb' he)
        cases hr.symm.trans hr'
        exact hmem
      refine ⟨_, hzero, nodup_gathered _ lists, fun b' => (mem_gathered_iff hoperands _).trans ?_⟩
      simp only [mem_layered_iff]
      constructor
      · intro h
        obtain ⟨choice, hchoice, hover⟩ := h
        exact .layer htest hchoice hover
      · intro h
        cases h with
        | test clause _ => exact absurd clause (htest _)
        | layer _ operands built => exact ⟨_, operands, built⟩

end Formulas

/-- An expansion has no more alternatives than its limit, whatever the expander does, and it comes to a result if the
expander does. For a function that takes nothing away, a limit that nothing passes on the way makes no difference. Where
the function adds the alternatives it offers, an expansion without a limit finds, each once, the alternatives of all
combinations of alternatives of the children. -/
theorem limit_bounds_alternatives {S : Type} (f : Expander (StateM S)) {g : Expr → List Expr → List Expr} (hg : Grows g)
    (alternatives : Expr → List Expr) (scope : Scope) {limit : Nat} (hlimit : 1 ≤ limit) :
    (∀ e : Expr,
      (∀ s r, ((expand scope limit f e).run.run s).1 = .ok r → r.length ≤ limit) ∧
      (e.Obtainable →
        (f.Total → ∀ s, ∃ r, ((expand scope limit f e).run.run s).1 = .ok r) ∧
        ((∀ a, e.Reaches a → Fits scope limit g a) → ∃ r,
          (expand scope 0 (pureExpander g) e).run = .ok r ∧ (expand scope limit (pureExpander g) e).run = .ok r) ∧
        ∃ r, (expand scope 0 (pureExpander (addAll alternatives)) e).run = .ok r ∧ r.Nodup ∧
          ∀ e', e' ∈ r ↔ IsAlternative scope alternatives e e')) ∧
    ∀ b : Formula,
      (∀ s r, ((expandFormula scope limit f b).run.run s).1 = .ok r → r.length ≤ limit) ∧
      ((∀ e ∈ b.terms, e.Obtainable) →
        (f.Total → ∀ s, ∃ r, ((expandFormula scope limit f b).run.run s).1 = .ok r) ∧
        (FitsFormula scope limit g b → ∃ r,
          (expandFormula scope 0 (pureExpander g) b).run = .ok r ∧
          (expandFormula scope limit (pureExpander g) b).run = .ok r) ∧
        ∃ r, (expandFormula scope 0 (pureExpander (addAll alternatives)) b).run = .ok r ∧ r.Nodup ∧
          ∀ b', b' ∈ r ↔ IsAlternativeFormula scope alternatives b b') := by
  have returned {α : Type} {x : ExceptT Fault (StateM S) α} {p : α → Prop}
      (hx : ((Guarantee.returned (StateM S)).throwing fun _ => True).Gives x p) (s : S) (r : α)
      (hr : (x.run.run s).1 = .ok r) : p r := hx (.ok r) ⟨s, hr⟩
  constructor
  · refine fun e => ⟨returned (expand_length_le hlimit e), fun he => ⟨fun hf s => ?_, fun hfits => ?_, ?_⟩⟩
    · obtain ⟨r, hr, -⟩ := sure_iff.1 (hf.expand he) s
      exact ⟨r, hr⟩
    · obtain ⟨r, hr⟩ := exists_expand scope 0 g he
      exact ⟨r, hr, (expand_eq_of_fits hg he hfits).trans hr⟩
    · exact exists_alternatives he
  · refine fun b => ⟨returned (expandFormula_length_le hlimit b), fun hb => ⟨fun hf s => ?_, fun hfits => ?_, ?_⟩⟩
    · obtain ⟨r, hr, -⟩ := sure_iff.1 (expandFormula_gives layerExpandsTo_obtainable (fun e => hf.expand) b hb) s
      exact ⟨r, hr⟩
    · obtain ⟨r, hr⟩ := exists_expandFormula scope 0 g hb
      exact ⟨r, hr, (expandFormula_eq_of_fits hg hb hfits).trans hr⟩
    · exact exists_alternativeFormulas hb

section Instances

variable (x y : Variable)

def orElse (y : Variable) (value : Expr) : List Expr :=
  if value.var?.isSome then [value, .var y] else [value]

theorem enlarged_all {g : Expr → List Expr → List Expr} {e value : Expr} {choice found : List Expr}
    (h : e.rebuild? choice = .ok (some value)) : enlarged .all g e found choice = g value found :=
  (enlarged_of_rebuild? h found).trans (if_pos rfl)

theorem addDistinct_pair {s t : Shape Expr} (hne : t ≠ s) : addDistinct [Expr.of s] (.of t) = [.of s, .of t] := by
  rw [addDistinct, if_neg]
  · rfl
  · exact fun h => of_ne_of hne (List.mem_singleton.1 h)

theorem expand_orElse_var (hne : y ≠ x) :
    expand .all 0 (pureExpander (addAll (orElse y))) (.var x) = pure [.var x, .var y] := by
  have hx : (Expr.var x).Obtainable := obtainable_var x
  have hoffered : orElse y (.var x) = [.var x, .var y] := rfl
  have hfirst : addDistinct [] (Expr.var x) = [.var x] := rfl
  have hpair : addDistinct [Expr.var x] (.var y) = [.var x, .var y] := addDistinct_pair (by simpa using hne)
  rw [expand_eq hx .nil (.inl rfl) (.inl rfl), choices, List.foldl_cons, enlarged_all (Expr.rebuild?_nil rfl), addAll,
    hoffered, List.foldl_cons, hfirst, List.foldl_cons, hpair, List.foldl_nil, List.foldl_nil]

theorem expand_orElse_deref (hne : y ≠ x) :
    expand .all 0 (pureExpander (addAll (orElse y))) (.of (.access .deref (.var x))) =
      pure [.of (.access .deref (.var x)), .of (.access .deref (.var y))] := by
  have hrebuilt (v : Variable) : (Expr.of (.access .deref (.var x))).rebuild? [.var v] =
      .ok (some (.of (.access .deref (.var v)))) := rfl
  have hpair : addDistinct [Expr.of (.access .deref (.var x))] (.of (.access .deref (.var y))) =
      [.of (.access .deref (.var x)), .of (.access .deref (.var y))] := by
    refine addDistinct_pair fun heq => of_ne_of ?_ (Shape.access.inj heq).2
    simpa using hne
  have hoffered (v : Variable) (found : List Expr) :
      addAll (orElse y) (.of (.access .deref (.var v))) found = addDistinct found (.of (.access .deref (.var v))) := rfl
  have hchoices : choices [[Expr.var x, .var y]] = [[.var x], [.var y]] := rfl
  rw [expand_eq (obtainable_deref_var x) (.cons (expand_orElse_var x y hne) .nil) (.inl rfl) (.inl rfl), hchoices,
    List.foldl_cons, List.foldl_cons, enlarged_all (hrebuilt x), enlarged_all (hrebuilt y), hoffered, hoffered,
    List.foldl_nil]
  exact congrArg pure hpair

theorem fits_orElse (hne : y ≠ x) {a : Expr} (ha : (Expr.of (.access .deref (.var x))).Reaches a) :
    Fits .all 2 (addAll (orElse y)) a := by
  cases ha with
  | refl =>
    constructor
    · intro lists hlists
      have hchildren := mapM_eq_of_forall₂ (.cons (expand_orElse_var x y hne) .nil)
      cases hlists.symm.trans hchildren
      exact Nat.le_refl 2
    · intro r hr
      rw [expand_orElse_deref x y hne] at hr
      cases hr
      exact Nat.le_refl 2
  | child mem reaches =>
    cases List.mem_singleton.1 mem
    rw [reaches.eq_of_leaf rfl]
    constructor
    · intro lists hlists
      cases hlists
      exact Nat.le_succ 1
    · intro r hr
      rw [expand_orElse_var x y hne] at hr
      cases hr
      exact Nat.le_refl 2

/-- Where a pointer may be one of two variables, there are two places that it may lead to. A limit of two lets both
through. -/
theorem limit_bounds_alternatives_of_two :
    Expander.Total unsuitableExpander ∧ Grows (addAll (orElse (.ofGlobal "y"))) ∧
    ∃ e e' : Expr, e = .of (.access .deref (.var (.ofGlobal "x"))) ∧ e' = .of (.access .deref (.var (.ofGlobal "y"))) ∧
      e.Obtainable ∧ (∀ a, e.Reaches a → Fits .all 2 (addAll (orElse (.ofGlobal "y"))) a) ∧
      (expand .all 2 (pureExpander (addAll (orElse (.ofGlobal "y")))) e).run = .ok [e, e'] ∧
      IsAlternative .all (orElse (.ofGlobal "y")) e e' ∧
      ∀ s, ∃ r, ((expand .all 2 unsuitableExpander e).run.run s).1 = .ok r ∧ r.length ≤ 2 := by
  have htotal : Expander.Total unsuitableExpander := fun _ _ _ => ⟨_, rfl⟩
  have hgrows := grows_addAll (orElse (.ofGlobal "y"))
  have hne : Variable.ofGlobal "y" ≠ .ofGlobal "x" := by decide
  have hzero := expand_orElse_deref _ _ hne
  have hfits (a : Expr) := fits_orElse (a := a) _ _ hne
  obtain ⟨hbound, hresult⟩ := (limit_bounds_alternatives unsuitableExpander hgrows (orElse (.ofGlobal "y")) .all
    (by decide : 1 ≤ 2)).1 (.of (.access .deref (.var (.ofGlobal "x"))))
  obtain ⟨hreturns, hsame, r, hr, -, hmem⟩ := hresult (obtainable_deref_var _)
  refine ⟨htotal, hgrows, _, _, rfl, rfl, obtainable_deref_var _, hfits, ?_, ?_, fun s => ?_⟩
  · obtain ⟨r, hr, hlimited⟩ := hsame hfits
    cases hr.symm.trans hzero
    exact hlimited
  · cases hr.symm.trans hzero
    exact (hmem _).1 (List.mem_cons_of_mem _ (List.mem_singleton_self _))
  · obtain ⟨r, hr⟩ := hreturns htotal s
    exact ⟨r, hr, hbound s r hr⟩

end Instances

end Retrace.Walk
