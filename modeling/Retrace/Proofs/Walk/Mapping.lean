import Retrace.Proofs.Order.Total
import Retrace.Proofs.Walk.Returns

/-!
A rule for mappings. To show that what a mapping gives stands in some relation to what was mapped, it is
enough to look at one node: its children stand in the relation to their results, it was rebuilt over those,
and the mapper gave an answer. What was remembered, and in which order nodes are mapped, does not come in.
The rule is the same for all results there can be and for the certainty that there is one.
-/

set_option autoImplicit false

namespace Retrace.Walk

open Returning

theorem forall_mem_of_forall₂ {α β : Type} {R : α → β → Prop} {q : β → Prop} {as : List α} {bs : List β}
    (hq : ∀ a b, R a b → q b) (h : List.Forall₂ R as bs) : ∀ b ∈ bs, q b := by
  induction h with
  | nil => exact List.forall_mem_nil _
  | cons first _ ih => exact List.forall_mem_cons.2 ⟨hq _ _ first, ih⟩

theorem forall_mem_none {α : Type} {p : α → Prop} : ∀ a ∈ (none : Option α), p a := by
  intro a ha
  cases ha

section Lists

variable {n : Type → Type} [Monad n] (G : Guarantee n) {α β : Type}

def Mapped (R : α → Option β → Prop) (as : List α) : Option (List β) → Prop
  | none => ∃ a ∈ as, R a none
  | some bs => List.Forall₂ (fun a b => R a (some b)) as bs

theorem mapEach_gives {R : α → Option β → Prop} {f : α → n (Option β)} (as : List α)
    (h : ∀ a ∈ as, G.Gives (f a) (R a)) : G.Gives (mapEach f as) (Mapped R as) := by
  induction as with
  | nil => exact G.pure (p := Mapped R []) .nil
  | cons a as ih =>
    obtain ⟨ha, has⟩ := List.forall_mem_cons.1 h
    refine G.bind ha fun r hr => ?_
    cases r with
    | none => exact G.pure (p := Mapped R (a :: as)) ⟨a, List.mem_cons_self, hr⟩
    | some b =>
      refine G.bind (ih has) fun rs hrs => ?_
      cases rs with
      | none =>
        obtain ⟨c, hc, hnone⟩ := hrs
        exact G.pure (p := Mapped R (a :: as)) ⟨c, List.mem_cons_of_mem a hc, hnone⟩
      | some bs => exact G.pure (p := Mapped R (a :: as)) (.cons hr hrs)

/-- The elements of a list may come with the proof that they are in it. -/
theorem mapEach_attach_gives [LawfulMonad n] {R : α → Option β → Prop} (as : List α)
    {f : { a // a ∈ as } → n (Option β)} (h : ∀ a : { a // a ∈ as }, G.Gives (f a) (R a.1)) :
    G.Gives (mapEach f as.attach) (Mapped R as) := by
  refine G.imp (mapEach_gives G as.attach fun a _ => h a) fun r hr => ?_
  cases r with
  | none =>
    obtain ⟨a, -, hnone⟩ := hr
    exact ⟨a.1, a.2, hnone⟩
  | some bs =>
    have hmap := (List.forall₂_map_left_iff (f := Subtype.val) (R := fun a b => R a (some b))).2 hr
    rwa [List.attach_map_subtype_val] at hmap

end Lists

section Rule

variable {m : Type → Type} [Monad m] {G : Guarantee m} {q : Fault → Prop} {scope : Scope} {policy : Policy}
  {f : Mapper m} {Q : Expr → Prop} {P : Expr → Option Expr → Prop}

theorem lift_gives {α : Type} {p : α → Prop} {x : Except Fault α} (h : Guarantee.Outcome p q x) :
    (G.throwing q).Gives (lift x) fun a => x = .ok a ∧ p a := by
  refine G.pure ?_
  cases x with
  | ok a => exact ⟨rfl, h⟩
  | error fault => exact h

def Remembers (P : Expr → Option Expr → Prop) (memo : Memo) : Prop :=
  ∀ e r, memo.lookup e = some r → P e r

theorem remembers_nil : Remembers P [] := by
  intro e r hr
  cases hr

theorem Remembers.cons {memo : Memo} (h : Remembers P memo) {e : Expr} {r : Option Expr} (hr : P e r) :
    Remembers P ((e, r) :: memo) := by
  intro a s hs
  rw [List.lookup_cons] at hs
  split at hs
  · rename_i heq
    cases hs
    rw [beq_iff_eq.1 heq]
    exact hr
  · exact h a s hs

def Over (P : Expr → Option Expr → Prop) (e : Expr) (cs : List Expr) : Prop :=
  List.Forall₂ (fun c c' => P c (some c')) e.children cs

/-- What has to be shown of one node with `Q` to know what a mapping gives: of the node rebuilt over its
mapped children, of the answers of the mapper where it is asked, and of the node that has no result because of
a child. -/
structure StepGives (G : Guarantee m) (q : Fault → Prop) (scope : Scope) (policy : Policy) (f : Mapper m)
    (Q : Expr → Prop) (P : Expr → Option Expr → Prop) : Prop where
  child : ∀ e, Q e → ∀ c ∈ e.children, Q c
  kept : policy = .keep → ∀ e, Q e → P e none → P e (some e)
  lost : ∀ e, Q e → ∀ c ∈ e.children, P c none → P e none
  rebuilt : ∀ e cs, Q e → Over P e cs → Guarantee.Outcome (fun r => (r = none → P e none) ∧
    ∀ value ∈ r, scope.includes e = false → P e (some value)) q (rebuilt policy e cs)
  answered : ∀ e cs value, Q e → scope.includes e = true → Over P e cs →
    Walk.rebuilt policy e cs = .ok (some value) →
    (G.throwing q).Gives (f.map value e) fun r => P e (r.or (policy.fallback value))

theorem StepGives.or_fallback (step : StepGives G q scope policy f Q P) {e : Expr} (he : Q e)
    {r : Option Expr} (hr : P e r) : P e (r.or (policy.fallback e)) := by
  cases r with
  | some e' => exact hr
  | none =>
    cases policy with
    | drop => exact hr
    | keep => exact step.kept rfl e he hr

theorem rebuilt_self (policy : Policy) (e : Expr) : rebuilt policy e e.children = .ok (some e) := by
  rw [rebuilt, if_pos rfl]

theorem stepGives_unchanged (hchild : ∀ e, Q e → ∀ c ∈ e.children, Q c)
    (hself : ∀ e, Q e → (G.throwing q).Gives (f.map e e) fun r => r.or (policy.fallback e) = some e) :
    StepGives G q scope policy f Q fun e r => r = some e := by
  have unchanged {e : Expr} {cs : List Expr} (hcs : Over (fun e r => r = some e) e cs) : cs = e.children :=
    (eq_of_forall₂ hcs fun _ _ _ _ hc => (Option.some.inj hc).symm).symm
  constructor
  case child => exact hchild
  case kept => exact fun _ _ _ _ => rfl
  case lost =>
    intro e _ c _ hnone
    cases hnone
  case rebuilt =>
    intro e cs _ hcs
    rw [unchanged hcs, rebuilt_self]
    refine ⟨fun hnone => ?_, fun value hvalue _ => ?_⟩
    · cases hnone
    · cases hvalue
      rfl
  case answered =>
    intro e cs value he _ hcs hvalue
    rw [unchanged hcs, rebuilt_self] at hvalue
    cases hvalue
    exact hself e he

theorem stepGives_self (hchild : ∀ e, Q e → ∀ c ∈ e.children, Q c)
    (hself : ∀ e, Q e → f.map e e = pure (some e)) :
    StepGives G q scope policy f Q fun e r => r = some e := by
  refine stepGives_unchanged hchild fun e he => ?_
  rw [hself e he]
  exact (G.throwing q).pure rfl

theorem settle_gives (step : StepGives G q scope policy f Q P) {e : Expr} (he : Q e)
    {children : Option (List Expr)} (hchildren : Mapped P e.children children) :
    (G.throwing q).Gives (settle scope policy f e children) (P e) := by
  cases children with
  | none =>
    obtain ⟨c, hc, hnone⟩ := hchildren
    exact (G.throwing q).pure (step.lost e he c hc hnone)
  | some cs =>
    refine (G.throwing q).bind (lift_gives (step.rebuilt e cs he hchildren)) ?_
    rintro value ⟨hvalue, hnone, hpassed⟩
    cases value with
    | none => exact (G.throwing q).pure (hnone rfl)
    | some value =>
      dsimp only
      split
      · rename_i hscope
        exact (G.throwing q).bind (step.answered e cs value he hscope hchildren hvalue)
          fun _ hr => (G.throwing q).pure hr
      · rename_i hscope
        exact (G.throwing q).pure (hpassed value rfl (by simpa using hscope))

variable [LawfulMonad m]

theorem mapExpr_gives (step : StepGives G q scope policy f Q P) (e : Expr) (he : Q e) :
    ((G.throwing q).keeping (Remembers P)).Gives (mapExpr scope policy f e) (P e) := by
  induction e using Expr.inductionOnParts with
  | step e ih =>
    let G' := (G.throwing q).keeping (Remembers P)
    rw [mapExpr]
    refine G'.bind (Guarantee.keeping_get _) fun memo hmemo => ?_
    split
    · rename_i result hresult
      exact G'.pure (hmemo e result hresult)
    refine G'.bind (mapEach_attach_gives G' (R := P) e.children fun c => ?_) fun children hchildren => ?_
    · have hc := step.child e he c.1 c.2
      exact G'.bind (ih c.1 (Expr.mem_parts_of_mem_children c.2) hc) fun r hr =>
        G'.pure (step.or_fallback hc hr)
    refine G'.bind (Guarantee.keeping_lift _ (settle_gives step he hchildren)) fun result hresult => ?_
    exact G'.bind (Guarantee.keeping_modify _ fun memo hmemo => hmemo.cons hresult) fun _ _ => G'.pure hresult

theorem StepGives.map (step : StepGives G q scope policy f Q P) {e : Expr} (he : Q e) :
    (G.throwing q).Gives (map scope policy f e) (P e) :=
  Guarantee.keeping_run' _ (mapExpr_gives step e he) remembers_nil

structure LayerGives (q : Fault → Prop) (Q : Expr → Prop) (P : Expr → Option Expr → Prop)
    (S : Formula → Prop) (R : Formula → Option Formula → Prop) : Prop where
  tested : ∀ b e, S b → b.clause = .nonzero e → Q e
  operand : ∀ b, S b → ∀ g ∈ b.operands, S g
  lost : ∀ b, S b → (∃ e, b.clause = .nonzero e ∧ P e none) ∨ (∃ g ∈ b.operands, R g none) → R b none
  nonzero : ∀ b e e', S b → b.clause = .nonzero e → P e (some e') →
    R b (some (if e' = e then b else Formula.nonzero e'))
  operands : ∀ b bs, S b → (∀ e, b.clause ≠ .nonzero e) →
    List.Forall₂ (fun g g' => R g (some g')) b.operands bs →
    Guarantee.Outcome (fun b' => R b (some b')) q (b.withOperands bs)

omit [LawfulMonad m] in
theorem mapFormulas_eq (bs : List Formula) :
    mapFormulas scope policy f bs = mapEach (mapFormulaMemo scope policy f) bs := by
  induction bs with
  | nil => rw [mapFormulas, mapEach]
  | cons b bs ih =>
    rw [mapFormulas, mapEach, ih]
    refine bind_congr fun r => ?_
    cases r with
    | none => rfl
    | some b' => exact bind_congr fun rs => by cases rs <;> rfl

variable {S : Formula → Prop} {R : Formula → Option Formula → Prop}

theorem mapFormulaMemo_gives (step : StepGives G q scope policy f Q P) (layer : LayerGives q Q P S R)
    (b : Formula) (hb : S b) :
    ((G.throwing q).keeping (Remembers P)).Gives (mapFormulaMemo scope policy f b) (R b) := by
  induction b using Formula.inductionOnOperands with
  | step b ih =>
    let G' := (G.throwing q).keeping (Remembers P)
    -- A layer over mapped operands is rebuilt, whatever its connective.
    have rebuild (bs : List Formula) (htest : ∀ e, b.clause ≠ .nonzero e)
        (hbs : List.Forall₂ (fun g g' => R g (some g')) b.operands bs) :
        G'.Gives (liftM (lift ((b.withOperands bs).map some) : ExceptT Fault m _)) (R b) := by
      refine Guarantee.keeping_lift _ (G.pure ?_)
      have hover := layer.operands b bs hb htest hbs
      cases hb' : b.withOperands bs with
      | ok b' =>
        rw [hb'] at hover
        exact hover
      | error fault =>
        rw [hb'] at hover
        exact hover
    have hoperands := layer.operand b hb
    have hlost := layer.lost b hb
    obtain ⟨d, c⟩ := b
    cases c with
    | const v =>
      rw [mapFormulaMemo]
      exact G'.pure (p := R _) (layer.operands _ [] hb (by simp) .nil)
    | nonzero e =>
      rw [mapFormulaMemo]
      refine G'.bind (mapExpr_gives step e (layer.tested _ e hb rfl)) fun r hr => ?_
      cases r with
      | none => exact G'.pure (hlost (.inl ⟨e, rfl, hr⟩))
      | some e' => exact G'.pure (layer.nonzero _ e e' hb rfl hr)
    | not g =>
      have hg : g ∈ (Formula.node d (.not g)).operands := List.mem_singleton_self g
      rw [mapFormulaMemo]
      refine G'.bind (ih g hg (hoperands g hg)) fun r hr => ?_
      cases r with
      | none => exact G'.pure (hlost (.inr ⟨g, hg, hr⟩))
      | some g' => exact rebuild [g'] (by simp) (.cons hr .nil)
    | junction k gs =>
      rw [mapFormulaMemo, mapFormulas_eq]
      refine G'.bind (mapEach_gives G' gs fun g hg => ih g hg (hoperands g hg)) fun r hr => ?_
      cases r with
      | none => exact G'.pure (hlost (.inr hr))
      | some gs' => exact rebuild gs' (by simp) hr

theorem StepGives.mapFormula (step : StepGives G q scope policy f Q P) (layer : LayerGives q Q P S R)
    {b : Formula} (hb : S b) : (G.throwing q).Gives (mapFormula scope policy f b) (R b) :=
  Guarantee.keeping_run' _ (mapFormulaMemo_gives step layer b hb) remembers_nil

end Rule

section Results

-- The rule for the results that there can be, whatever faults there are besides.

variable {m : Type → Type} [Monad m] [Returning m] {scope : Scope} {policy : Policy} {f : Mapper m}

/-- What has to be shown of one node that is rebuilt over its mapped children: the relation holds of the
rebuilt node where the mapper is not asked or where the node stays, and of all answers of the mapper. -/
structure StepKeeps (scope : Scope) (policy : Policy) (f : Mapper m) (P : Expr → Expr → Prop) : Prop where
  kept : policy = .keep → ∀ e, P e e
  rebuilt : ∀ e cs value, List.Forall₂ P e.children cs → rebuilt policy e cs = .ok (some value) →
    (scope.includes e = false ∨ policy = .keep) → P e value
  answered : ∀ e cs value, List.Forall₂ P e.children cs → Walk.rebuilt policy e cs = .ok (some value) →
    ∀ e', Returns (f.map value e) (some e') → P e e'

theorem stepKeeps_of_answered {P : Expr → Expr → Prop}
    (h : ∀ e cs value, List.Forall₂ P e.children cs → Walk.rebuilt .drop e cs = .ok (some value) →
      ∀ e', Returns (f.map value e) (some e') → P e e') : StepKeeps .all .drop f P where
  kept hkeep := by cases hkeep
  rebuilt _ _ _ _ _ hother := by rcases hother with hother | hother <;> cases hother
  answered := h

theorem Policy.keep_of_fallback {policy : Policy} {e e' : Expr} (h : e' ∈ policy.fallback e) :
    policy = .keep ∧ e' = e := by
  cases policy with
  | drop => cases h
  | keep => exact ⟨rfl, (Option.some.inj h).symm⟩

theorem mem_or_fallback {r : Option Expr} {e e' : Expr} (h : e' ∈ r.or (policy.fallback e)) :
    e' ∈ r ∨ policy = .keep ∧ e' = e := by
  cases r with
  | none => exact .inr (Policy.keep_of_fallback h)
  | some a => exact .inl h

theorem returns_lift {α : Type} {x : Except Fault α} {a : α}
    (h : Returns (lift x : ExceptT Fault m α) a) : x = .ok a :=
  (of_pure (m := m) h).symm

variable {P : Expr → Expr → Prop}

theorem StepKeeps.stepGives (step : StepKeeps scope policy f P) :
    StepGives (.returned m) (fun _ => True) scope policy f (fun _ => True) fun e r => ∀ e' ∈ r, P e e' where
  child _ _ _ _ := trivial
  kept hkeep e _ _ e' he' := by
    cases he'
    exact step.kept hkeep e
  lost _ _ _ _ _ := forall_mem_none
  rebuilt e cs _ hcs := by
    cases hvalue : Walk.rebuilt policy e cs with
    | error fault => trivial
    | ok r =>
      refine ⟨fun _ => forall_mem_none, fun value hmem hother e' he' => ?_⟩
      cases hmem
      cases he'
      exact step.rebuilt e cs value (hcs.imp fun _ _ hc => hc _ rfl) hvalue (.inl hother)
  answered e cs value _ _ hcs hvalue r hr := by
    have hcs : List.Forall₂ P e.children cs := hcs.imp fun _ _ hc => hc _ rfl
    cases r with
    | error fault => trivial
    | ok r =>
      intro e' he'
      rcases mem_or_fallback he' with hmem | ⟨hkeep, rfl⟩
      · exact step.answered e cs value hcs hvalue e' (hmem ▸ hr)
      · exact step.rebuilt e cs e' hcs hvalue (.inr hkeep)

theorem map_related (step : StepKeeps scope policy f P) {e e' : Expr}
    (h : Returns (map scope policy f e) (some e')) : P e e' :=
  step.stepGives.map trivial (.ok (some e')) h e' rfl

/-- The relation of formulas that goes with a relation of expressions: what has to be shown of one layer
whose tested expression or operands have been mapped. -/
structure LayerKeeps (P : Expr → Expr → Prop) (R : Formula → Formula → Prop) : Prop where
  nonzero : ∀ b e e', b.clause = .nonzero e → P e e' → R b (if e' = e then b else Formula.nonzero e')
  operands : ∀ b bs b', (∀ e, b.clause ≠ .nonzero e) → List.Forall₂ R b.operands bs →
    b.withOperands bs = .ok b' → R b b'

variable {R : Formula → Formula → Prop}

theorem LayerKeeps.imp {Q : Expr → Expr → Prop} (layer : LayerKeeps Q R) (h : ∀ e e', P e e' → Q e e') :
    LayerKeeps P R where
  nonzero b e e' hb he := layer.nonzero b e e' hb (h e e' he)
  operands := layer.operands

theorem LayerKeeps.layerGives (layer : LayerKeeps P R) :
    LayerGives (fun _ => True) (fun _ => True) (fun e r => ∀ e' ∈ r, P e e') (fun _ => True)
      fun b r => ∀ b' ∈ r, R b b' where
  tested _ _ _ _ := trivial
  operand _ _ _ _ := trivial
  lost _ _ _ := forall_mem_none
  nonzero b e e' _ hb he' b' hb' := by
    cases hb'
    exact layer.nonzero b e e' hb (he' e' rfl)
  operands b bs _ hb hbs := by
    cases hover : b.withOperands bs with
    | error fault => trivial
    | ok b' =>
      intro b'' hb''
      cases hb''
      exact layer.operands b bs b' hb (hbs.imp fun _ _ hg => hg _ rfl) hover

theorem mapFormula_related (step : StepKeeps scope policy f P) (layer : LayerKeeps P R) {b b' : Formula}
    (h : Returns (mapFormula scope policy f b) (some b')) : R b b' :=
  step.stepGives.mapFormula layer.layerGives trivial (.ok (some b')) h b' rfl

end Results

section Evaluation

-- Runs on nodes of one or two levels, with the mapper's answers as hypotheses.

variable {n : Type → Type} [Monad n] {α β γ : Type}

theorem mapEach_map (g : β → n (Option γ)) (h : α → β) (as : List α) :
    mapEach g (as.map h) = mapEach (fun a => g (h a)) as := by
  induction as with
  | nil => rfl
  | cons a as ih => simp only [List.map_cons, mapEach, ih]

theorem mapEach_attach (g : α → n (Option β)) (as : List α) :
    mapEach (fun a : { a // a ∈ as } => g a.1) as.attach = mapEach g as := by
  rw [← mapEach_map g Subtype.val, List.attach_map_subtype_val]

theorem of_ne_of {s t : Shape Expr} (h : s ≠ t) : Expr.of s ≠ Expr.of t := by
  intro heq
  have hshape := congrArg Expr.shape heq
  rw [Expr.shape_of, Expr.shape_of] at hshape
  exact h hshape

variable {m : Type → Type} [Monad m] {policy : Policy} {f : Mapper m}

theorem lift_ok (a : α) : (lift (.ok a) : ExceptT Fault m α) = pure a := rfl

def mapChild (scope : Scope) (policy : Policy) (f : Mapper m) (c : Expr) :
    StateT Memo (ExceptT Fault m) (Option Expr) := do
  pure ((← mapExpr scope policy f c).or (policy.fallback c))

variable [LawfulMonad m]

theorem run_mapExpr_hit {scope : Scope} {e : Expr} {r : Option Expr} {memo : Memo}
    (hmemo : memo.lookup e = some r) : (mapExpr scope policy f e).run memo = pure (r, memo) := by
  rw [mapExpr, StateT.run_bind, StateT.run_get, pure_bind]
  simp only [hmemo, StateT.run_pure]

theorem run_mapExpr_miss {scope : Scope} {e : Expr} {memo : Memo} (hmemo : memo.lookup e = none) :
    (mapExpr scope policy f e).run memo = StateT.run (do
      let children ← mapEach (mapChild scope policy f) e.children
      let r ← settle scope policy f e children
      modify ((e, r) :: ·)
      pure r) memo := by
  have hattach := mapEach_attach (mapChild scope policy f) e.children
  unfold mapChild at hattach ⊢
  rw [mapExpr, hattach, StateT.run_bind, StateT.run_get, pure_bind]
  simp only [hmemo]

/-- A new node comes to what the mapper makes of it over its mapped children. -/
theorem run_mapExpr_applied {e value : Expr} {cs : List Expr} {memo memo' : Memo} (hmemo : memo.lookup e = none)
    (hcs : (mapEach (mapChild .all policy f) e.children).run memo = pure (some cs, memo'))
    (hvalue : rebuilt policy e cs = .ok (some value)) :
    (mapExpr .all policy f e).run memo = (do
      let r ← applied policy f value e
      pure (r, (e, r) :: memo')) := by
  have hscope : Scope.all.includes e = true := rfl
  rw [run_mapExpr_miss hmemo, StateT.run_bind, hcs, pure_bind]
  simp [settle, hvalue, lift_ok, hscope]

theorem run_mapExpr {e value : Expr} {cs : List Expr} {r : Option Expr} {memo memo' : Memo}
    (hmemo : memo.lookup e = none)
    (hcs : (mapEach (mapChild .all policy f) e.children).run memo = pure (some cs, memo'))
    (hvalue : rebuilt policy e cs = .ok (some value)) (hr : applied policy f value e = pure r) :
    (mapExpr .all policy f e).run memo = pure (r, (e, r) :: memo') := by
  rw [run_mapExpr_applied hmemo hcs hvalue, hr, pure_bind]

theorem run_mapExpr_leaf {e : Expr} {r : Option Expr} {memo : Memo} (hleaf : e.children = [])
    (hmemo : memo.lookup e = none) (hr : applied policy f e e = pure r) :
    (mapExpr .all policy f e).run memo = pure (r, (e, r) :: memo) := by
  refine run_mapExpr hmemo (by rw [hleaf]; rfl) ?_ hr
  rw [← hleaf, rebuilt_self]

theorem run_mapEach_single {c c' : Expr} {memo memo' : Memo}
    (h : (mapExpr .all policy f c).run memo = pure (some c', memo')) :
    (mapEach (mapChild .all policy f) [c]).run memo = pure (some [c'], memo') := by
  simp [mapEach, mapChild, h]

theorem run_mapExpr_single {e c c' value : Expr} {r : Option Expr} (he : e.children = [c])
    (hc : c.children = []) (hc' : applied policy f c c = pure (some c'))
    (hvalue : rebuilt policy e [c'] = .ok (some value)) (hr : applied policy f value e = pure r) :
    (mapExpr .all policy f e).run [] = pure (r, [(e, r), (c, some c')]) := by
  have hchild : (mapExpr .all policy f c).run [] = pure (some c', [(c, some c')]) := run_mapExpr_leaf hc rfl hc'
  refine run_mapExpr rfl ?_ hvalue hr
  rw [he]
  exact run_mapEach_single hchild

theorem run_mapExpr_pair {e a b a' b' value : Expr} {r : Option Expr} (he : e.children = [a, b])
    (hne : b ≠ a) (ha : a.children = []) (hb : b.children = [])
    (ha' : applied policy f a a = pure (some a')) (hb' : applied policy f b b = pure (some b'))
    (hvalue : rebuilt policy e [a', b'] = .ok (some value)) (hr : applied policy f value e = pure r) :
    (mapExpr .all policy f e).run [] = pure (r, [(e, r), (b, some b'), (a, some a')]) := by
  have hfirst : (mapExpr .all policy f a).run [] = pure (some a', [(a, some a')]) := run_mapExpr_leaf ha rfl ha'
  have hmemo : List.lookup b [(a, some a')] = none := by
    rw [List.lookup_cons, beq_eq_false_iff_ne.2 hne]
    rfl
  have hsecond := run_mapExpr_leaf hb hmemo hb'
  refine run_mapExpr rfl ?_ hvalue hr
  rw [he]
  simp [mapEach, mapChild, hfirst, hsecond]

theorem run_mapFormula_nonzero {e : Expr} {r : Option Expr} {memo : Memo} (d : Digest)
    (h : (mapExpr .all policy f e).run [] = pure (r, memo)) :
    mapFormula .all policy f (.node d (.nonzero e)) =
      pure (r.map fun e' => if e' = e then .node d (.nonzero e) else Formula.nonzero e') := by
  rw [mapFormula, mapFormulaMemo, StateT.run'_eq, StateT.run_bind, h, pure_bind]
  cases r <;> simp

end Evaluation

end Retrace.Walk
