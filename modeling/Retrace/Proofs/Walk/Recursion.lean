import Retrace.Proofs.Expr.Rebuilding
import Retrace.Proofs.Formula.Normal
import Mathlib.Data.List.Nodup

/-!
Mappings and the plain recursion they stand for. The recursion maps a node again each time it comes to it. A
mapping remembers results and maps a shared node once; the result is the same, and the mapper is called once on
each node, after it was called on everything below.
-/

set_option autoImplicit false

namespace Retrace.Walk

abbrev Answers := Expr → Expr → Except Fault (Option Expr)

abbrev Note (σ : Type) := Expr → Expr → σ → σ

def answering (g : Answers) {σ : Type} (note : Note σ) : Mapper (StateM σ) where
  map value node := ExceptT.mk do
    modify (note value node)
    pure (g value node)

section Recursion

variable (scope : Scope) (policy : Policy) (g : Answers)

def combine (e : Expr) : Option (List Expr) → Except Fault (Option Expr)
  | none => pure none
  | some cs => do
    match ← rebuilt policy e cs with
    | none => pure none
    | some value =>
      if scope.includes e then pure ((← g value e).or (policy.fallback value)) else pure (some value)

def recurse (e : Expr) : Except Fault (Option Expr) := do
  combine scope policy g e (← mapEach (fun c : { c // c ∈ e.children } => do
    pure ((← recurse c.1).or (policy.fallback c.1))) e.children.attach)
termination_by sizeOf e
decreasing_by exact Expr.sizeOf_lt_of_mem_children c.2

def recurseChild (c : Expr) : Except Fault (Option Expr) := do
  pure ((← recurse scope policy g c).or (policy.fallback c))

def relayered (b : Formula) : Option (List Formula) → Except Fault (Option Formula)
  | none => .ok none
  | some fs => (b.withOperands fs).map some

def recurseFormula (b : Formula) : Except Fault (Option Formula) :=
  match b.clause with
  | .const _ => pure (some b)
  | .nonzero e => do
    pure ((← recurse scope policy g e).map fun e' => if e' = e then b else Formula.nonzero e')
  | _ => do
    relayered b (← mapEach (fun f : { f // f ∈ b.operands } => recurseFormula f.1) b.operands.attach)
termination_by sizeOf b
decreasing_by exact Formula.sizeOf_lt_of_mem_operands f.2

theorem recurse_eq (e : Expr) : recurse scope policy g e =
    mapEach (recurseChild scope policy g) e.children >>= combine scope policy g e := by
  have hattach := mapEach_attach (recurseChild scope policy g) e.children
  rw [recurse, ← hattach]
  rfl

theorem recurseChild_drop (c : Expr) : recurseChild scope .drop g c = recurse scope .drop g c := by
  simp [recurseChild, Policy.fallback]

theorem recurseFormula_eq {b : Formula} (hb : ∀ e, b.clause ≠ .nonzero e) : recurseFormula scope policy g b =
    mapEach (recurseFormula scope policy g) b.operands >>= relayered b := by
  have hattach := mapEach_attach (recurseFormula scope policy g) b.operands
  obtain ⟨d, c⟩ := b
  cases c with
  | const v => rw [recurseFormula]; rfl
  | nonzero e => exact absurd rfl (hb e)
  | not f => rw [recurseFormula, ← hattach]; rfl
  | junction k fs => rw [recurseFormula, ← hattach]; rfl

theorem recurseFormula_nonzero (d : Digest) (e : Expr) : recurseFormula scope policy g (.node d (.nonzero e)) =
    recurse scope policy g e >>= fun r =>
      pure (r.map fun e' => if e' = e then .node d (.nonzero e) else Formula.nonzero e') := by
  rw [recurseFormula]
  rfl

variable {scope policy g}

theorem mapEach_ne_none {α β : Type} {f : α → Except Fault (Option β)} (hf : ∀ a, f a ≠ .ok none) (as : List α) :
    mapEach f as ≠ .ok none := by
  induction as with
  | nil =>
    intro hnone
    cases hnone
  | cons a as ih =>
    rw [mapEach]
    refine bind_ne_ok fun r hr => ?_
    cases r with
    | none => exact absurd hr (hf a)
    | some b =>
      refine bind_ne_ok fun rs hrs => ?_
      cases rs with
      | none => exact absurd hrs ih
      | some bs =>
        intro hnone
        cases hnone

theorem or_keep_ne_none (r : Option Expr) (e : Expr) :
    (pure (r.or (Policy.keep.fallback e)) : Except Fault (Option Expr)) ≠ .ok none := by
  intro hnone
  cases r <;> cases hnone

theorem recurseChild_keep_ne_none (c : Expr) : recurseChild scope .keep g c ≠ .ok none :=
  bind_ne_ok fun r _ => or_keep_ne_none r c

theorem rebuilt_keep_ne_none (e : Expr) (cs : List Expr) : rebuilt .keep e cs ≠ .ok none := by
  unfold rebuilt
  split
  · intro hnone
    cases hnone
  · exact bind_ne_ok fun r _ => or_keep_ne_none r e

theorem combine_keep_ne_none (e : Expr) (cs : List Expr) : combine scope .keep g e (some cs) ≠ .ok none := by
  rw [combine]
  refine bind_ne_ok fun r hr => ?_
  cases r with
  | none => exact absurd hr (rebuilt_keep_ne_none e cs)
  | some value =>
    dsimp only
    split
    · exact bind_ne_ok fun r _ => or_keep_ne_none r value
    · intro hnone
      cases hnone

theorem eq_drop_of_recurse {e : Expr} (h : recurse scope policy g e = .ok none) : policy = .drop := by
  cases policy with
  | drop => rfl
  | keep =>
    rw [recurse_eq] at h
    refine absurd h (bind_ne_ok fun children hchildren => ?_)
    cases children with
    | none => exact absurd hchildren (mapEach_ne_none recurseChild_keep_ne_none e.children)
    | some cs => exact combine_keep_ne_none e cs

end Recursion

structure Call where
  value : Expr
  node : Expr

def noted {σ : Type} (note : Note σ) (calls : List Call) (s : σ) : σ :=
  calls.foldl (fun s call => note call.value call.node s) s

def CalledBelow (scope : Scope) (e : Expr) (calls : List Call) : Prop :=
  ∀ a, e.Reaches a → scope.includes a = true → a ∈ calls.map Call.node

/-- Calls in good order. Each is on a node in scope that had no call so far. It comes after those on everything
below the node, and brings the node rebuilt over what the recursion makes of its children. -/
inductive Orderly (scope : Scope) (policy : Policy) (g : Answers) : List Call → Prop
  | nil : Orderly scope policy g []
  | snoc {calls : List Call} {call : Call} {cs : List Expr} (earlier : Orderly scope policy g calls)
    (inScope : scope.includes call.node = true) (new : call.node ∉ calls.map Call.node)
    (below : ∀ c ∈ call.node.children, CalledBelow scope c calls)
    (children : mapEach (recurseChild scope policy g) call.node.children = .ok (some cs))
    (value : rebuilt policy call.node cs = .ok (some call.value)) : Orderly scope policy g (calls ++ [call])

theorem CalledBelow.append {scope : Scope} {e : Expr} {calls : List Call} (h : CalledBelow scope e calls)
    (new : List Call) : CalledBelow scope e (calls ++ new) := by
  intro a ha hscope
  rw [List.map_append]
  exact List.mem_append_left _ (h a ha hscope)

theorem calledBelow_of_children {scope : Scope} {e : Expr} {calls : List Call}
    (hself : scope.includes e = true → e ∈ calls.map Call.node)
    (hchildren : ∀ c ∈ e.children, CalledBelow scope c calls) : CalledBelow scope e calls := by
  intro a ha hscope
  cases ha with
  | refl => exact hself hscope
  | child mem reaches => exact hchildren _ mem a reaches hscope

theorem Orderly.nodup {scope : Scope} {policy : Policy} {g : Answers} {calls : List Call}
    (h : Orderly scope policy g calls) : (calls.map Call.node).Nodup := by
  induction h with
  | nil => exact List.nodup_nil
  | snoc _ _ new _ _ _ ih =>
    rw [List.map_append, List.map_singleton, ← List.concat_eq_append]
    exact List.Nodup.concat new ih

theorem Orderly.exists_rebuilt {scope : Scope} {policy : Policy} {g : Answers} {calls : List Call}
    (h : Orderly scope policy g calls) : ∀ call ∈ calls, ∃ cs,
      mapEach (recurseChild scope policy g) call.node.children = .ok (some cs) ∧
      rebuilt policy call.node cs = .ok (some call.value) := by
  induction h with
  | nil => exact List.forall_mem_nil _
  | snoc _ _ _ _ children value ih =>
    exact List.forall_mem_append.2 ⟨ih, List.forall_mem_singleton.2 ⟨_, children, value⟩⟩

theorem noted_append {σ : Type} (note : Note σ) (calls new : List Call) (s : σ) :
    noted note (calls ++ new) s = noted note new (noted note calls s) := List.foldl_append

section Tracking

variable {α β : Type} (scope : Scope) (policy : Policy) (g : Answers)

/-- A memory that belongs to the calls so far. A node has a result there only if the mapper was called on
everything below it. -/
structure Tidy (memo : Memo) (calls : List Call) : Prop where
  orderly : Orderly scope policy g calls
  known : ∀ call ∈ calls, memo.lookup call.node ≠ none
  remembers : Remembers (fun e r => recurse scope policy g e = .ok r ∧ (r ≠ none → CalledBelow scope e calls)) memo

/-- The outcome with a memory is the outcome without one. -/
inductive SameOutcome (fits : α → Memo → Prop) : Except Fault α → Except Fault (α × Memo) → Prop
  | ok {a : α} {memo : Memo} (h : fits a memo) : SameOutcome fits (.ok a) (.ok (a, memo))
  | error (fault : Fault) : SameOutcome fits (.error fault) (.error fault)

abbrev Remembering (α : Type) := (σ : Type) → Note σ → StateT Memo (ExceptT Fault (StateM σ)) α

/-- From a memory on, a computation comes to what another one comes to without any. The calls it makes are the
same whatever the state of the mapper. -/
def Tracks (within : Expr → Prop) (done : α → List Call → Prop) (memo : Memo) (calls : List Call)
    (x : Remembering α) (y : Except Fault α) : Prop :=
  ∃ new outcome, (∀ σ note s, ((x σ note).run memo).run.run s = (outcome, noted note new s)) ∧
    (∀ call ∈ new, within call.node) ∧ Orderly scope policy g (calls ++ new) ∧
    SameOutcome (fun a memo' => Tidy scope policy g memo' (calls ++ new) ∧ done a (calls ++ new)) y outcome

end Tracking

section Rules

variable {α β : Type} {scope : Scope} {policy : Policy} {g : Answers} {within : Expr → Prop} {memo : Memo}
  {calls : List Call}

theorem Tidy.tracks_pure {done : α → List Call → Prop} (h : Tidy scope policy g memo calls) {a : α}
    (ha : done a calls) : Tracks scope policy g within done memo calls (fun _ _ => pure a) (.ok a) := by
  refine ⟨[], .ok (a, memo), fun _ _ _ => rfl, List.forall_mem_nil _, ?_, .ok ?_⟩
  · rw [List.append_nil]
    exact h.orderly
  · rw [List.append_nil]
    exact ⟨h, ha⟩

theorem Tidy.tracks_lift {done : α → List Call → Prop} (h : Tidy scope policy g memo calls) {y : Except Fault α}
    (ha : ∀ a, y = .ok a → done a calls) :
    Tracks scope policy g within done memo calls (fun σ _ => liftM (lift y : ExceptT Fault (StateM σ) α)) y := by
  cases y with
  | ok a => exact h.tracks_pure (ha a rfl)
  | error fault =>
    refine ⟨[], .error fault, fun _ _ _ => rfl, List.forall_mem_nil _, ?_, .error fault⟩
    rw [List.append_nil]
    exact h.orderly

theorem Tracks.congr {done : α → List Call → Prop} {x x' : Remembering α} {y : Except Fault α}
    (h : Tracks scope policy g within done memo calls x y)
    (hrun : ∀ σ note, (x' σ note).run memo = (x σ note).run memo) :
    Tracks scope policy g within done memo calls x' y := by
  obtain ⟨new, outcome, hx, hrest⟩ := h
  refine ⟨new, outcome, fun σ note s => ?_, hrest⟩
  rw [hrun, hx]

theorem run_bind_ok {σ : Type} {x : StateT Memo (ExceptT Fault (StateM σ)) α} {memo' : Memo} {a : α} {s s' : σ}
    (h : (x.run memo).run.run s = (.ok (a, memo'), s')) (f : α → StateT Memo (ExceptT Fault (StateM σ)) β) :
    ((x >>= f).run memo).run.run s = ((f a).run memo').run.run s' := by
  rw [StateT.run_bind, ExceptT.run_bind, StateT.run_bind, h]
  rfl

theorem run_bind_error {σ : Type} {x : StateT Memo (ExceptT Fault (StateM σ)) α} {fault : Fault} {s s' : σ}
    (h : (x.run memo).run.run s = (.error fault, s')) (f : α → StateT Memo (ExceptT Fault (StateM σ)) β) :
    ((x >>= f).run memo).run.run s = (.error fault, s') := by
  rw [StateT.run_bind, ExceptT.run_bind, StateT.run_bind, h]
  rfl

theorem run_lift {σ : Type} (x : ExceptT Fault (StateM σ) α) (s : σ) :
    ((liftM x : StateT Memo (ExceptT Fault (StateM σ)) α).run memo).run.run s =
      ((x.run.run s).1.map fun a => (a, memo), (x.run.run s).2) := by
  change (x >>= fun a => pure (a, memo)).run.run s = _
  rw [ExceptT.run_bind, StateT.run_bind]
  obtain ⟨outcome, s'⟩ := x.run.run s
  cases outcome <;> rfl

theorem Tracks.bind {inner : Expr → Prop} {done : α → List Call → Prop} {done' : β → List Call → Prop}
    {x : Remembering α} {y : Except Fault α} {k : α → Except Fault β}
    {f : (σ : Type) → Note σ → α → StateT Memo (ExceptT Fault (StateM σ)) β}
    (hx : Tracks scope policy g inner done memo calls x y)
    (hinner : ∀ a, inner a → within a)
    (hf : ∀ a memo' new, y = .ok a → Tidy scope policy g memo' (calls ++ new) → (∀ call ∈ new, inner call.node) →
      done a (calls ++ new) →
      Tracks scope policy g within done' memo' (calls ++ new) (fun σ note => f σ note a) (k a)) :
    Tracks scope policy g within done' memo calls (fun σ note => x σ note >>= f σ note) (y >>= k) := by
  obtain ⟨new, outcome, hrun, hnew, horderly, hsame⟩ := hx
  have hwithin := fun call hcall => hinner _ (hnew call hcall)
  cases hsame with
  | error fault =>
    exact ⟨new, .error fault, fun σ note s => run_bind_error (hrun σ note s) _, hwithin, horderly, .error fault⟩
  | ok h =>
    obtain ⟨new', outcome', hrun', hnew', horderly', hsame'⟩ := hf _ _ new rfl h.1 hnew h.2
    rw [List.append_assoc] at horderly' hsame'
    have hboth := List.forall_mem_append.2 ⟨hwithin, hnew'⟩
    refine ⟨new ++ new', outcome', fun σ note s => ?_, hboth, horderly', hsame'⟩
    rw [run_bind_ok (hrun σ note s), hrun', noted_append]

theorem tracks_mapEach {f : (σ : Type) → Note σ → α → StateT Memo (ExceptT Fault (StateM σ)) (Option β)}
    {h : α → Except Fault (Option β)} {done : α → List Call → Prop} (as : List α)
    (hdone : ∀ a calls new, done a calls → done a (calls ++ new))
    (hstep : ∀ a ∈ as, ∀ memo calls, Tidy scope policy g memo calls →
      Tracks scope policy g within (fun r calls => r ≠ none → done a calls) memo calls
        (fun σ note => f σ note a) (h a))
    (htidy : Tidy scope policy g memo calls) :
    Tracks scope policy g within (fun r calls => r ≠ none → ∀ a ∈ as, done a calls) memo calls
      (fun σ note => mapEach (f σ note) as) (mapEach h as) := by
  induction as generalizing memo calls with
  | nil => exact htidy.tracks_pure fun _ => List.forall_mem_nil _
  | cons a as ih =>
    obtain ⟨hfirst, hrest⟩ := List.forall_mem_cons.1 hstep
    simp only [mapEach]
    refine (hfirst memo calls htidy).bind (fun _ => id) fun r memo' new _ htidy' _ ha => ?_
    cases r with
    | none => exact htidy'.tracks_pure fun hnone => absurd rfl hnone
    | some b =>
      refine (ih hrest htidy').bind (fun _ => id) fun rs memo'' new' _ htidy'' _ has => ?_
      cases rs with
      | none => exact htidy''.tracks_pure fun hnone => absurd rfl hnone
      | some bs =>
        have hfirst := hdone a _ new' (ha (Option.some_ne_none b))
        exact htidy''.tracks_pure fun _ => List.forall_mem_cons.2 ⟨hfirst, has (Option.some_ne_none bs)⟩

end Rules

section Mappings

variable {m : Type → Type} [Monad m] [LawfulMonad m] {scope : Scope} {policy : Policy} {f : Mapper m}

theorem mapFormulaMemo_eq {b : Formula} (hb : ∀ e, b.clause ≠ .nonzero e) :
    mapFormulaMemo scope policy f b = (do
      let fs ← mapEach (mapFormulaMemo scope policy f) b.operands
      liftM (lift (relayered b fs) : ExceptT Fault m _)) := by
  obtain ⟨d, c⟩ := b
  cases c with
  | const v =>
    rw [mapFormulaMemo]
    change _ = pure (some []) >>= _
    rw [pure_bind]
    simp [relayered, Formula.withOperands, Except.map, lift_ok, Formula.operands, Formula.clause, Clause.operands]
  | nonzero e => exact absurd rfl (hb e)
  | not g =>
    simp only [mapFormulaMemo, Formula.operands, Formula.clause, Clause.operands, mapEach, bind_assoc]
    refine bind_congr fun r => ?_
    cases r <;> simp [relayered, lift_ok]
  | junction k gs =>
    rw [mapFormulaMemo, mapFormulas_eq]
    refine bind_congr fun r => ?_
    cases r <;> simp [relayered, lift_ok]

end Mappings

section Calls

variable {scope : Scope} {policy : Policy} {g : Answers} {e : Expr} {memo : Memo} {calls : List Call}

def asked (scope : Scope) (policy : Policy) (e : Expr) : Option (List Expr) → List Call
  | none => []
  | some cs =>
    match rebuilt policy e cs with
    | .ok (some value) => if scope.includes e then [⟨value, e⟩] else []
    | _ => []

theorem run_settle {σ : Type} (note : Note σ) (children : Option (List Expr)) (s : σ) :
    (settle scope policy (answering g note) e children).run.run s =
      (combine scope policy g e children, noted note (asked scope policy e children) s) := by
  cases children with
  | none => rfl
  | some cs =>
    rw [settle, combine, asked]
    cases rebuilt policy e cs with
    | error fault => rfl
    | ok value =>
      cases value with
      | none => rfl
      | some value =>
        simp only [lift_ok, pure_bind]
        cases scope.includes e with
        | false => rfl
        | true =>
          have hmap : (answering g note).map value e = ExceptT.mk fun s => (g value e, note value e s) := rfl
          change _ = (g value e >>= fun r => pure (r.or (policy.fallback value)), note value e s)
          rw [if_pos rfl, applied, hmap]
          cases g value e <;> rfl

variable (scope policy e) in
theorem asked_cases (children : Option (List Expr)) :
    asked scope policy e children = [] ∨ ∃ cs value, children = some cs ∧ scope.includes e = true ∧
      rebuilt policy e cs = .ok (some value) ∧ asked scope policy e children = [⟨value, e⟩] := by
  cases children with
  | none => exact .inl rfl
  | some cs =>
    rw [asked]
    split
    · rename_i value hvalue
      split
      · rename_i hscope
        exact .inr ⟨cs, value, rfl, hscope, hvalue, rfl⟩
      · exact .inl rfl
    · exact .inl rfl

theorem asked_of_combine {children : Option (List Expr)} {r : Option Expr}
    (h : combine scope policy g e children = .ok r) (hr : r ≠ none) :
    children ≠ none ∧ (scope.includes e = true → e ∈ (asked scope policy e children).map Call.node) := by
  cases children with
  | none =>
    cases h
    exact absurd rfl hr
  | some cs =>
    refine ⟨Option.some_ne_none cs, fun hscope => ?_⟩
    rw [combine] at h
    rw [asked]
    cases hvalue : rebuilt policy e cs with
    | error fault =>
      rw [hvalue] at h
      cases h
    | ok value =>
      rw [hvalue] at h
      cases value with
      | none =>
        cases h
        exact absurd rfl hr
      | some value => simp [hscope]

theorem Tidy.remember {new : List Call} {r : Option Expr} (h : Tidy scope policy g memo calls)
    (horderly : Orderly scope policy g (calls ++ new)) (hnew : ∀ call ∈ new, call.node = e)
    (hr : recurse scope policy g e = .ok r) (hbelow : r ≠ none → CalledBelow scope e (calls ++ new)) :
    Tidy scope policy g ((e, r) :: memo) (calls ++ new) where
  orderly := horderly
  known call hcall := by
    rw [List.lookup_cons]
    split
    · exact Option.some_ne_none r
    · rename_i hne
      rcases List.mem_append.1 hcall with hcall | hcall
      · exact h.known call hcall
      · rw [hnew call hcall, beq_self_eq_true] at hne
        cases hne
  remembers := by
    have hearlier : Remembers (fun e r => recurse scope policy g e = .ok r ∧
        (r ≠ none → CalledBelow scope e (calls ++ new))) memo := by
      intro a r' hlookup
      obtain ⟨hr', hbelow'⟩ := h.remembers a r' hlookup
      exact ⟨hr', fun hsome => (hbelow' hsome).append new⟩
    exact hearlier.cons ⟨hr, hbelow⟩

/-- The end of mapping a node: the mapper is called where it is to be, and the result is remembered. -/
theorem Tidy.tracks_settle {children : Option (List Expr)} (h : Tidy scope policy g memo calls)
    (hchildren : mapEach (recurseChild scope policy g) e.children = .ok children)
    (hbelow : children ≠ none → ∀ c ∈ e.children, CalledBelow scope c calls)
    (hnew : e ∉ calls.map Call.node) :
    Tracks scope policy g e.Reaches (fun r calls => r ≠ none → CalledBelow scope e calls) memo calls
      (fun σ note => do
        let r ← (settle scope policy (answering g note) e children : ExceptT Fault (StateM σ) _)
        modify ((e, r) :: ·)
        pure r) (combine scope policy g e children) := by
  have hnode : ∀ call ∈ asked scope policy e children, call.node = e := by
    rcases asked_cases scope policy e children with hasked | ⟨_, _, -, -, -, hasked⟩
    · simp [hasked]
    · simp [hasked]
  have horderly : Orderly scope policy g (calls ++ asked scope policy e children) := by
    rcases asked_cases scope policy e children with hasked | ⟨cs, value, rfl, hscope, hvalue, hasked⟩
    · rw [hasked, List.append_nil]
      exact h.orderly
    · rw [hasked]
      exact h.orderly.snoc hscope hnew (hbelow (Option.some_ne_none cs)) hchildren hvalue
  have hwithin : ∀ call ∈ asked scope policy e children, e.Reaches call.node := by
    intro call hcall
    rw [hnode call hcall]
    exact .refl e
  cases hr : combine scope policy g e children with
  | error fault =>
    refine ⟨_, .error fault, fun σ note s => run_bind_error ?_ _, hwithin, horderly, .error fault⟩
    rw [run_lift, run_settle, hr]
    rfl
  | ok r =>
    have hdone : r ≠ none → CalledBelow scope e (calls ++ asked scope policy e children) := by
      intro hsome
      obtain ⟨hmapped, hself⟩ := asked_of_combine hr hsome
      refine calledBelow_of_children (fun hscope => ?_) fun c hc => (hbelow hmapped c hc).append _
      rw [List.map_append]
      exact List.mem_append_right _ (hself hscope)
    have hrecurse : recurse scope policy g e = .ok r := by
      rw [recurse_eq, hchildren]
      exact hr
    refine ⟨_, .ok (r, (e, r) :: memo), fun σ note s => run_bind_ok (a := r) ?_ _, hwithin, horderly,
      .ok ⟨h.remember horderly hnode hrecurse hdone, hdone⟩⟩
    rw [run_lift, run_settle, hr]
    rfl

theorem tracks_mapChild {c : Expr} {within : Expr → Prop} (hwithin : ∀ a, c.Reaches a → within a)
    (h : Tracks scope policy g c.Reaches (fun r calls => r ≠ none → CalledBelow scope c calls) memo calls
      (fun _ note => mapExpr scope policy (answering g note) c) (recurse scope policy g c)) :
    Tracks scope policy g within (fun r calls => r ≠ none → CalledBelow scope c calls) memo calls
      (fun _ note => mapChild scope policy (answering g note) c) (recurseChild scope policy g c) := by
  refine h.bind hwithin fun r memo' new hr htidy _ hdone => htidy.tracks_pure fun hsome => ?_
  cases r with
  | some c' => exact hdone (Option.some_ne_none c')
  | none =>
    cases eq_drop_of_recurse hr
    exact absurd rfl hsome

theorem tracks_mapExpr (e : Expr) (htidy : Tidy scope policy g memo calls) :
    Tracks scope policy g e.Reaches (fun r calls => r ≠ none → CalledBelow scope e calls) memo calls
      (fun _ note => mapExpr scope policy (answering g note) e) (recurse scope policy g e) := by
  induction e using Expr.inductionOnParts generalizing memo calls with
  | step e ih =>
    cases hmemo : memo.lookup e with
    | some r =>
      obtain ⟨hr, hbelow⟩ := htidy.remembers e r hmemo
      rw [hr]
      exact (htidy.tracks_pure hbelow).congr fun _ _ => run_mapExpr_hit hmemo
    | none =>
      rw [recurse_eq]
      have hchildren : Tracks scope policy g (fun a => ∃ c ∈ e.children, c.Reaches a)
          (fun rs calls => rs ≠ none → ∀ c ∈ e.children, CalledBelow scope c calls) memo calls
          (fun _ note => mapEach (mapChild scope policy (answering g note)) e.children)
          (mapEach (recurseChild scope policy g) e.children) :=
        tracks_mapEach e.children (fun _ _ new h => h.append new) (fun c hc _ _ htidy =>
          tracks_mapChild (fun a ha => ⟨c, hc, ha⟩) (ih c (Expr.mem_parts_of_mem_children hc) htidy)) htidy
      refine Tracks.congr (hchildren.bind ?_ fun children memo' new hcs htidy' hnew hbelow => ?_)
        fun _ _ => run_mapExpr_miss hmemo
      · rintro a ⟨c, hc, ha⟩
        exact .child hc ha
      refine htidy'.tracks_settle hcs hbelow fun hmem => ?_
      -- The node has no call yet: it was not remembered, and what is below it is smaller.
      obtain ⟨call, hcall, rfl⟩ := List.mem_map.1 hmem
      rcases List.mem_append.1 hcall with hcall | hcall
      · exact htidy.known call hcall hmemo
      · obtain ⟨c, hc, hreaches⟩ := hnew call hcall
        have hchild := Expr.sizeOf_lt_of_mem_children hc
        have hle := hreaches.sizeOf_le
        omega

theorem tracks_mapFormulaMemo {within : Expr → Prop} (b : Formula)
    (hwithin : ∀ t ∈ b.terms, ∀ a, t.Reaches a → within a) (htidy : Tidy scope policy g memo calls) :
    Tracks scope policy g within (fun r calls => r ≠ none → ∀ t ∈ b.terms, CalledBelow scope t calls) memo calls
      (fun _ note => mapFormulaMemo scope policy (answering g note) b) (recurseFormula scope policy g b) := by
  induction b using Formula.inductionOnOperands generalizing memo calls with
  | step b ih =>
    by_cases htest : ∃ e, b.clause = .nonzero e
    · obtain ⟨e, he⟩ := htest
      obtain ⟨d, c⟩ := b
      cases he
      have hterms : (Formula.node d (.nonzero e)).terms = [e] := by rw [Formula.terms]
      rw [hterms, List.forall_mem_singleton] at hwithin
      rw [recurseFormula_nonzero]
      simp only [mapFormulaMemo, hterms, List.forall_mem_singleton]
      refine (tracks_mapExpr e htidy).bind hwithin fun r memo' new _ htidy' _ hdone => ?_
      cases r with
      | none => exact htidy'.tracks_pure fun hnone => absurd rfl hnone
      | some e' => exact htidy'.tracks_pure fun _ => hdone (Option.some_ne_none e')
    · have hb : ∀ e, b.clause ≠ .nonzero e := fun e he => htest ⟨e, he⟩
      have hoperands : Tracks scope policy g within
          (fun rs calls => rs ≠ none → ∀ f ∈ b.operands, ∀ t ∈ f.terms, CalledBelow scope t calls) memo calls
          (fun _ note => mapEach (mapFormulaMemo scope policy (answering g note)) b.operands)
          (mapEach (recurseFormula scope policy g) b.operands) :=
        tracks_mapEach b.operands (fun _ _ new h t ht => (h t ht).append new) (fun f hf _ _ htidy =>
          ih f hf (fun t ht => hwithin t (Formula.mem_terms_of_mem_operands hf ht)) htidy) htidy
      rw [recurseFormula_eq _ _ _ hb]
      simp only [mapFormulaMemo_eq hb]
      refine hoperands.bind (fun _ => id) fun rs memo' new _ htidy' _ hdone => ?_
      refine htidy'.tracks_lift fun r hr hsome => ?_
      cases rs with
      | none =>
        cases hr
        exact absurd rfl hsome
      | some fs =>
        intro t ht
        obtain ⟨f, hf, htf⟩ := Formula.exists_mem_operands hb ht
        exact hdone (Option.some_ne_none fs) f hf t htf

theorem tidy_nil : Tidy scope policy g [] [] where
  orderly := .nil
  known := List.forall_mem_nil _
  remembers := remembers_nil

theorem Tracks.exists_calls {α : Type} {within : Expr → Prop} {done : α → List Call → Prop} {x : Remembering α}
    {y : Except Fault α} (h : Tracks scope policy g within done [] [] x y) :
    ∃ calls, (∀ σ note s, ((x σ note).run' []).run.run s = (y, noted note calls s)) ∧
      Orderly scope policy g calls ∧ (calls.map Call.node).Nodup ∧ (∀ call ∈ calls, within call.node) ∧
      ∀ a, y = .ok a → done a calls := by
  obtain ⟨calls, outcome, hrun, hwithin, horderly, hsame⟩ := h
  refine ⟨calls, fun σ note s => ?_, horderly, horderly.nodup, hwithin, fun a ha => ?_⟩
  · rw [StateT.run'_eq, ExceptT.run_map, StateT.run_map, hrun]
    cases hsame <;> rfl
  · cases hsame with
    | ok h =>
      cases ha
      exact h.2
    | error fault => cases ha

end Calls

variable (scope : Scope) (policy : Policy) (g : Answers)

/-- A mapping comes to what the recursion comes to, whatever the mapper's own state is and however it changes.
The mapper is called at most once on each node, in scope and below what is mapped, after it was called on all
that is below that node; and where there is a result, it was called on all of them. -/
theorem mapping_follows_recursion :
    (∀ e : Expr, ∃ calls : List Call,
      (∀ (σ : Type) (note : Note σ) (s : σ), (map scope policy (answering g note) e).run.run s =
        (recurse scope policy g e, noted note calls s)) ∧
      Orderly scope policy g calls ∧ (calls.map Call.node).Nodup ∧ (∀ call ∈ calls, e.Reaches call.node) ∧
      ∀ r, recurse scope policy g e = .ok r → r ≠ none → CalledBelow scope e calls) ∧
    ∀ b : Formula, ∃ calls : List Call,
      (∀ (σ : Type) (note : Note σ) (s : σ), (mapFormula scope policy (answering g note) b).run.run s =
        (recurseFormula scope policy g b, noted note calls s)) ∧
      Orderly scope policy g calls ∧ (calls.map Call.node).Nodup ∧
      (∀ call ∈ calls, ∃ t ∈ b.terms, t.Reaches call.node) ∧
      ∀ r, recurseFormula scope policy g b = .ok r → r ≠ none → ∀ t ∈ b.terms, CalledBelow scope t calls := by
  constructor
  · intro e
    exact (tracks_mapExpr e tidy_nil).exists_calls
  · intro b
    have hwithin : ∀ t ∈ b.terms, ∀ a, t.Reaches a → ∃ t ∈ b.terms, t.Reaches a := fun t ht a ha => ⟨t, ht, ha⟩
    exact (tracks_mapFormulaMemo b hwithin tidy_nil).exists_calls

end Retrace.Walk
