import Retrace.Walk.Map
import Mathlib.Data.List.Forall2

/-!
What a computation can return. Mappers and expanders act in a monad of their own, so what a traversal
makes of its input is said of every value it can return, whatever the mapper does on the way. A traversal
moreover may throw, end early and remember results: what its steps are sure to give, one after the other,
is followed through all of these at once.
-/

set_option autoImplicit false

namespace Retrace

class Returning (m : Type → Type) [Monad m] extends LawfulMonad m where
  Returns {α : Type} (x : m α) (a : α) : Prop
  of_pure {α : Type} {a b : α} : Returns (pure a) b → b = a
  of_bind {α β : Type} {x : m α} {f : α → m β} {b : β} :
    Returns (x >>= f) b → ∃ a, Returns x a ∧ Returns (f a) b

export Returning (Returns)

namespace Returning

variable {m : Type → Type} [Monad m] [Returning m] {α β ε σ : Type}

theorem of_map {x : m α} {f : α → β} {b : β} (h : Returns (f <$> x) b) : ∃ a, Returns x a ∧ b = f a := by
  rw [map_eq_pure_bind] at h
  obtain ⟨a, ha, hb⟩ := of_bind h
  exact ⟨a, ha, of_pure hb⟩

instance : Returning Id where
  Returns x a := x = a
  of_pure h := h.symm
  of_bind h := ⟨_, rfl, h⟩

instance : Returning (Except ε) where
  Returns x a := x = .ok a
  of_pure h := (Except.ok.inj h).symm
  of_bind := by
    intro _ _ x f b h
    cases x with
    | error e => cases h
    | ok a => exact ⟨a, rfl, h⟩

instance : Returning Option where
  Returns x a := x = some a
  of_pure h := (Option.some.inj h).symm
  of_bind h := Option.bind_eq_some_iff.1 h

instance : Returning (StateM σ) where
  Returns x a := ∃ s, (x.run s).1 = a
  of_pure := by
    rintro _ a b ⟨s, h⟩
    exact h.symm
  of_bind := by
    rintro _ _ x f b ⟨s, h⟩
    exact ⟨_, ⟨s, rfl⟩, _, h⟩

instance : Returning (ExceptT ε m) where
  Returns x a := Returns x.run (.ok a)
  of_pure h := Except.ok.inj (of_pure h)
  of_bind h := by
    obtain ⟨r, hr, hb⟩ := of_bind (m := m) h
    cases r with
    | ok a => exact ⟨a, hr, hb⟩
    | error e => cases of_pure hb

end Returning

/-- A reading of "what the computation gives has the property" that goes with doing one thing after the
other. -/
structure Guarantee (n : Type → Type) [Monad n] where
  Gives {α : Type} (x : n α) (p : α → Prop) : Prop
  pure {α : Type} {a : α} {p : α → Prop} : p a → Gives (Pure.pure a) p
  bind {α β : Type} {x : n α} {f : α → n β} {p : α → Prop} {q : β → Prop} :
    Gives x p → (∀ a, p a → Gives (f a) q) → Gives (x >>= f) q

namespace Guarantee

def returned (m : Type → Type) [Monad m] [Returning m] : Guarantee m where
  Gives x p := ∀ a, Returns x a → p a
  pure hp a ha := by
    cases Returning.of_pure ha
    exact hp
  bind hx hf b hb := by
    obtain ⟨a, ha, hb⟩ := Returning.of_bind hb
    exact hf a (hx a ha) b hb

/-- The computation comes to an end, with a value that has the property. -/
def ending : Guarantee Option where
  Gives x p := ∃ a, x = some a ∧ p a
  pure hp := ⟨_, rfl, hp⟩
  bind := by
    rintro _ _ _ f p q ⟨a, rfl, hp⟩ hf
    exact hf a hp

variable {n : Type → Type} [Monad n] (G : Guarantee n) {α β ε σ : Type} {p p' : α → Prop}
  {q : ε → Prop} {I : σ → Prop}

def Outcome (p : α → Prop) (q : ε → Prop) : Except ε α → Prop
  | .ok a => p a
  | .error e => q e

theorem Outcome.bind {r : β → Prop} {x : Except ε α} {f : α → Except ε β} (hx : Outcome p q x)
    (hf : ∀ a, p a → Outcome r q (f a)) : Outcome r q (x >>= f) := by
  cases x with
  | ok a => exact hf a hx
  | error e => exact hx

theorem Outcome.map {r : β → Prop} {x : Except ε α} {f : α → β} (hx : Outcome p q x) (hf : ∀ a, p a → r (f a)) :
    Outcome r q (x.map f) := by
  cases x with
  | ok a => exact hf a hx
  | error e => exact hx

/-- Where every result goes with `W` and every exception against it, there is a result if and only if `W` holds. -/
theorem Outcome.decides {W : Prop} {x : Except ε α} (hx : Outcome (fun a => W ∧ p a) q x) (hq : ∀ e, q e → ¬ W) :
    ((∃ a, x = .ok a) ↔ W) ∧ (∀ a, x = .ok a → p a) ∧ ∀ e, x = .error e → q e := by
  cases x with
  | ok a =>
    refine ⟨iff_of_true ⟨a, rfl⟩ hx.1, fun b hb => ?_, fun e he => ?_⟩
    · cases hb
      exact hx.2
    · cases he
  | error e =>
    refine ⟨iff_of_false ?_ (hq e hx), fun b hb => ?_, fun e' he' => ?_⟩
    · rintro ⟨a, ha⟩
      cases ha
    · cases hb
    · cases he'
      exact hx

def throwing (q : ε → Prop) : Guarantee (ExceptT ε n) where
  Gives x p := G.Gives x.run (Outcome p q)
  pure hp := G.pure hp
  bind hx hf := by
    rw [ExceptT.run_bind]
    refine G.bind hx fun r hr => ?_
    cases r with
    | ok a => exact hf a hr
    | error e => exact G.pure hr

def keeping (I : σ → Prop) : Guarantee (StateT σ n) where
  Gives x p := ∀ s, I s → G.Gives (x.run s) fun r => p r.1 ∧ I r.2
  pure hp s hs := by
    rw [StateT.run_pure]
    exact G.pure ⟨hp, hs⟩
  bind hx hf s hs := by
    rw [StateT.run_bind]
    exact G.bind (hx s hs) fun r hr => hf r.1 hr.1 r.2 hr.2

abbrev sure (m : Type → Type) [Monad m] [Returning m] : Guarantee (ExceptT Fault m) :=
  (returned m).throwing fun _ => False

theorem sure_iff {x : ExceptT Fault (StateM σ) α} :
    (sure (StateM σ)).Gives x p ↔ ∀ s, ∃ a, (x.run.run s).1 = .ok a ∧ p a := by
  constructor
  · intro h s
    cases hr : (x.run.run s).1 with
    | ok a => exact ⟨a, rfl, h (.ok a) ⟨s, hr⟩⟩
    | error e => exact (h (.error e) ⟨s, hr⟩).elim
  · rintro h _ ⟨s, rfl⟩
    obtain ⟨a, ha, hp⟩ := h s
    rw [ha]
    exact hp

theorem exists_of_sure_id {x : ExceptT Fault Id α} (h : (sure Id).Gives x p) : ∃ a, x.run = .ok a ∧ p a := by
  cases hr : x.run with
  | ok a => exact ⟨a, rfl, h (.ok a) hr⟩
  | error e => exact (h (.error e) hr).elim

theorem exists_of_ending {x : ExceptT Fault Option α} (h : (ending.throwing fun _ => False).Gives x p) :
    ∃ a, x.run = some (.ok a) ∧ p a := by
  obtain ⟨r, hr, hp⟩ := h
  cases r with
  | ok a => exact ⟨a, hr, hp⟩
  | error e => exact hp.elim

theorem throwing_throw {e : ε} (h : q e) : (G.throwing q).Gives (throw e : ExceptT ε n α) p :=
  G.pure (p := Outcome p q) h

theorem keeping_get : (G.keeping I).Gives (get : StateT σ n σ) I :=
  fun _ hs => G.pure ⟨hs, hs⟩

theorem keeping_modify {f : σ → σ} (h : ∀ s, I s → I (f s)) :
    (G.keeping I).Gives (modify f : StateT σ n PUnit) fun _ => True :=
  fun s hs => G.pure ⟨trivial, h s hs⟩

theorem keeping_lift {x : n α} (h : G.Gives x p) : (G.keeping I).Gives (monadLift x : StateT σ n α) p :=
  fun _ hs => G.bind h fun _ ha => G.pure ⟨ha, hs⟩

theorem foldlM {g : σ → α → n σ} (as : List α) {s : σ} (hs : I s)
    (hg : ∀ s, ∀ a ∈ as, I s → G.Gives (g s a) I) : G.Gives (as.foldlM g s) I := by
  induction as generalizing s with
  | nil => exact G.pure hs
  | cons a as ih =>
    obtain ⟨ha, has⟩ : (∀ s, I s → G.Gives (g s a) I) ∧ ∀ s, ∀ b ∈ as, I s → G.Gives (g s b) I :=
      ⟨fun s => hg s a List.mem_cons_self, fun s b hb => hg s b (List.mem_cons_of_mem a hb)⟩
    rw [List.foldlM_cons]
    exact G.bind (ha s hs) fun t ht => ih ht has

variable [LawfulMonad n]

theorem imp {x : n α} (hx : G.Gives x p) (h : ∀ a, p a → p' a) : G.Gives x p' := by
  rw [← bind_pure x]
  exact G.bind hx fun a ha => G.pure (h a ha)

theorem map {x : n α} {f : α → β} {r : β → Prop} (hx : G.Gives x p) (h : ∀ a, p a → r (f a)) :
    G.Gives (f <$> x) r := by
  rw [map_eq_pure_bind]
  exact G.bind hx fun a ha => G.pure (h a ha)

theorem throwing_lift {x : n α} (h : G.Gives x p) :
    (G.throwing q).Gives (ExceptT.lift x : ExceptT ε n α) p :=
  G.map h fun _ ha => ha

theorem keeping_run' {x : StateT σ n α} {s : σ} (h : (G.keeping I).Gives x p) (hs : I s) :
    G.Gives (x.run' s) p := by
  rw [StateT.run'_eq]
  exact G.map (h s hs) fun _ hr => hr.1

theorem mapM {R : α → β → Prop} {f : α → n β} (as : List α) (h : ∀ a ∈ as, G.Gives (f a) (R a)) :
    G.Gives (as.mapM f) (List.Forall₂ R as) := by
  induction as with
  | nil => exact G.pure .nil
  | cons a as ih =>
    obtain ⟨ha, has⟩ := List.forall_mem_cons.1 h
    rw [List.mapM_cons]
    exact G.bind ha fun b hb => G.bind (ih has) fun bs hbs => G.pure (.cons hb hbs)

end Guarantee
end Retrace
