import Retrace.Proofs.Expr.Attachment
import Mathlib.Data.List.Chain
import Mathlib.Data.List.Nodup

/-!
Locations taken apart along their targets and put together again. Going from exchangeable target to
exchangeable target leads from a location to its base; whatever stands on the way can be exchanged for the
empty expression, and what remains then leads from it back to the location.
-/

set_option autoImplicit false

namespace Retrace.Expr

inductive RestsOn : Expr → Expr → Prop
  | refl (e : Expr) : RestsOn e e
  | base {e b s : Expr} (base : e.base? = some b) (rests : RestsOn b s) : RestsOn e s

/-- A property that passes from the exchangeable target of a node to the node holds of every node. -/
theorem inductionOnBase {motive : Expr → Prop} (ground : ∀ e : Expr, e.base? = none → motive e)
    (step : ∀ e b : Expr, e.base? = some b → motive b → motive e) (e : Expr) : motive e := by
  induction e using inductionOnParts with
  | step e ih =>
    cases hb : e.base? with
    | none => exact ground e hb
    | some b => exact step e b hb (ih b (mem_parts_of_base? hb))

variable {e b v sub : Expr}

theorem forall_restsOn_ground {p : Expr → Prop} (hb : e.base? = none) (here : p e) :
    ∀ s, e.RestsOn s → p s := by
  intro s h
  cases h with
  | refl => exact here
  | base base =>
    rw [hb] at base
    cases base

theorem forall_restsOn_base {p : Expr → Prop} (hb : e.base? = some b) (here : p e)
    (below : ∀ s, b.RestsOn s → p s) : ∀ s, e.RestsOn s → p s := by
  intro s h
  cases h with
  | refl => exact here
  | base base rests =>
    rw [hb] at base
    cases base
    exact below s rests

theorem spine_of_none (hb : e.base? = none) : e.spine = [e] := by
  rw [spine_eq, hb]
  rfl

theorem spine_of_base (hb : e.base? = some b) : e.spine = e :: b.spine := by
  rw [spine_eq, hb]
  rfl

theorem spine_ne_nil (e : Expr) : e.spine ≠ [] := by
  rw [spine_eq]
  exact List.cons_ne_nil _ _

theorem mem_spine_iff : sub ∈ e.spine ↔ e.RestsOn sub := by
  induction e using inductionOnBase with
  | ground e hb =>
    rw [spine_of_none hb, List.mem_singleton]
    refine ⟨?_, forall_restsOn_ground (p := (· = e)) hb rfl sub⟩
    rintro rfl
    exact .refl sub
  | step e b hb ih =>
    rw [spine_of_base hb, List.mem_cons, ih]
    refine ⟨?_, forall_restsOn_base (p := fun s => s = e ∨ b.RestsOn s) hb (.inl rfl) (fun _ => .inr) sub⟩
    rintro (rfl | h)
    · exact .refl sub
    · exact .base hb h

theorem isChain_spine (e : Expr) : e.spine.IsChain fun a b => a.base? = some b := by
  induction e using inductionOnBase with
  | ground e hb =>
    rw [spine_of_none hb]
    exact .singleton e
  | step e b hb ih =>
    rw [spine_of_base hb]
    refine ih.cons fun a ha => ?_
    rw [spine_eq] at ha
    cases ha
    exact hb

theorem sizeOf_le_of_restsOn (h : e.RestsOn sub) : sizeOf sub ≤ sizeOf e := by
  induction h with
  | refl => exact Nat.le_refl _
  | base base _ ih => exact Nat.le_trans ih (Nat.le_of_lt (sizeOf_lt_of_base? base))

theorem ne_of_restsOn_base (hb : e.base? = some b) (h : b.RestsOn sub) : e ≠ sub := by
  rintro rfl
  have hle := sizeOf_le_of_restsOn h
  have hlt := sizeOf_lt_of_base? hb
  omega

theorem nodup_spine (e : Expr) : e.spine.Nodup := by
  induction e using inductionOnBase with
  | ground e hb =>
    rw [spine_of_none hb]
    exact List.nodup_singleton e
  | step e b hb ih =>
    rw [spine_of_base hb]
    refine List.nodup_cons.2 ⟨fun hmem => ?_, ih⟩
    exact ne_of_restsOn_base hb (mem_spine_iff.1 hmem) rfl

theorem rebase_cons (path : List Expr) : rebase v (e :: path) = rebase v path >>= e.replaceTarget := by
  rw [rebase, List.foldrM_cons]
  rfl

section Relative

theorem isRelative_base (hb : e.base? = some b) : e.isRelative = b.isRelative := by
  have htarget : e.target? = some b := by
    obtain ⟨d, s⟩ := e
    cases s with
    | clobber => cases hb
    | _ => exact hb
  obtain ⟨first, rest, hchain⟩ : ∃ first rest, b.chain = first :: rest := ⟨b, _, chain_eq b⟩
  rw [isRelative, chain_eq, htarget]
  simp [isRelative, hchain, List.getLast?_cons_cons]

theorem isRelative_of_restsOn (h : e.RestsOn empty) : e.isRelative = true := by
  generalize hend : empty = s at h
  induction h with
  | refl =>
    cases hend
    rfl
  | base base _ ih => rw [isRelative_base base, ih hend]

theorem getLast?_spine_base (hb : e.base? = some b) : e.spine.getLast? = b.spine.getLast? := by
  rw [spine_of_base hb, spine_eq b, List.getLast?_cons_cons]

theorem getLast?_spine_of_restsOn (h : e.RestsOn empty) : e.spine.getLast? = some empty := by
  generalize hend : empty = s at h ⊢
  induction h with
  | refl =>
    cases hend
    rfl
  | base base _ ih => rw [getLast?_spine_base base, ih hend]

theorem compose_empty (v : Expr) : compose v empty = .ok v := rfl

theorem compose_eq_rebase (h : e.RestsOn empty) : compose v e = rebase v e.spine.dropLast := by
  rw [compose, isRelative_of_restsOn h, getLast?_spine_of_restsOn h]
  rfl

theorem compose_base (hb : e.base? = some b) (h : b.RestsOn empty) :
    compose v e = compose v b >>= e.replaceTarget := by
  rw [compose_eq_rebase (.base hb h), compose_eq_rebase h, spine_of_base hb,
    List.dropLast_cons_of_ne_nil (spine_ne_nil b), rebase_cons]

end Relative

section Remainders

/-- What remains of a location over something that it rests on: nothing, or its last layer on what remains of
its target. -/
structure Remains (e sub rem : Expr) : Prop where
  obtainable : rem.Obtainable
  offset : rem.RestsOn empty
  leadsBack : compose sub rem = .ok e
  layer : rem = empty ∨ ∃ t, rem = of (e.shape.onto t)

theorem obtainable_empty : empty.Obtainable := .make (s := .empty) (List.forall_mem_nil _) rfl

theorem remains_self (e : Expr) : Remains e e empty :=
  ⟨obtainable_empty, .refl empty, compose_empty e, .inl rfl⟩

theorem Obtainable.suits_remainder {rem : Expr} (he : e.Obtainable) (hb : e.base? = some b)
    (h : rem = empty ∨ ∃ t, rem = of (b.shape.onto t)) :
    e.shape.suits rem = true ∧ e.undone? rem = none := by
  rcases h with rfl | ⟨t, rfl⟩
  · refine ⟨Shape.suits_of_isLvalueTarget _ rfl, undone?_eq_none_iff.2 ?_⟩
    intro step c _ inner step' _ hshape
    cases hshape
  · rw [(interchangeable_onto (shape_of _)).suits_eq]
    exact ⟨he.suits_base hb, undone?_onto (he.undone?_base hb) t⟩

theorem exists_rebase (he : e.Obtainable) (h : e.RestsOn sub) :
    ∃ rem, rebase empty (e.spine.takeWhile (· ≠ sub)) = .ok rem ∧ Remains e sub rem := by
  induction h with
  | refl e =>
    refine ⟨empty, ?_, remains_self e⟩
    rw [spine_eq, List.takeWhile_cons_of_neg (by simp)]
    rfl
  | @base e b s base rests ih =>
    obtain ⟨rem, hrem, hremains⟩ := ih (he.base base)
    obtain ⟨hsuits, hforward⟩ := he.suits_remainder base hremains.layer
    have hnew := attach_of_none hforward
    have hbase : (of (e.shape.onto rem)).base? = some rem := Shape.base?_onto base rem
    refine ⟨of (e.shape.onto rem), ?_, ?_, .base hbase hremains.offset, ?_, .inr ⟨rem, rfl⟩⟩
    · have hne : e ≠ s := ne_of_restsOn_base base rests
      rw [spine_of_base base, List.takeWhile_cons_of_pos (by simpa using hne), rebase_cons, hrem, ← hnew]
      exact he.replaceTarget_eq base hsuits
    · rw [← hnew]
      exact he.attach base hremains.obtainable hsuits
    · rw [compose_base hbase hremains.offset, hremains.leadsBack]
      change (of (e.shape.onto rem)).replaceTarget b = .ok e
      rw [replaceTarget_of_onto base]
      exact he.replaceTarget_base base

theorem exists_remainder? (he : e.Obtainable) (h : e.RestsOn sub) :
    ∃ rem, e.remainder? sub = .ok (some rem) ∧ Remains e sub rem := by
  obtain ⟨rem, hrem, hremains⟩ := exists_rebase he h
  refine ⟨rem, ?_, hremains⟩
  rw [remainder?, if_pos (mem_spine_iff.2 h), hrem]
  rfl

theorem remainder?_eq_none (h : ¬ e.RestsOn sub) : e.remainder? sub = .ok none := by
  rw [remainder?, if_neg (mem_spine_iff.not.2 h)]

theorem remainder?_self (e : Expr) : e.remainder? e = .ok (some empty) := by
  rw [remainder?, if_pos (mem_spine_iff.2 (.refl e)), spine_eq, List.takeWhile_cons_of_neg (by simp)]
  rfl

end Remainders

section Splits

theorem foldlM_append_pairs {α β ε : Type} {step : List (α × β) → α → Except ε (List (α × β))}
    {R : α → β → Prop} (as : List α) (found : List (α × β))
    (h : ∀ a ∈ as, ∃ b, R a b ∧ ∀ found, step found a = .ok (found ++ [(a, b)])) :
    ∃ pairs, as.foldlM step found = .ok (found ++ pairs) ∧ pairs.map Prod.fst = as ∧
      ∀ p ∈ pairs, R p.1 p.2 := by
  induction as generalizing found with
  | nil => exact ⟨[], by rw [List.append_nil]; rfl, rfl, List.forall_mem_nil _⟩
  | cons a as ih =>
    obtain ⟨ha, has⟩ := List.forall_mem_cons.1 h
    obtain ⟨b, hb, hstep⟩ := ha
    obtain ⟨pairs, hpairs, hfirst, hall⟩ := ih (found ++ [(a, b)]) has
    refine ⟨(a, b) :: pairs, ?_, ?_, List.forall_mem_cons.2 ⟨hb, hall⟩⟩
    · rw [List.foldlM_cons, hstep found]
      change as.foldlM step (found ++ [(a, b)]) = _
      rw [hpairs, List.append_assoc, List.singleton_append]
    · rw [List.map_cons, hfirst]

theorem exists_splits (he : e.Obtainable) :
    ∃ pairs, e.splits = .ok pairs ∧ pairs.map Prod.fst = e.spine.reverse ∧
      ∀ p ∈ pairs, e.remainder? p.1 = .ok (some p.2) ∧ Remains e p.1 p.2 := by
  refine foldlM_append_pairs (R := fun sub rem => e.remainder? sub = .ok (some rem) ∧ Remains e sub rem)
    e.spine.reverse [] fun sub hsub => ?_
  obtain ⟨rem, hrem, hremains⟩ := exists_remainder? he (mem_spine_iff.1 (List.mem_reverse.1 hsub))
  exact ⟨rem, ⟨hrem, hremains⟩, fun found => by rw [hrem]; rfl⟩

/-- A location is split, base first, at everything it rests on, each time into that and a relative remainder
that leads back to the location. There is no remainder over anything else. -/
theorem splits_lead_back (he : e.Obtainable) :
    ∃ pairs, e.splits = .ok pairs ∧
      (pairs.map Prod.fst).IsChain (fun a b => b.base? = some a) ∧ (pairs.map Prod.fst).Nodup ∧
      (∀ s, s ∈ pairs.map Prod.fst ↔ e.RestsOn s) ∧
      pairs.getLast? = some (e, empty) ∧
      (∀ p ∈ pairs, e.remainder? p.1 = .ok (some p.2) ∧ p.2.isRelative = true ∧ compose p.1 p.2 = .ok e) ∧
      ∀ s, ¬ e.RestsOn s → e.remainder? s = .ok none := by
  obtain ⟨pairs, hpairs, hfirst, hall⟩ := exists_splits he
  refine ⟨pairs, hpairs, ?_, ?_, fun s => ?_, ?_, fun p hp => ?_, fun s => remainder?_eq_none⟩
  · rw [hfirst, List.isChain_reverse]
    exact isChain_spine e
  · rw [hfirst, List.nodup_reverse]
    exact nodup_spine e
  · rw [hfirst, List.mem_reverse, mem_spine_iff]
  · -- The spine starts with the location, whose remainder over itself is empty.
    have hlast : (pairs.getLast?).map Prod.fst = some e := by
      rw [← List.getLast?_map, hfirst, List.getLast?_reverse, spine_eq]
      rfl
    obtain ⟨⟨sub, rem⟩, hmem, heq⟩ := Option.map_eq_some_iff.1 hlast
    cases heq
    obtain ⟨hrem, -⟩ := hall _ (List.mem_of_getLast? hmem)
    rw [remainder?_self] at hrem
    cases hrem
    exact hmem
  · obtain ⟨hrem, hremains⟩ := hall p hp
    exact ⟨hrem, isRelative_of_restsOn hremains.offset, hremains.leadsBack⟩

def headField : Field := ⟨"head", "list", .pointer (.aggregate "node")⟩

def linkField : Field := ⟨"link", "node", .aggregate "list"⟩

def localPointee : Expr := of (.access .deref (var (.ofLocal "p")))

def overwritten : Expr := of (.clobber (var (.ofFunction "f")) none localPointee 3)

def enclosingNode : Expr := of (.access (.container linkField) (of (.access (.field headField) overwritten)))

theorem obtainable_localPointee : localPointee.Obtainable := by
  have hpointer : (var (.ofLocal "p")).Obtainable := .make (s := .var _) (List.forall_mem_nil _) rfl
  exact .make (s := .access .deref _) (List.forall_mem_singleton.2 hpointer) rfl

theorem obtainable_enclosingNode : enclosingNode.Obtainable := by
  have hcallee : (var (.ofFunction "f")).Obtainable := .make (s := .var _) (List.forall_mem_nil _) rfl
  have hoverwritten : overwritten.Obtainable := .make (s := .clobber _ none _ 3)
    (List.forall_mem_cons.2 ⟨hcallee, List.forall_mem_singleton.2 obtainable_localPointee⟩) rfl
  have hhead : (of (.access (.field headField) overwritten)).Obtainable :=
    .make (s := .access (.field headField) _) (List.forall_mem_singleton.2 hoverwritten) rfl
  exact .make (s := .access (.container linkField) _) (List.forall_mem_singleton.2 hhead) rfl

theorem not_restsOn_localPointee : ¬ enclosingNode.RestsOn localPointee := by
  intro h
  have hsteps : ∀ s, enclosingNode.RestsOn s → s.dereferenced? = none := by
    refine forall_restsOn_base (b := of (.access (.field headField) overwritten)) rfl rfl ?_
    exact forall_restsOn_base (b := overwritten) rfl rfl (forall_restsOn_ground rfl rfl)
  cases hsteps _ h

/-- The location is split at what the call left, but not at what was there before the call. -/
theorem splits_lead_back_of_overwritten :
    enclosingNode.Obtainable ∧ ∃ pairs, enclosingNode.splits = .ok pairs ∧
      pairs.getLast? = some (enclosingNode, empty) ∧
      (∃ rem, (overwritten, rem) ∈ pairs ∧ rem.isRelative = true ∧ compose overwritten rem = .ok enclosingNode) ∧
      enclosingNode.remainder? localPointee = .ok none := by
  obtain ⟨pairs, hpairs, -, -, hmem, hlast, hall, hnone⟩ := splits_lead_back obtainable_enclosingNode
  have hrests : enclosingNode.RestsOn overwritten :=
    .base (b := of (.access (.field headField) overwritten)) rfl (.base rfl (.refl overwritten))
  obtain ⟨⟨sub, rem⟩, hpair, heq⟩ := List.mem_map.1 ((hmem overwritten).2 hrests)
  cases heq
  obtain ⟨-, hrelative, hcompose⟩ := hall _ hpair
  exact ⟨obtainable_enclosingNode, pairs, hpairs, hlast, ⟨rem, hpair, hrelative, hcompose⟩,
    hnone _ not_restsOn_localPointee⟩

end Splits

end Retrace.Expr
