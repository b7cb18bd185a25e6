import Retrace.Proofs.Expr.Refolding

/-!
Nodes put on other targets. A node that was built can be put on every target that its layer suits. What comes
out is a new node with that layer, except that going into a field and out of it again cancel: then the target
loses its last step.
-/

set_option autoImplicit false

namespace Retrace

def Step.opposite? : Step → Option Step
  | .field f => some (.container f)
  | .container f => some (.field f)
  | .deref => none
  | .vtable _ => none

theorem Step.opposite?_comm {step step' : Step} (h : step.opposite? = some step') :
    step'.opposite? = some step := by
  cases step <;> cases h <;> rfl

namespace Shape

def onto (t : Expr) : Shape Expr → Shape Expr
  | .access step _ => .access step t
  | .index _ element i => .index t element i
  | .moment m _ kind => .moment m t kind
  | .bound side _ stride => .bound side (some t) stride
  | .terminator _ stride test sentinel => .terminator (some t) stride test sentinel
  | s => s

/-- Whether the layer may stand on the target. Facts about buffers may stand on anything. -/
def suits (t : Expr) : Shape Expr → Bool
  | .access .deref _ => t.isDereferenceable
  | .access .. => t.isLvalueTarget
  | .index .. => t.isLvalueTarget
  | .moment .. => t.isLvalueTarget
  | _ => true

variable {s : Shape Expr} {b t : Expr}

theorem onto_base (hb : s.base? = some b) : s.onto b = s := by
  cases s with
  | access | index | moment | bound | terminator =>
    cases hb
    rfl
  | _ => cases hb

theorem base?_onto (hb : s.base? = some b) (t : Expr) : (s.onto t).base? = some t := by
  cases s with
  | access | index | moment | bound | terminator => rfl
  | _ => cases hb

theorem onto_onto (s : Shape Expr) (t t' : Expr) : (s.onto t).onto t' = s.onto t' := by
  cases s <;> rfl

theorem mem_parts_onto {c : Expr} (hc : c ∈ (s.onto t).parts) : c = t ∨ c ∈ s.parts := by
  cases s <;> simp_all [onto, parts] <;> grind

theorem suits_of_isLvalueTarget (s : Shape Expr) (ht : t.isLvalueTarget = true) : s.suits t = true := by
  cases s with
  | access step _ =>
    cases step with
    | deref => exact Expr.isDereferenceable_of_isLvalueTarget ht
    | _ => exact ht
  | index | moment => exact ht
  | _ => rfl

end Shape

namespace Expr

def undone? (e t : Expr) : Option Expr :=
  match e.shape, t.shape with
  | .access step _, .access step' inner => if step.opposite? = some step' then some inner else none
  | _, _ => none

structure Interchangeable (t t' : Expr) : Prop where
  lvalue : t'.isLvalueTarget = t.isLvalueTarget
  dereferenceable : t'.isDereferenceable = t.isDereferenceable

def attach (e t : Expr) : Expr := (e.undone? t).getD (of (e.shape.onto t))

variable {e t b r inner : Expr} {s : Shape Expr}

theorem Interchangeable.suits_eq {t' : Expr} (h : Interchangeable t t') (s : Shape Expr) :
    s.suits t' = s.suits t := by
  cases s with
  | access step _ =>
    cases step with
    | deref => exact h.dereferenceable
    | _ => exact h.lvalue
  | index | moment => exact h.lvalue
  | _ => rfl

theorem interchangeable_onto {e' : Expr} (h : e'.shape = e.shape.onto t) : Interchangeable e e' := by
  obtain ⟨d, s⟩ := e
  obtain ⟨d', s'⟩ := e'
  cases h
  constructor <;> cases s <;> rfl

theorem interchangeable_of_isLvalueTarget {t' : Expr} (ht : t.isLvalueTarget = true)
    (ht' : t'.isLvalueTarget = true) : Interchangeable t t' := by
  constructor
  · rw [ht, ht']
  · rw [isDereferenceable_of_isLvalueTarget ht, isDereferenceable_of_isLvalueTarget ht']

theorem undone?_eq_some_iff : e.undone? t = some inner ↔
    ∃ step step' b, e.shape = .access step b ∧ t.shape = .access step' inner ∧ step.opposite? = some step' := by
  unfold undone?
  split
  · rename_i step b step' inner' he ht
    simp only [he, ht, Option.ite_none_right_eq_some, Option.some.injEq, Shape.access.injEq]
    constructor
    · rintro ⟨hopposite, rfl⟩
      exact ⟨step, step', b, ⟨rfl, rfl⟩, ⟨rfl, rfl⟩, hopposite⟩
    · rintro ⟨_, _, _, ⟨rfl, rfl⟩, ⟨rfl, rfl⟩, hopposite⟩
      exact ⟨hopposite, rfl⟩
  · rename_i hne
    simp only [reduceCtorEq, false_iff]
    rintro ⟨step, step', b, he, ht, -⟩
    exact hne step b step' inner he ht

theorem undone?_eq_none_iff : e.undone? t = none ↔
    ∀ step b, e.shape = .access step b → ∀ inner step', step.opposite? = some step' →
      t.shape ≠ .access step' inner := by
  simp only [Option.eq_none_iff_forall_ne_some, ne_eq, undone?_eq_some_iff, not_exists, not_and]
  constructor
  · intro h step b he inner step' hopposite ht
    exact h inner step step' b he ht hopposite
  · intro h inner step step' b he ht hopposite
    exact h step b he inner step' hopposite ht

theorem undone?_congr {e' b' : Expr} {step : Step} (he : e.shape = .access step b)
    (he' : e'.shape = .access step b') : e.undone? t = e'.undone? t := by
  unfold undone?
  rw [he, he']
  cases t.shape <;> rfl

theorem undone?_onto (h : e.undone? b = none) (t : Expr) : e.undone? (of (b.shape.onto t)) = none := by
  refine undone?_eq_none_iff.2 fun step c he inner step' hopposite hshape => ?_
  rw [shape_of] at hshape
  cases hb : b.shape with
  | access step'' inner' =>
    rw [hb] at hshape
    cases hshape
    exact undone?_eq_none_iff.1 h step c he inner' step' hopposite hb
  | _ =>
    rw [hb] at hshape
    cases hshape

theorem attach_of_some (h : e.undone? t = some inner) : e.attach t = inner := by
  rw [attach, h, Option.getD_some]

theorem attach_of_none (h : e.undone? t = none) : e.attach t = of (e.shape.onto t) := by
  rw [attach, h, Option.getD_none]

theorem attach_of_oneWay (h : ∀ step b, e.shape = .access step b → step.opposite? = none) :
    e.attach t = of (e.shape.onto t) :=
  attach_of_none (undone?_eq_none_iff.2 fun step b he => by simp [h step b he])

theorem eq_attach_of_cases {step step' : Step} (hshape : e.shape = .access step b)
    (hopposite : step.opposite? = some step')
    (h : (∀ inner, t.shape ≠ .access step' inner) ∧ r = of (.access step t) ∨ t.shape = .access step' r) :
    r = e.attach t := by
  rcases h with ⟨hne, hr⟩ | hback
  · rw [hr, attach_of_none (undone?_eq_none_iff.2 (by simpa [hshape, hopposite] using hne)), hshape]
    rfl
  · exact (attach_of_some (undone?_eq_some_iff.2 ⟨step, step', b, hshape, hback, hopposite⟩)).symm

theorem eq_attach_of_replaceTarget (h : e.replaceTarget t = .ok r) : r = e.attach t := by
  unfold replaceTarget at h
  split at h
  case h_1 _ hshape =>
    rw [attach_of_oneWay (by simp [hshape, Step.opposite?]), hshape]
    exact deref_eq h
  case h_2 hshape => exact eq_attach_of_cases hshape rfl (field_cases h)
  case h_3 hshape => exact eq_attach_of_cases hshape rfl (container_cases h)
  case h_4 slot _ hshape =>
    rw [attach_of_oneWay (by simp [hshape, Step.opposite?]), hshape]
    exact (Except.ok.inj (checkLvalueTarget_bind h)).symm
  case h_5 hshape =>
    rw [attach_of_oneWay (by simp [hshape]), hshape]
    exact (Except.ok.inj (checkLvalueTarget_bind h)).symm
  case h_6 hshape =>
    rw [attach_of_oneWay (by simp [hshape]), hshape]
    exact moment_eq h
  case h_7 hshape =>
    rw [attach_of_oneWay (by simp [hshape]), hshape]
    exact (Except.ok.inj h).symm
  case h_8 hshape =>
    rw [attach_of_oneWay (by simp [hshape]), hshape]
    exact terminator_eq h
  case h_9 => cases h

theorem suits_of_replaceTarget (h : e.replaceTarget t = .ok r) : e.shape.suits t = true := by
  unfold replaceTarget at h
  split at h <;> rename_i hshape <;> simp only [hshape, Shape.suits]
  · unfold deref at h
    split at h
    · assumption
    · cases h
  · exact checkLvalueTarget_of_bind h
  · exact checkLvalueTarget_of_bind h
  · exact checkLvalueTarget_of_bind h
  · exact checkLvalueTarget_of_bind h
  · exact checkLvalueTarget_of_bind (checkValueKind_bind h)
  · cases h

theorem replaceTarget_eq_make (hb : e.base? = some b) (t : Expr) :
    e.replaceTarget t = (e.shape.onto t).make := by
  obtain ⟨d, s⟩ := e
  cases s with
  | access step _ => cases step <;> rfl
  | index | moment | bound | terminator => rfl
  | _ => cases hb

theorem make_onto_of_replaceTarget (h : e.replaceTarget t = .ok r) : (e.shape.onto t).make = .ok r := by
  obtain ⟨d, s⟩ := e
  cases s with
  | access step _ => cases step <;> exact h
  | index | moment | bound | terminator => exact h
  | _ => cases h

/-- Only the target has to be looked at again when a layer that was made is made on another one. -/
theorem exists_make_onto (hb : s.base? = some b) (hs : s.make = .ok e) (ht : s.suits t = true) :
    ∃ r, (s.onto t).make = .ok r := by
  cases s with
  | access step _ =>
    refine Shape.exists_make trivial ?_ (List.cons_ne_nil _ _)
    cases step <;> exact ht
  | index => exact Shape.exists_make trivial ht (List.cons_ne_nil _ _)
  | moment m _ kind =>
    have hkind : checkValueKind kind = .ok () := checkValueKind_of_bind hs
    have htarget : t.checkLvalueTarget = .ok () := if_pos ht
    change ∃ r, moment m t kind = .ok r
    rw [moment, hkind, htarget]
    exact ⟨_, rfl⟩
  | bound => exact ⟨_, rfl⟩
  | terminator _ stride test sentinel =>
    obtain ⟨hsentinel, htest⟩ := Shape.sound_of_make hs
    exact Shape.exists_make (s := .terminator (some t) stride test sentinel) ⟨hsentinel, htest⟩ rfl
      (List.cons_ne_nil _ _)
  | _ => cases hb

theorem replaceTarget_of_onto (hb : e.base? = some b) (inner t : Expr) :
    (of (e.shape.onto inner)).replaceTarget t = e.replaceTarget t := by
  have hbase : (of (e.shape.onto inner)).base? = some inner := Shape.base?_onto hb inner
  rw [replaceTarget_eq_make hbase, shape_of, Shape.onto_onto, ← replaceTarget_eq_make hb]

theorem base?_of_access {step : Step} (h : e.shape = .access step b) : e.base? = some b := by
  rw [base?, h]
  rfl

theorem truth?_of_base? (hb : e.base? = some b) : e.truth? = none := by
  obtain ⟨d, s⟩ := e
  cases s with
  | unary | binary => cases hb
  | _ => rfl

theorem mem_parts_of_base? (hb : e.base? = some b) : b ∈ e.parts := by
  obtain ⟨d, s⟩ := e
  cases s with
  | clobber => cases hb
  | _ => exact mem_parts_of_target? hb

theorem sizeOf_lt_of_base? (hb : e.base? = some b) : sizeOf b < sizeOf e :=
  sizeOf_lt_of_mem_parts (mem_parts_of_base? hb)

namespace Obtainable

theorem base (he : e.Obtainable) (hb : e.base? = some b) : b.Obtainable := he.part (mem_parts_of_base? hb)

theorem replaceTarget (he : e.Obtainable) (ht : t.Obtainable) (h : e.replaceTarget t = .ok r) : r.Obtainable := by
  refine .make (fun c hc => ?_) (make_onto_of_replaceTarget h)
  rcases Shape.mem_parts_onto hc with rfl | hpart
  · exact ht
  · exact he.part hpart

theorem replaceTarget_base (he : e.Obtainable) (hb : e.base? = some b) : e.replaceTarget b = .ok e := by
  rw [replaceTarget_eq_make hb, Shape.onto_base hb, he.settles.made, refolded_of_none (truth?_of_base? hb)]

theorem suits_base (he : e.Obtainable) (hb : e.base? = some b) : e.shape.suits b = true :=
  suits_of_replaceTarget (he.replaceTarget_base hb)

theorem undone?_base (he : e.Obtainable) (hb : e.base? = some b) : e.undone? b = none := by
  refine Option.eq_none_iff_forall_ne_some.2 fun inner hback => ?_
  have hinner : e = inner :=
    (eq_attach_of_replaceTarget (he.replaceTarget_base hb)).trans (attach_of_some hback)
  obtain ⟨-, step', -, -, hshape, -⟩ := undone?_eq_some_iff.1 hback
  have hlt := sizeOf_lt_of_base? (base?_of_access hshape)
  have := sizeOf_lt_of_base? hb
  rw [← hinner] at hlt
  omega

theorem of_onto_base (he : e.Obtainable) (hb : e.base? = some b) : of (e.shape.onto b) = e := by
  rw [← attach_of_none (he.undone?_base hb), ← eq_attach_of_replaceTarget (he.replaceTarget_base hb)]

theorem replaceTarget_eq (he : e.Obtainable) (hb : e.base? = some b) (ht : e.shape.suits t = true) :
    e.replaceTarget t = .ok (e.attach t) := by
  have hmade : e.shape.make = .ok e := by
    rw [← Shape.onto_base hb, ← replaceTarget_eq_make hb, he.replaceTarget_base hb]
  obtain ⟨r, hr⟩ := exists_make_onto hb hmade ht
  rw [← replaceTarget_eq_make hb] at hr
  rw [hr, eq_attach_of_replaceTarget hr]

theorem attach (he : e.Obtainable) (hb : e.base? = some b) (ht : t.Obtainable)
    (hsuits : e.shape.suits t = true) : (e.attach t).Obtainable :=
  he.replaceTarget ht (he.replaceTarget_eq hb hsuits)

end Obtainable

/-- A step and the one that leads back, taken one after the other, come to where they started. -/
theorem attach_attach {e' b' : Expr} {step step' : Step} (ht : t.Obtainable) (he : e.shape = .access step b)
    (he' : e'.shape = .access step' b') (hopposite : step.opposite? = some step') :
    e.attach (e'.attach t) = t := by
  cases hback : e'.undone? t with
  | none =>
    rw [attach_of_none hback, he']
    exact attach_of_some (undone?_eq_some_iff.2 ⟨step, step', b, he, rfl, hopposite⟩)
  | some inner =>
    -- The target ends in the first of the two steps, and does not itself lead back from what is below.
    obtain ⟨_, _, _, hshape', hshape, hopposite'⟩ := undone?_eq_some_iff.1 hback
    rw [he'] at hshape'
    cases hshape'
    rw [Step.opposite?_comm hopposite] at hopposite'
    cases hopposite'
    have hb := base?_of_access hshape
    have hforward : e.undone? inner = none := by
      rw [undone?_congr he hshape]
      exact ht.undone?_base hb
    rw [attach_of_some hback, attach_of_none hforward, he]
    have hsame := ht.of_onto_base hb
    rwa [hshape] at hsame

end Expr
end Retrace
