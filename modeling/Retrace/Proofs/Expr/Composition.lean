import Retrace.Proofs.Expr.Spine

/-!
Offsets: relative locations with no clobber on the way to the empty expression. An offset can be put on every
location. Its steps are taken again there, and a step may lead back from where the location had come to, so
offsets act on locations as reduced words do.
-/

set_option autoImplicit false

namespace Retrace.Expr

variable {v w x o o' e b t : Expr}

section Offsets

theorem inductionOnOffset {motive : ∀ o : Expr, o.RestsOn empty → Prop} (ground : motive empty (.refl empty))
    (step : ∀ (e b : Expr) (base : e.base? = some b) (rests : b.RestsOn empty), motive b rests →
      motive e (.base base rests)) (o : Expr) (h : o.RestsOn empty) : motive o h := by
  suffices hgeneral : ∀ {s : Expr} (h : o.RestsOn s) (hend : s = empty), motive o (hend ▸ h) from
    hgeneral h rfl
  intro s h
  induction h with
  | refl e =>
    rintro rfl
    exact ground
  | base base rests ih =>
    rintro rfl
    exact step _ _ base rests (ih rests rfl)

theorem RestsOn.of_base (h : e.RestsOn empty) (hb : e.base? = some b) : b.RestsOn empty := by
  cases h with
  | refl => cases hb
  | base base rests =>
    rw [hb] at base
    cases base
    exact rests

theorem eq_empty_of_isEmpty (he : e.Obtainable) (h : e.isEmpty = true) : e = empty := by
  have hmade := he.settles.made
  obtain ⟨d, s⟩ := e
  cases s with
  | empty => exact (Except.ok.inj hmade).symm
  | _ => cases h

theorem clobberRoot?_base (hb : e.base? = some b) : e.clobberRoot? = b.clobberRoot? := by
  obtain ⟨d, s⟩ := e
  cases s with
  | access | index | moment | bound | terminator =>
    cases hb
    rfl
  | _ => cases hb

theorem clobberRoot?_or_chain (hb : e.base? = none) :
    e.clobberRoot? = some e ∧ e.isEmpty = false ∨ e.clobberRoot? = none ∧ e.chain = [e] := by
  obtain ⟨d, s⟩ := e
  cases s with
  | clobber => exact .inl ⟨rfl, rfl⟩
  | access | index | moment => cases hb
  | bound side t stride =>
    cases hb
    exact .inr ⟨rfl, rfl⟩
  | terminator t stride test sentinel =>
    cases hb
    exact .inr ⟨rfl, rfl⟩
  | _ => exact .inr ⟨rfl, rfl⟩

theorem restsOn_empty_iff (ho : o.Obtainable) :
    o.RestsOn empty ↔ o.isRelative = true ∧ o.clobberRoot? = none := by
  induction o using inductionOnBase with
  | ground e hb =>
    constructor
    · intro h
      cases h with
      | refl => exact ⟨rfl, rfl⟩
      | base base => simp [hb] at base
    · rintro ⟨hrelative, hroot⟩
      rcases clobberRoot?_or_chain hb with ⟨hsome, -⟩ | ⟨-, hchain⟩
      · rw [hroot] at hsome
        cases hsome
      · rw [isRelative, hchain] at hrelative
        rw [eq_empty_of_isEmpty ho hrelative]
        exact .refl empty
  | step e b hb ih =>
    rw [isRelative_base hb, clobberRoot?_base hb, ← ih (ho.base hb)]
    exact ⟨fun h => h.of_base hb, .base hb⟩

/-- The spine stops at a clobber, so it does not come to the empty expression below. -/
theorem compose_of_clobber (hrelative : o.isRelative = true) (hroot : o.clobberRoot? ≠ none) :
    compose v o = .error .offsetHasNoBase := by
  have hend : o.spine.getLast?.any isEmpty = false := by
    clear hrelative
    induction o using inductionOnBase with
    | ground e hb =>
      rcases clobberRoot?_or_chain hb with ⟨-, hempty⟩ | ⟨hnone, -⟩
      · rw [spine_of_none hb]
        exact hempty
      · exact absurd hnone hroot
    | step e b hb ih =>
      rw [getLast?_spine_base hb]
      exact ih (clobberRoot?_base hb ▸ hroot)
  rw [compose, hrelative, hend]
  rfl

end Offsets

section Action

theorem isLvalueTarget_of_undone? (ht : t.Obtainable) (h : e.undone? t = some x) : x.isLvalueTarget = true := by
  obtain ⟨step, step', _, -, hshape, hopposite⟩ := undone?_eq_some_iff.1 h
  have hsuits := ht.suits_base (base?_of_access hshape)
  rw [hshape] at hsuits
  cases step <;> cases hopposite <;> exact hsuits

theorem interchangeable_attach (e : Expr) (ht : t.Obtainable) : Interchangeable e (e.attach t) := by
  cases hback : e.undone? t with
  | none =>
    rw [attach_of_none hback]
    exact interchangeable_onto (shape_of _)
  | some inner =>
    obtain ⟨_, _, _, hshape, -⟩ := undone?_eq_some_iff.1 hback
    rw [attach_of_some hback]
    exact interchangeable_of_isLvalueTarget (isLvalueTarget_of_access hshape) (isLvalueTarget_of_undone? ht hback)

theorem exists_compose (hv : v.Obtainable) (htarget : v.isLvalueTarget = true) (ho : o.Obtainable)
    (h : o.RestsOn empty) : ∃ w, compose v o = .ok w ∧ w.Obtainable ∧ Interchangeable o w := by
  induction o, h using inductionOnOffset with
  | ground => exact ⟨v, compose_empty v, hv, interchangeable_of_isLvalueTarget rfl htarget⟩
  | step e b base rests ih =>
    obtain ⟨w, hw, hobtainable, hsame⟩ := ih (ho.base base)
    have hsuits : e.shape.suits w = true := by
      rw [hsame.suits_eq]
      exact ho.suits_base base
    refine ⟨e.attach w, ?_, ho.attach base hobtainable hsuits, interchangeable_attach e hobtainable⟩
    rw [compose_base base rests, hw]
    exact ho.replaceTarget_eq base hsuits

theorem compose_empty_offset (ho : o.Obtainable) (h : o.RestsOn empty) : compose empty o = .ok o := by
  induction o, h using inductionOnOffset with
  | ground => rfl
  | step e b base rests ih =>
    rw [compose_base base rests, ih (ho.base base)]
    exact ho.replaceTarget_base base

/-- One more layer on an offset is one more layer on what the offset comes to, also where the layer leads
back. -/
theorem compose_attach (hv : v.Obtainable) (htarget : v.isLvalueTarget = true) (he : e.Obtainable)
    (hb : e.base? = some b) (hx : x.Obtainable) (hoffset : x.RestsOn empty) (hsuits : e.shape.suits x = true)
    (hw : compose v x = .ok w) :
    (e.attach x).RestsOn empty ∧ compose v (e.attach x) = .ok (e.attach w) := by
  cases hback : e.undone? x with
  | none =>
    obtain ⟨_, hcompose, -, hsame⟩ := exists_compose hv htarget hx hoffset
    rw [hw] at hcompose
    cases hcompose
    have hbase : (of (e.shape.onto x)).base? = some x := Shape.base?_onto hb x
    rw [attach_of_none hback]
    refine ⟨.base hbase hoffset, ?_⟩
    rw [compose_base hbase hoffset, hw]
    change (of (e.shape.onto x)).replaceTarget w = .ok (e.attach w)
    rw [replaceTarget_of_onto hb]
    exact he.replaceTarget_eq hb (by rw [hsame.suits_eq, hsuits])
  | some inner =>
    -- The last step of the offset was taken on the location as well, or led back there already.
    obtain ⟨step, step', _, hshape, hshape', hopposite⟩ := undone?_eq_some_iff.1 hback
    have hbase := base?_of_access hshape'
    have hinner := hoffset.of_base hbase
    obtain ⟨w', hw', hobtainable, hsame⟩ := exists_compose hv htarget (hx.base hbase) hinner
    have hlast : x.replaceTarget w' = .ok w := by
      rw [compose_base hbase hinner, hw'] at hw
      exact hw
    rw [attach_of_some hback, eq_attach_of_replaceTarget hlast]
    refine ⟨hinner, ?_⟩
    rw [attach_attach hobtainable hshape hshape' hopposite, hw']

/-- Two offsets one after the other: both ways of putting them on a location come to the same, or both
fail. -/
theorem compose_compose_cases (hv : v.Obtainable) (htarget : v.isLvalueTarget = true) (ho : o.Obtainable)
    (h : o.RestsOn empty) (hw : compose v o = .ok w) (ho' : o'.Obtainable) (h' : o'.RestsOn empty) :
    (∃ x r, compose o o' = .ok x ∧ x.Obtainable ∧ x.RestsOn empty ∧ compose w o' = .ok r ∧
      compose v x = .ok r) ∨
    (∀ x, compose o o' ≠ .ok x) ∧ ∀ r, compose w o' ≠ .ok r := by
  induction o', h' using inductionOnOffset with
  | ground => exact .inl ⟨o, w, compose_empty o, ho, h, compose_empty w, hw⟩
  | step e b base rests ih =>
    rw [compose_base base rests, compose_base base rests]
    rcases ih (ho'.base base) with ⟨x, r, hx, hobtainable, hoffset, hr, hcompose⟩ | ⟨hx, hr⟩
    · obtain ⟨_, hr', -, hsame⟩ := exists_compose hv htarget hobtainable hoffset
      rw [hcompose] at hr'
      cases hr'
      rw [hx, hr]
      change (∃ x' r', e.replaceTarget x = .ok x' ∧ _ ∧ _ ∧ e.replaceTarget r = .ok r' ∧ _) ∨
        (∀ x', e.replaceTarget x ≠ .ok x') ∧ ∀ r', e.replaceTarget r ≠ .ok r'
      by_cases hsuits : e.shape.suits x = true
      · have hsuits' : e.shape.suits r = true := by rw [hsame.suits_eq, hsuits]
        obtain ⟨hnew, hcompose'⟩ := compose_attach hv htarget ho' base hobtainable hoffset hsuits hcompose
        exact .inl ⟨e.attach x, e.attach r, ho'.replaceTarget_eq base hsuits,
          ho'.attach base hobtainable hsuits, hnew, ho'.replaceTarget_eq base hsuits', hcompose'⟩
      · refine .inr ⟨fun x' hx' => hsuits (suits_of_replaceTarget hx'), fun r' hr' => hsuits ?_⟩
        rw [← hsame.suits_eq]
        exact suits_of_replaceTarget hr'
    · refine .inr ⟨fun x' => bind_ne_ok fun x hok => ?_, fun r' => bind_ne_ok fun r hok => ?_⟩
      · exact absurd hok (hx x)
      · exact absurd hok (hr r)

/-- Offsets act on locations: the empty one changes nothing, and putting one on after the other is putting on
the two as one, with the same result or a fault both times. -/
theorem compose_acts (hv : v.Obtainable) (htarget : v.isLvalueTarget = true) (ho : o.Obtainable)
    (hrelative : o.isRelative = true) (hroot : o.clobberRoot? = none) (ho' : o'.Obtainable)
    (hrelative' : o'.isRelative = true) (hroot' : o'.clobberRoot? = none) :
    compose v empty = .ok v ∧ compose empty o = .ok o ∧
      ∀ r, (compose v o >>= fun w => compose w o') = .ok r ↔ (compose o o' >>= fun x => compose v x) = .ok r := by
  have h := (restsOn_empty_iff ho).2 ⟨hrelative, hroot⟩
  have h' := (restsOn_empty_iff ho').2 ⟨hrelative', hroot'⟩
  obtain ⟨w, hw, -⟩ := exists_compose hv htarget ho h
  refine ⟨compose_empty v, compose_empty_offset ho h, fun r => ?_⟩
  rw [hw]
  change compose w o' = .ok r ↔ _
  rcases compose_compose_cases hv htarget ho h hw ho' h' with ⟨x, r', hx, -, -, hr, hcompose⟩ | ⟨hx, hr⟩
  · rw [hx, hr]
    change _ ↔ compose v x = .ok r
    rw [hcompose]
  · exact ⟨fun hok => absurd hok (hr r), fun hok => absurd hok (bind_ne_ok fun x hok => absurd hok (hx x))⟩

section Instances

def headContainer : Expr := of (.access (.container headField) localPointee)

def nodeContainer : Expr := of (.access (.container linkField) headContainer)

def linkOffset : Expr := of (.access (.field linkField) empty)

def headOffset : Expr := of (.access (.field headField) linkOffset)

def outwardOffset : Expr := of (.access (.container headField) empty)

theorem obtainable_nodeContainer : nodeContainer.Obtainable := by
  have hhead : headContainer.Obtainable :=
    .make (s := .access (.container headField) _) (List.forall_mem_singleton.2 obtainable_localPointee) rfl
  exact .make (s := .access (.container linkField) _) (List.forall_mem_singleton.2 hhead) rfl

theorem obtainable_headOffset : headOffset.Obtainable := by
  have hlink : linkOffset.Obtainable :=
    .make (s := .access (.field linkField) _) (List.forall_mem_singleton.2 obtainable_empty) rfl
  exact .make (s := .access (.field headField) _) (List.forall_mem_singleton.2 hlink) rfl

theorem obtainable_outwardOffset : outwardOffset.Obtainable :=
  .make (s := .access (.container headField) _) (List.forall_mem_singleton.2 obtainable_empty) rfl

/-- Two steps inward cancel the two steps outward that the location ends in; one step outward cancels the
second of them beforehand. -/
theorem compose_acts_of_cancelling :
    nodeContainer.Obtainable ∧ nodeContainer.isLvalueTarget = true ∧
    headOffset.Obtainable ∧ headOffset.isRelative = true ∧ headOffset.clobberRoot? = none ∧
    outwardOffset.Obtainable ∧ outwardOffset.isRelative = true ∧ outwardOffset.clobberRoot? = none ∧
    compose nodeContainer headOffset = .ok localPointee ∧ compose headOffset outwardOffset = .ok linkOffset ∧
    (compose nodeContainer headOffset >>= fun w => compose w outwardOffset) = .ok headContainer ∧
    (compose headOffset outwardOffset >>= fun x => compose nodeContainer x) = .ok headContainer := by
  obtain ⟨-, -, hacts⟩ := compose_acts obtainable_nodeContainer rfl obtainable_headOffset rfl rfl
    obtainable_outwardOffset rfl rfl
  have hboth : (compose nodeContainer headOffset >>= fun w => compose w outwardOffset) = .ok headContainer := rfl
  exact ⟨obtainable_nodeContainer, rfl, obtainable_headOffset, rfl, rfl, obtainable_outwardOffset, rfl, rfl, rfl,
    rfl, hboth, (hacts headContainer).1 hboth⟩

end Instances

end Action

section Totality

/-- A relative location can be put on every location unless there is a clobber in it. The clobber keeps the
empty expression below from being exchanged, and that is the only fault. -/
theorem compose_returns (hv : v.Obtainable) (htarget : v.isLvalueTarget = true) (ho : o.Obtainable)
    (hrelative : o.isRelative = true) :
    (o.clobberRoot? = none → ∃ w, compose v o = .ok w ∧ w.Obtainable) ∧
    (o.clobberRoot? ≠ none → compose v o = .error .offsetHasNoBase) := by
  refine ⟨fun hroot => ?_, compose_of_clobber hrelative⟩
  obtain ⟨w, hw, hobtainable, -⟩ := exists_compose hv htarget ho ((restsOn_empty_iff ho).2 ⟨hrelative, hroot⟩)
  exact ⟨w, hw, hobtainable⟩

def clobberedOffset : Expr := of (.clobber (var (.ofFunction "f")) none empty 3)

theorem obtainable_clobberedOffset : clobberedOffset.Obtainable := by
  have hcallee : (var (.ofFunction "f")).Obtainable := .make (s := .var _) (List.forall_mem_nil _) rfl
  exact .make (s := .clobber (var (.ofFunction "f")) none empty 3)
    (List.forall_mem_cons.2 ⟨hcallee, List.forall_mem_singleton.2 obtainable_empty⟩) rfl

theorem compose_returns_of_cancelling :
    nodeContainer.Obtainable ∧ nodeContainer.isLvalueTarget = true ∧ headOffset.Obtainable ∧
    headOffset.isRelative = true ∧ headOffset.clobberRoot? = none ∧
    ∃ w, compose nodeContainer headOffset = .ok w ∧ w.Obtainable :=
  ⟨obtainable_nodeContainer, rfl, obtainable_headOffset, rfl, rfl,
    (compose_returns obtainable_nodeContainer rfl obtainable_headOffset rfl).1 rfl⟩

/-- The overwritten location leads to the empty expression, but is not what the clobber can be exchanged
for. -/
theorem compose_faults_of_clobbered_offset :
    (var (.ofLocal "p")).Obtainable ∧ (var (.ofLocal "p")).isLvalueTarget = true ∧ clobberedOffset.Obtainable ∧
    clobberedOffset.isRelative = true ∧ compose (var (.ofLocal "p")) clobberedOffset = .error .offsetHasNoBase :=
  ⟨.make (s := .var _) (List.forall_mem_nil _) rfl, rfl, obtainable_clobberedOffset, rfl, rfl⟩

end Totality

end Retrace.Expr
