import Retrace.Proofs.Search.Callsite

/-!
Preconditions at the calls of their function. What a caller is shown is true in its frame exactly when the
precondition is true in the frame of the callee, and it speaks of no variable of the callee.

Both statements leave out formulas that test the address of something passed that has no address in the
caller: such an address is handed on as it is. The first also leaves out calls that pass a reference to the
caller's own frame shifted to the left: taking the reference off folds the shift, which keeps only 128 bits.
-/

set_option autoImplicit false

namespace Retrace.Search

open Returning

theorem throughout_of_not {q : Shape Expr → Prop} (e : Expr) (w : Width) (a : Expr)
    (h : e.shape = .unary .not w a) (he : e.Throughout q) : a.Throughout q :=
  he.child (by rw [Expr.children, h]; exact List.mem_singleton_self a)

namespace Precondition

variable {m : Type → Type} [Monad m] [Returning m] {limits : Limits} {memory : Memory m} {b b' : Formula}
  {p : Precondition m} {caller : Frame m} {point : Nat}

theorem of_make? (h : Returns (make? limits memory b) (some p)) :
    p.memory = memory ∧ p.formula = b ∧ suitsCaller limits (!memory.block.isLoop) b = true := by
  unfold make? at h
  split at h
  · cases of_pure h
  · rename_i hsuits
    have hp : ∃ preserved, p = ⟨memory, b, preserved⟩ := by
      split at h
      · obtain ⟨preserved, -, hp⟩ := of_bind h
        exact ⟨preserved, Option.some.inj (of_pure hp)⟩
      · obtain ⟨preserved, -, hp⟩ := of_bind h
        exact ⟨preserved, Option.some.inj (of_pure hp)⟩
    obtain ⟨preserved, rfl⟩ := hp
    exact ⟨rfl, rfl, by simpa using hsuits⟩

theorem shownAt_of_atCaller {arrival : Arrival} (h : Returns (p.atCaller caller point) arrival) :
    p.shownAt caller point = .ok arrival.shown := by
  obtain ⟨shown, hshown, h⟩ := of_bind h
  obtain ⟨found, -, h⟩ := of_bind h
  obtain ⟨remaining, -, h⟩ := of_bind h
  cases of_pure h
  exact Walk.returns_lift hshown

omit [Monad m] [Returning m] in
theorem shownAt_call {c : Call} {function : Expr} (hblock : p.memory.block.isLoop = false)
    (hcall : caller.memory.edge? point = some (.call function c.arguments c.result c.receiver))
    (h : p.shownAt caller point = .ok (some b')) :
    ∃ f, (Walk.mapFormula .all .drop
        (callsiteMapper (some (.call function c.arguments c.result c.receiver)) false) p.formula).run =
          .ok (some f) ∧
      (Walk.mapFormula .all .drop (referenceMapper caller.id) f).run = .ok (some b') := by
  unfold shownAt at h
  rw [hblock, hcall, Bool.false_and] at h
  obtain ⟨r, hr, h⟩ := of_bind (m := Except Fault) h
  cases r with
  | none => cases h
  | some f => exact ⟨f, hr, h⟩

end Precondition

section Examples

def quietMemory (name : String) (edge : Option Edge) : Memory (StateM Unit) where
  block := .ofFunction name
  exitPoint := 0
  location? _ := none
  edge? _ := edge
  indirectCallees _ := []
  view _ _ _ := pure []
  preserves _ := pure true

def quietFrame (edge : Edge) : Frame (StateM Unit) :=
  ⟨3, quietMemory "g" (some edge), fun _ => .calleeEntry, fun _ => pure ()⟩

theorem run_make?_quiet {b : Formula} (h : suitsCaller {} true b = true) :
    ((Precondition.make? {} (quietMemory "f" none) b).run ()).1 = some ⟨quietMemory "f" none, b, false⟩ := by
  have hblock : (quietMemory "f" none).block.isLoop = false := rfl
  simp [Precondition.make?, hblock, h]
  rfl

theorem run_atCaller_quiet {b f b' : Formula} {edge : Edge}
    (hconverted : (Walk.mapFormula .all .drop (callsiteMapper (some edge) false) b).run = .ok (some f))
    (hfreed : (Walk.mapFormula .all .drop (referenceMapper 3) f).run = .ok (some b')) :
    (((⟨quietMemory "f" none, b, false⟩ : Precondition (StateM Unit)).atCaller (quietFrame edge) 0).run.run ()).1 =
      .ok ⟨some b', []⟩ := by
  have hshown : (⟨quietMemory "f" none, b, false⟩ : Precondition (StateM Unit)).shownAt (quietFrame edge) 0 =
      .ok (some b') := by
    have hblock : (quietMemory "f" none).block.isLoop = false := rfl
    have hedge : (quietFrame edge).memory.edge? 0 = some edge := rfl
    rw [Precondition.shownAt, hblock, hedge, Bool.false_and, hconverted]
    exact hfreed
  rw [Precondition.atCaller, hshown]
  simp [quietFrame, quietMemory, Walk.lift_ok, removeValues, Alternatives.combine, Alternatives.merge]
  rfl

def formal : Variable := .ofArgument 0 "a"

def pointee : Expr := .of (.access .deref (.var formal))

def passing (a : Expr) (h : a.isPlain = true) : Call := ⟨⟨[a], List.forall_mem_singleton.2 h⟩, none, none⟩

def Call.edge (c : Call) : Edge := .call (.var (.ofFunction "f")) c.arguments c.result c.receiver

theorem applied_callsiteMapper (c : Call) (value node : Expr) :
    Walk.applied .drop (callsiteMapper (some c.edge) false) value node = pure (c.convert value node) := by
  simp [Walk.applied, callsiteMapper, Call.edge, Walk.Policy.fallback]

theorem convert_formal {a : Expr} (h : a.isPlain = true) (hd : a.dereferenced? = none) :
    (passing a h).convert (.var formal) (.var formal) = some (.var formal) := by
  change some (a.dereferenced?.getD (.var formal)) = _
  rw [hd]
  rfl

theorem mapFormula_pointee {a : Expr} (h : a.isPlain = true) (hd : a.dereferenced? = none) (hne : a ≠ pointee) :
    Walk.mapFormula .all .drop (callsiteMapper (some (passing a h).edge) false) (.of (.nonzero pointee)) =
      pure (some (Formula.nonzero a)) := by
  have hvar := convert_formal h hd
  have hpointee : (passing a h).convert pointee pointee = some a := rfl
  have hsame : Walk.rebuilt .drop pointee [.var formal] = .ok (some pointee) := Walk.rebuilt_self .drop pointee
  have hmap := Walk.run_mapExpr_single rfl rfl
    ((applied_callsiteMapper _ _ _).trans (congrArg pure hvar)) hsame
    ((applied_callsiteMapper _ _ _).trans (congrArg pure hpointee))
  rw [Formula.of, Walk.run_mapFormula_nonzero _ hmap, Option.map_some, if_neg hne]

def shifted (x : Expr) : Expr := .of (.binary .shiftLeft .unbounded none x (.int 2))

theorem nonzero_shifted (x : Expr) : Formula.nonzero (shifted x) = .of (.nonzero (shifted x)) :=
  Formula.nonzero_of (by simp) (by simp)

theorem mapFormula_shifted (v : Variable) :
    Walk.mapFormula .all .drop (referenceMapper 3) (.of (.nonzero (shifted (.var v)))) =
      pure (some (.of (.nonzero (shifted (.var v))))) := by
  have hne : Expr.int 2 ≠ .var v := Walk.of_ne_of (by simp)
  have hsame : Walk.rebuilt .drop (shifted (.var v)) [.var v, .int 2] = .ok (some (shifted (.var v))) :=
    Walk.rebuilt_self .drop _
  have hkept : withoutReference 3 (shifted (.var v)) = shifted (.var v) := rfl
  have hmap := Walk.run_mapExpr_pair rfl hne rfl rfl (applied_referenceMapper 3 _ _)
    (applied_referenceMapper 3 _ _) hsame (applied_referenceMapper 3 _ _)
  rw [Formula.of, Walk.run_mapFormula_nonzero _ hmap, hkept, Option.map_some, if_pos rfl]

def reference : Expr := .of (.frame (.int 85070591730234615865843651857942052864) 3)

theorem mapFormula_shifted_reference :
    Walk.mapFormula .all .drop (referenceMapper 3) (.of (.nonzero (shifted reference))) =
      pure (some (.const false)) := by
  have hne : Expr.int 2 ≠ reference := Walk.of_ne_of (by simp)
  have hchanged : Expr.int 85070591730234615865843651857942052864 ≠ reference := Walk.of_ne_of (by simp)
  have hzero : Expr.int 0 ≠ shifted reference := Walk.of_ne_of (by simp)
  have hvalue : Walk.rebuilt .drop (shifted reference) [.int 85070591730234615865843651857942052864, .int 2] =
      .ok (some (.int 0)) := by
    rw [Walk.rebuilt, if_neg]
    · rfl
    · intro h
      exact hchanged (List.cons.inj h).1
  have hmap := Walk.run_mapExpr_pair rfl hne rfl rfl (applied_referenceMapper 3 _ _)
    (applied_referenceMapper 3 _ _) hvalue (applied_referenceMapper 3 _ _)
  have hkept : withoutReference 3 (.int 0) = .int 0 := rfl
  rw [Formula.of, Walk.run_mapFormula_nonzero _ hmap, hkept, Option.map_some, if_neg hzero, Expr.int, Expr.of,
    Formula.nonzero]
  rfl

theorem mapFormula_formal (a : Expr) (h : a.isPlain = true) (hd : a.dereferenced? = none) :
    Walk.mapFormula .all .drop (callsiteMapper (some (passing a h).edge) false) (.of (.nonzero (.var formal))) =
      pure (some (.of (.nonzero (.var formal)))) := by
  have hvar := (applied_callsiteMapper _ _ _).trans (congrArg pure (convert_formal h hd))
  rw [Formula.of, Walk.run_mapFormula_nonzero _ (Walk.run_mapExpr_leaf rfl rfl hvar), Option.map_some,
    if_pos rfl]

theorem mapFormula_reference_formal :
    Walk.mapFormula .all .drop (referenceMapper 3) (.of (.nonzero (.var formal))) =
      pure (some (.of (.nonzero (.var formal)))) := by
  have hkept : withoutReference 3 (.var formal) = .var formal := rfl
  rw [Formula.of, Walk.run_mapFormula_nonzero _
    (Walk.run_mapExpr_leaf rfl rfl (applied_referenceMapper 3 _ _)), hkept, Option.map_some, if_pos rfl]

theorem eq_of_actual?_passing {a a' : Expr} {h : a.isPlain = true} {v : Variable}
    (hv : (passing a h).actual? v = some a') : v.isGlobal = false ∧ a' = a := by
  unfold Call.actual? at hv
  cases hs : v.storage with
  | argument =>
    rw [hs] at hv
    refine ⟨by rw [Variable.isGlobal, hs], ?_⟩
    exact List.mem_singleton.1 (List.mem_of_getElem? hv)
  | _ => rw [hs] at hv; cases hv

theorem suitsCaller_nonzero {e : Expr} (hbudget : withinBudget [e] 50 = true)
    (h : ∀ a, e.Reaches a → unknownToCaller true a = false) :
    suitsCaller {} true (.of (.nonzero e)) = true := by
  have hterms : (Formula.of (.nonzero e)).terms = [e] := by rw [Formula.of, Formula.terms]
  have hmentions : Walk.mentions (unknownToCaller true) (.of (.nonzero e)) = false := by
    rw [Walk.mentions_eq_false_iff, hterms]
    exact List.forall_mem_singleton.2 h
  rw [suitsCaller, hterms, hmentions]
  change (withinBudget [e] 50 && true) = true
  rw [hbudget]
  rfl

theorem reaches_var {v : Variable} {a : Expr} (h : (Expr.var v).Reaches a) : a = .var v := h.eq_of_leaf rfl

theorem suitsCaller_formal : suitsCaller {} true (.of (.nonzero (.var formal))) = true := by
  refine suitsCaller_nonzero rfl fun a ha => ?_
  rw [reaches_var ha]
  rfl

theorem suitsCaller_pointee : suitsCaller {} true (.of (.nonzero pointee)) = true := by
  refine suitsCaller_nonzero rfl fun a ha => ?_
  cases ha with
  | refl => rfl
  | child mem reaches =>
    cases List.mem_singleton.1 mem
    rw [reaches_var reaches]
    rfl

def twoValues (global other : Int) : Valuation :=
  ⟨fun v => if v.isGlobal then global else other, fun _ => 0, fun _ _ x => x, fun _ x => x⟩

theorem linked_passing {a : Expr} {h : a.isPlain = true} {global other : Int} (hd : a.dereferenced? = none)
    (hvalue : Interpretation.flat.eval (twoValues global other) a = other) :
    Linked (passing a h) .flat (twoValues global other) (twoValues global other) where
  globals _ _ := rfl
  contents v a' hv := by
    obtain ⟨hglobal, rfl⟩ := eq_of_actual?_passing hv
    rw [hvalue]
    change (if v.isGlobal then global else other) = other
    rw [hglobal]
    rfl
  address v a' t hv ht := by
    obtain ⟨-, rfl⟩ := eq_of_actual?_passing hv
    rw [hd] at ht
    cases ht

theorem eval_shifted (σ : Valuation) (x : Expr) :
    Interpretation.flat.eval σ (shifted x) = Interpretation.flat.eval σ x * 4 := by
  rw [shifted, Interpretation.eval_of, Interpretation.layer, Interpretation.eval_int]
  rfl

theorem run_atCaller_shifted (x : Variable) :
    (((⟨quietMemory "f" none, .of (.nonzero pointee), false⟩ : Precondition (StateM Unit)).atCaller
      (quietFrame (passing (shifted (.var x)) rfl).edge) 0).run.run ()).1 =
        .ok ⟨some (.of (.nonzero (shifted (.var x)))), []⟩ := by
  have hne : shifted (.var x) ≠ pointee := Walk.of_ne_of (by simp)
  refine run_atCaller_quiet ?_ (congrArg ExceptT.run (mapFormula_shifted x))
  rw [mapFormula_pointee rfl rfl hne, nonzero_shifted]
  rfl

theorem exact_pointee : ∀ e ∈ (Formula.of (.nonzero pointee)).terms,
    e.Exact ∧ ∀ c : Call, c.lacksAddress e = false := by
  rw [Formula.of, Formula.terms]
  refine List.forall_mem_singleton.2 ⟨⟨⟨trivial, trivial⟩, List.forall_mem_singleton.2 ?_⟩, fun _ => rfl⟩
  exact .leaf ⟨trivial, trivial⟩ rfl

theorem throughout_shifted_var {q : Shape Expr → Prop} {x : Variable} (hshift : q (shifted (.var x)).shape)
    (hx : q (.var x)) (htwo : q (.int 2)) : (shifted (.var x)).Throughout q := by
  refine ⟨hshift, ?_⟩
  change ∀ t ∈ [Expr.var x, .int 2], t.Throughout q
  rw [List.forall_mem_cons, List.forall_mem_singleton]
  exact ⟨.leaf hx rfl, .leaf htwo rfl⟩

theorem steady_shifted_var (x : Variable) (id : Nat) : (shifted (.var x)).Throughout (Steady id) := by
  have htwo : Constant.isInRange 2 = true := by decide
  refine throughout_shifted_var ⟨trivial, .inr ?_⟩ ⟨trivial, .inl trivial⟩ ⟨htwo, .inl trivial⟩
  change ∀ t ∈ [Expr.var x, .int 2], Unreferenced id t
  rw [List.forall_mem_cons, List.forall_mem_singleton]
  constructor
  · intro a ha inner
    rw [reaches_var ha, Expr.var, Expr.shape_of]
    simp
  · intro a ha inner
    cases ha with
    | refl =>
      rw [Expr.int, Expr.shape_of]
      simp
    | child mem => cases mem

end Examples

section Callers

variable {S : Type} {limits : Limits} {memory : Memory (StateM S)} {b b' : Formula}
  {p : Precondition (StateM S)} {caller : Frame (StateM S)} {point : Nat} {function : Expr} {c : Call}
  {arrival : Arrival} {s s' : S}

theorem exists_converted (hblock : memory.block.isLoop = false)
    (hmake : ((Precondition.make? limits memory b).run s).1 = some p)
    (hcall : caller.memory.edge? point = some (.call function c.arguments c.result c.receiver))
    (harrival : ((p.atCaller caller point).run.run s').1 = .ok arrival) (hshown : arrival.shown = some b') :
    (∀ e ∈ b.terms, e.Throughout Known) ∧
    ∃ f, (Walk.mapFormula .all .drop
        (callsiteMapper (some (.call function c.arguments c.result c.receiver)) false) b).run = .ok (some f) ∧
      (Walk.mapFormula .all .drop (referenceMapper caller.id) f).run = .ok (some b') := by
  have hmade : Returns (Precondition.make? limits memory b) (some p) := ⟨s, hmake⟩
  have hat : Returns (p.atCaller caller point) arrival := ⟨s', harrival⟩
  obtain ⟨rfl, rfl, hsuits⟩ := Precondition.of_make? hmade
  have hat := Precondition.shownAt_of_atCaller hat
  rw [hshown] at hat
  rw [hblock] at hsuits
  exact ⟨known_of_suitsCaller hsuits, Precondition.shownAt_call hblock hcall hat⟩

/-- What a caller is shown is true in its frame exactly when the precondition is true in the frame that it
calls. -/
theorem holds_atCaller {I : Interpretation} {σ τ : Valuation} (hblock : memory.block.isLoop = false)
    (hmake : ((Precondition.make? limits memory b).run s).1 = some p)
    (hcall : caller.memory.edge? point = some (.call function c.arguments c.result c.receiver))
    (hb : ∀ e ∈ b.terms, e.Exact ∧ c.lacksAddress e = false)
    (hactuals : ∀ v a, c.actual? v = some a → a.Throughout (Steady caller.id))
    (linked : Linked c I σ τ) (hframe : ∀ x, τ.frame caller.id x = x)
    (harrival : ((p.atCaller caller point).run.run s').1 = .ok arrival) (hshown : arrival.shown = some b') :
    b'.holds (I.eval τ) = b.holds (I.eval σ) := by
  obtain ⟨hknown, f, hconverted, hfreed⟩ := exists_converted hblock hmake hcall harrival hshown
  have hinput : ∀ e ∈ b.terms, Convertible c e ∧ e.Exact := fun e he =>
    ⟨⟨hknown e he, (hb e he).2⟩, (hb e he).1⟩
  have converts := converts_eval linked hactuals
  have hterms := Formula.layerKeeps_terms (fun e => Convertible c e ∧ e.Exact)
    (throughout_of_not (q := Steady caller.id))
  have hvalues := Formula.layerKeeps_holds (fun e => Convertible c e ∧ e.Exact) (I.eval σ)
    (Walk.sensible_eval (I := I) (σ := τ))
  have hsteady := converts.mapFormula (hterms.imp fun e e' h he => (h he.1 he.2).1) hconverted hinput
  have htruth := converts.mapFormula (hvalues.imp fun e e' h he => (h he.1 he.2).2) hconverted hinput
  -- From here on both formulas are read in the frame of the caller.
  rw [← htruth]
  exact Walk.mapFormula_related (m := Id) (stepKeeps_referenceMapper hframe)
    ((Formula.layerKeeps_holds _ (I.eval τ) Walk.sensible_eval).imp fun e e' h he => (h.2 he).2) hfreed hsteady

/-- A variable of the caller may be passed shifted. -/
theorem holds_atCaller_of_shifted_variable :
    ∃ (p : Precondition (StateM Unit)) (arrival : Arrival) (b' : Formula) (σ τ : Valuation),
      ((Precondition.make? {} (quietMemory "f" none) (.of (.nonzero pointee))).run ()).1 = some p ∧
      Linked (passing (shifted (.var (.ofGlobal "x"))) rfl) .flat σ τ ∧
      ((p.atCaller (quietFrame (passing (shifted (.var (.ofGlobal "x"))) rfl).edge) 0).run.run ()).1 =
        .ok arrival ∧
      arrival.shown = some b' ∧ b' = .of (.nonzero (shifted (.var (.ofGlobal "x")))) ∧
      b'.holds (Interpretation.flat.eval τ) =
        (Formula.of (.nonzero pointee)).holds (Interpretation.flat.eval σ) := by
  have hvalue : Interpretation.flat.eval (twoValues 7 28) (shifted (.var (.ofGlobal "x"))) = 28 :=
    eval_shifted _ _
  have hmake := run_make?_quiet suitsCaller_pointee
  have hlinked : Linked (passing (shifted (.var (.ofGlobal "x"))) rfl) .flat _ _ := linked_passing rfl hvalue
  have harrival := run_atCaller_shifted (.ofGlobal "x")
  refine ⟨_, _, _, _, _, hmake, hlinked, harrival, rfl, rfl, ?_⟩
  refine holds_atCaller rfl hmake rfl (fun e he => ?_) (fun v a hv => ?_) hlinked (fun _ => rfl) harrival rfl
  · exact ⟨(exact_pointee e he).1, (exact_pointee e he).2 _⟩
  · rw [(eq_of_actual?_passing hv).2]
    exact steady_shifted_var _ _

/-- A reference to the caller's own frame may not: its value is cut off to 128 bits. -/
theorem holds_atCaller_ne_of_shifted_reference :
    ∃ (p : Precondition (StateM Unit)) (arrival : Arrival) (b' : Formula) (σ τ : Valuation),
      ((Precondition.make? {} (quietMemory "f" none) (.of (.nonzero pointee))).run ()).1 = some p ∧
      (∀ e ∈ (Formula.of (.nonzero pointee)).terms, e.Exact ∧ ∀ c : Call, c.lacksAddress e = false) ∧
      Linked (passing (shifted reference) rfl) .flat σ τ ∧ (∀ x, τ.frame 3 x = x) ∧
      ((p.atCaller (quietFrame (passing (shifted reference) rfl).edge) 0).run.run ()).1 = .ok arrival ∧
      arrival.shown = some b' ∧ b'.holds (Interpretation.flat.eval τ) = false ∧
      (Formula.of (.nonzero pointee)).holds (Interpretation.flat.eval σ) = true := by
  have hvalue : Interpretation.flat.eval (twoValues 0 (2 ^ 128)) (shifted reference) = 2 ^ 128 :=
    eval_shifted _ _
  have hne : shifted reference ≠ pointee := Walk.of_ne_of (by simp)
  have hconverted : (Walk.mapFormula .all .drop (callsiteMapper (some (passing (shifted reference) rfl).edge) false)
      (.of (.nonzero pointee))).run = .ok (some (.of (.nonzero (shifted reference)))) := by
    rw [mapFormula_pointee rfl rfl hne, nonzero_shifted]
    rfl
  have harrival := run_atCaller_quiet hconverted (congrArg ExceptT.run mapFormula_shifted_reference)
  refine ⟨_, _, _, _, _, run_make?_quiet suitsCaller_pointee, exact_pointee, linked_passing rfl hvalue,
    fun _ => rfl, harrival, rfl, Formula.holds_const false, ?_⟩
  rw [Formula.of, Formula.holds]
  rfl

/-- A caller that passes only globals is shown only globals. -/
theorem isGlobal_atCaller (hblock : memory.block.isLoop = false)
    (hmake : ((Precondition.make? limits memory b).run s).1 = some p)
    (hcall : caller.memory.edge? point = some (.call function c.arguments c.result c.receiver))
    (hb : ∀ e ∈ b.terms, c.lacksAddress e = false)
    (hactuals : ∀ v a, c.actual? v = some a → a.Throughout GlobalOnly)
    (harrival : ((p.atCaller caller point).run.run s').1 = .ok arrival) (hshown : arrival.shown = some b') :
    ∀ e ∈ b'.terms, ∀ a v, e.Reaches a → a.shape = .var v → v.isGlobal = true := by
  obtain ⟨hknown, f, hconverted, hfreed⟩ := exists_converted hblock hmake hcall harrival hshown
  have hglobal : ∀ e ∈ f.terms, e.Throughout GlobalOnly :=
    (converts_globalOnly hactuals).mapFormula (Formula.layerKeeps_terms (Convertible c) throughout_of_not)
      hconverted fun e he => ⟨hknown e he, hb e he⟩
  have hfreed : ∀ e ∈ b'.terms, e.Throughout GlobalOnly :=
    Walk.mapFormula_related (m := Id) (stepKeeps_referenceMapper_throughout lasting_globalOnly caller.id)
      (Formula.layerKeeps_terms _ throughout_of_not) hfreed hglobal
  intro e he a v ha hv
  exact (hfreed e he).of_reaches ha v hv

theorem isGlobal_atCaller_of_shifted_variable :
    ∃ (p : Precondition (StateM Unit)) (arrival : Arrival) (b' : Formula),
      ((Precondition.make? {} (quietMemory "f" none) (.of (.nonzero pointee))).run ()).1 = some p ∧
      ((p.atCaller (quietFrame (passing (shifted (.var (.ofGlobal "x"))) rfl).edge) 0).run.run ()).1 =
        .ok arrival ∧
      arrival.shown = some b' ∧ b' = .of (.nonzero (shifted (.var (.ofGlobal "x")))) ∧
      ∀ e ∈ b'.terms, ∀ a v, e.Reaches a → a.shape = .var v → v.isGlobal = true := by
  have hmake := run_make?_quiet suitsCaller_pointee
  have harrival := run_atCaller_shifted (.ofGlobal "x")
  refine ⟨_, _, _, hmake, harrival, rfl, rfl, ?_⟩
  refine isGlobal_atCaller rfl hmake rfl (fun e he => (exact_pointee e he).2 _) (fun v a hv => ?_) harrival rfl
  rw [(eq_of_actual?_passing hv).2]
  refine throughout_shifted_var (fun v hv => by cases hv) (fun v hv => ?_) (fun v hv => by cases hv)
  cases hv
  rfl

/-- A tested address of a formal is shown to a caller that passes a constant. -/
theorem not_isGlobal_atCaller_of_tested_formal :
    ∃ (p : Precondition (StateM Unit)) (arrival : Arrival) (b' : Formula),
      ((Precondition.make? {} (quietMemory "f" none) (.of (.nonzero (.var formal)))).run ()).1 = some p ∧
      (∀ v a, (passing (.int 5) rfl).actual? v = some a → a.Throughout GlobalOnly) ∧
      ((p.atCaller (quietFrame (passing (.int 5) rfl).edge) 0).run.run ()).1 = .ok arrival ∧
      arrival.shown = some b' ∧
      ∃ e ∈ b'.terms, e.Reaches (.var formal) ∧ formal.isGlobal = false := by
  have harrival := run_atCaller_quiet (congrArg ExceptT.run (mapFormula_formal (.int 5) rfl rfl))
    (congrArg ExceptT.run mapFormula_reference_formal)
  refine ⟨_, _, _, run_make?_quiet suitsCaller_formal, fun v a hv => ?_, harrival, rfl, .var formal, ?_,
    .refl _, rfl⟩
  · rw [(eq_of_actual?_passing hv).2]
    exact .leaf (fun v hv => by cases hv) rfl
  · rw [Formula.of, Formula.terms]
    exact List.mem_singleton_self _

end Callers
end Retrace.Search
