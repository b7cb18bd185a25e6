import Retrace.Proofs.Expr.Exchange

/-!
Nodes rebuilt over their own children. A logical operation has no width, but the width that was asked for
decides whether one on constants folds; where it was refused, rebuilding the node folds it. Every other node
that can be built comes out as it was.
-/

set_option autoImplicit false

namespace Retrace

/-- The width is the one that the factory of the layer stores. -/
def Shape.Stored : Shape Expr → Prop
  | .unary op w _ => op = .not → w.bits = 0
  | .binary op w _ _ _ => Expr.storedWidth op w = w
  | _ => True

namespace Expr

def truth? (e : Expr) : Option Bool :=
  match e.shape with
  | .unary .not _ a => a.int?.map (· == 0)
  | .binary op _ _ l r =>
    match op, l.int?, r.int? with
    | .and, some x, some y => some (x != 0 && y != 0)
    | .or, some x, some y => some (x != 0 || y != 0)
    | _, _, _ => none
  | _ => none

def refolded (e : Expr) : Expr :=
  match e.truth? with
  | some b => int (Constant.ofTruth b)
  | none => e

structure Settles (e : Expr) : Prop where
  stored : e.shape.Stored
  made : e.shape.make = .ok e.refolded

variable {s : Shape Expr} {e t : Expr}

theorem refolded_of_none (h : e.truth? = none) : e.refolded = e := by
  rw [refolded, h]

theorem truth?_of_children (hleaf : e.children = []) : e.truth? = none := by
  obtain ⟨d, s⟩ := e
  cases s with
  | unary | binary => cases hleaf
  | _ => rfl

theorem settles_of (heq : e = of s) (hmade : s.make = .ok e) (hstored : s.Stored)
    (hnone : (of s).truth? = none) : e.Settles := by
  subst heq
  refine ⟨hstored, ?_⟩
  rw [refolded_of_none hnone]
  exact hmade

theorem settles_int (v : Int) : (int v).Settles := ⟨trivial, rfl⟩

theorem unary_cases (op : UnOp) (w : Width) (t : Expr) :
    (∃ v, unary op w t = int v) ∨ unary op w t = t ∨ unary op w t ∈ t.children ∨
      (op = .not ∧ unary op w t = of (.unary .not { w with bits := 0 } t)) ∨
      (op ≠ .not ∧ unary op w t = of (.unary op w t)) := by
  unfold unary
  split
  · exact .inl ⟨_, rfl⟩
  split
  · exact .inr (.inl rfl)
  split
  · have hshape := ‹t.shape = .unary .neg _ _›
    exact .inr (.inr (.inl (by simp [children, hshape, Shape.children])))
  · exact .inr (.inr (.inr (.inl ⟨rfl, rfl⟩)))
  · rename_i hnot _ _ _
    exact .inr (.inr (.inr (.inr ⟨hnot, rfl⟩)))

theorem unary_not (sign : Bool) (t : Expr) :
    unary .not ⟨0, sign⟩ t = (of (.unary .not ⟨0, sign⟩ t)).refolded := by
  cases ht : t.int? with
  | none => simp [unary, foldUnary?, refolded, truth?, ht]
  | some v =>
    have hfits : (⟨0, sign⟩ : Width).fits (Constant.ofTruth (v == 0)) = true := rfl
    simp [unary, foldUnary?, refolded, truth?, ht, Constant.unary, Option.filter, hfits]

theorem settles_unary (op : UnOp) (w : Width) (ht : t.Everywhere Settles) : (unary op w t).Settles := by
  rcases unary_cases op w t with ⟨v, hv⟩ | hsame | hchild | ⟨rfl, hnode⟩ | ⟨hop, hnode⟩
  · rw [hv]
    exact settles_int v
  · rw [hsame]
    exact ht.here
  · exact (ht.part (mem_parts_of_mem_children hchild)).here
  · rw [hnode]
    exact ⟨fun _ => rfl, congrArg Except.ok (unary_not w.signed t)⟩
  · refine settles_of hnode rfl (fun hnot => absurd hnot hop) ?_
    cases op <;> simp_all [truth?]

section Binary

variable {op : BinOp} {w : Width} {stride : Option CType} {l r : Expr}

theorem simplifyBinary_cases (op : BinOp) (w : Width) (stride : Option CType) (l r : Expr) :
    (∃ v, simplifyBinary op w stride l r = int v) ∨ simplifyBinary op w stride l r = l ∨
      simplifyBinary op w stride l r = r ∨
      (foldBinary? op w l r = none ∧ identity? op l r = none ∧
        simplifyBinary op w stride l r = of (.binary op (storedWidth op w) stride l r)) := by
  unfold simplifyBinary
  split
  · exact .inl ⟨_, rfl⟩
  rename_i hfold
  split
  · rename_i hidentity
    rcases identity?_cases hidentity with rfl | rfl | rfl
    · exact .inr (.inl rfl)
    · exact .inr (.inr (.inl rfl))
    · exact .inl ⟨0, rfl⟩
  · exact .inr (.inr (.inr ⟨hfold, ‹_›, rfl⟩))

/-- With the width it is stored with, an operation that was not folded folds only if it is logical. -/
theorem foldBinary?_storedWidth (stride : Option CType) (h : foldBinary? op w l r = none) :
    foldBinary? op (storedWidth op w) l r =
      (of (.binary op (storedWidth op w) stride l r)).truth?.map Constant.ofTruth := by
  have hfits (v : Int) : Width.unbounded.fits v = true := rfl
  cases hl : l.int? with
  | none => cases op <;> simp [foldBinary?, truth?, hl]
  | some x =>
    cases hr : r.int? with
    | none => cases op <;> simp [foldBinary?, truth?, hl, hr]
    | some y =>
      cases op <;> simp_all [foldBinary?, truth?, storedWidth, BinOp.isTruthValued, BinOp.isComparison,
        Constant.binary, Option.filter]

theorem storedWidth_storedWidth : storedWidth op (storedWidth op w) = storedWidth op w := by
  unfold storedWidth
  split <;> rfl

theorem settles_simplifyBinary (hstride : (stride.isNone && op.isPointerArithmetic) = false) (hl : l.Settles)
    (hr : r.Settles) : (simplifyBinary op w stride l r).Settles := by
  rcases simplifyBinary_cases op w stride l r with ⟨v, hv⟩ | hleft | hright | ⟨hfold, hidentity, hnode⟩
  · rw [hv]
    exact settles_int v
  · rwa [hleft]
  · rwa [hright]
  · -- No identity applied, and none will: only the fold depends on the width.
    have hagain : simplifyBinary op (storedWidth op w) stride l r =
        (of (.binary op (storedWidth op w) stride l r)).refolded := by
      rw [simplifyBinary, foldBinary?_storedWidth stride hfold, hidentity, storedWidth_storedWidth, refolded]
      cases (of (.binary op (storedWidth op w) stride l r)).truth? <;> rfl
    rw [hnode]
    refine ⟨storedWidth_storedWidth, ?_⟩
    rw [← hagain]
    exact if_neg (Bool.eq_false_iff.1 hstride)

end Binary

/-- What a factory makes of a layer: a node with just this layer, something from inside a child, or the result
of an operation. -/
theorem make_cases (h : s.make = .ok e) :
    (e = of s ∧ s.Stored ∧ (of s).truth? = none) ∨ (∃ c ∈ s.children, e ∈ c.children) ∨
      (∃ op w a, s = .unary op w a ∧ e = unary op w a) ∨
      ∃ op w stride l r, s = .binary op w stride l r ∧ e = simplifyBinary op w stride l r := by
  have cancelled {t : Expr} {step : Step} (hshape : t.shape = .access step e) : e ∈ t.children := by
    simp [children, hshape, Shape.children]
  cases s with
  | access step t =>
    cases step with
    | deref => exact .inl ⟨deref_eq h, trivial, rfl⟩
    | field f =>
      rcases field_cases h with ⟨-, hnew⟩ | hshape
      · exact .inl ⟨hnew, trivial, rfl⟩
      · exact .inr (.inl ⟨t, List.mem_cons_self, cancelled hshape⟩)
    | container f =>
      rcases container_cases h with ⟨-, hnew⟩ | hshape
      · exact .inl ⟨hnew, trivial, rfl⟩
      · exact .inr (.inl ⟨t, List.mem_cons_self, cancelled hshape⟩)
    | vtable slot => exact .inl ⟨(Except.ok.inj (checkLvalueTarget_bind h)).symm, trivial, rfl⟩
  | index t element i => exact .inl ⟨(Except.ok.inj (checkLvalueTarget_bind h)).symm, trivial, rfl⟩
  | unary op w a => exact .inr (.inr (.inl ⟨op, w, a, rfl, (Except.ok.inj h).symm⟩))
  | binary op w stride l r =>
    change binary op w stride l r = .ok e at h
    unfold binary at h
    split at h <;> cases h
    exact .inr (.inr (.inr ⟨op, w, stride, l, r, rfl, rfl⟩))
  | bound side t stride => exact .inl ⟨(Except.ok.inj h).symm, trivial, rfl⟩
  | terminator t stride test sentinel => exact .inl ⟨terminator_eq h, trivial, rfl⟩
  | _ => exact .inl ⟨eq_of_make rfl h, trivial, rfl⟩

theorem settles_of_make (h : s.make = .ok e) (hcs : ∀ c ∈ s.children, c.Everywhere Settles) : e.Settles := by
  have hsound := Shape.sound_of_make h
  rcases make_cases h with ⟨hnew, hstored, hnone⟩ | ⟨c, hc, he⟩ | ⟨op, w, a, rfl, rfl⟩ |
    ⟨op, w, stride, l, r, rfl, rfl⟩
  · exact settles_of hnew h hstored hnone
  · exact ((hcs c hc).part (mem_parts_of_mem_children he)).here
  · exact settles_unary op w (hcs a List.mem_cons_self)
  · exact settles_simplifyBinary hsound (hcs l List.mem_cons_self).here (hcs r (by simp [Shape.children])).here

theorem Obtainable.settles (h : Obtainable e) : e.Settles := by
  suffices heverywhere : e.Everywhere Settles from heverywhere.here
  induction h with
  | @make s e parts made ih =>
    have hcs : ∀ c ∈ s.children, c.Everywhere Settles :=
      fun c hc => ih c (mem_parts_of_mem_children (e := of s) hc)
    exact everywhere_of_remade (remade_of_make made) (fun _ => settles_of_make made hcs) settles_int hcs ih

/-- A node that can be built is rebuilt over its own children to itself, or to its truth. -/
theorem Obtainable.withChildren_children (h : Obtainable e) : e.withChildren e.children = .ok e.refolded := by
  by_cases hleaf : e.children = []
  · rw [refolded_of_none (truth?_of_children hleaf), hleaf, withChildren_nil hleaf]
  · rw [withChildren_eq_make rfl hleaf, children, over_children]
    exact h.settles.made

theorem Obtainable.rebuild?_children (h : Obtainable e) : e.rebuild? e.children = .ok (some e.refolded) := by
  rw [rebuild?, if_pos h.standing.accepts, h.withChildren_children]
  rfl

theorem refolded_eq_self_iff : e.refolded = e ↔ e.truth? = none := by
  refine ⟨fun h => ?_, refolded_of_none⟩
  cases htruth : e.truth? with
  | none => rfl
  | some b =>
    -- A constant is no logical operation.
    rw [refolded, htruth] at h
    rw [← h] at htruth
    cases htruth

theorem truth?_refolded (e : Expr) : e.refolded.truth? = none := by
  unfold refolded
  split
  · rfl
  · assumption

def Folded (e : Expr) : Prop := ∀ a, e.Reaches a → a.truth? = none

theorem Folded.child {c : Expr} (h : e.Folded) (hc : c ∈ e.children) : c.Folded := fun a ha => h a (.child hc ha)

theorem folded_of_children (here : e.truth? = none) (hcs : ∀ c ∈ e.children, c.Folded) : e.Folded := by
  intro a ha
  cases ha with
  | refl => exact here
  | child mem reaches => exact hcs _ mem a reaches

theorem folded_int (v : Int) : (int v).Folded := folded_of_children rfl (List.forall_mem_nil _)

theorem folded_unary {op : UnOp} {w : Width} (hw : (Shape.unary op w t).Stored) (ht : t.Folded) :
    (unary op w t).Folded := by
  rcases unary_cases op w t with ⟨v, hv⟩ | hsame | hchild | ⟨rfl, hnode⟩ | ⟨hop, hnode⟩
  · rw [hv]
    exact folded_int v
  · rwa [hsame]
  · exact ht.child hchild
  · have htruth : (unary .not w t).truth? = none := by
      obtain ⟨bits, sign⟩ := w
      cases hw rfl
      rw [unary_not]
      exact truth?_refolded _
    rw [hnode] at htruth ⊢
    exact folded_of_children htruth (List.forall_mem_singleton.2 ht)
  · rw [hnode]
    refine folded_of_children ?_ (List.forall_mem_singleton.2 ht)
    cases op <;> simp_all [truth?]

theorem folded_simplifyBinary {op : BinOp} {w : Width} {stride : Option CType} {l r : Expr}
    (hw : storedWidth op w = w) (hl : l.Folded) (hr : r.Folded) : (simplifyBinary op w stride l r).Folded := by
  rcases simplifyBinary_cases op w stride l r with ⟨v, hv⟩ | hleft | hright | ⟨hfold, -, hnode⟩
  · rw [hv]
    exact folded_int v
  · rwa [hleft]
  · rwa [hright]
  · have htruth := foldBinary?_storedWidth stride hfold
    rw [hw, hfold, eq_comm, Option.map_eq_none_iff] at htruth
    rw [hnode, hw]
    exact folded_of_children htruth (List.forall_mem_cons.2 ⟨hl, List.forall_mem_singleton.2 hr⟩)

/-- What is made with the width that is stored, of children without logical operations on constants, has none
either. -/
theorem folded_of_make (hs : s.Stored) (h : s.make = .ok e) (hcs : ∀ c ∈ s.children, c.Folded) : e.Folded := by
  rcases make_cases h with ⟨rfl, -, hnone⟩ | ⟨c, hc, he⟩ | ⟨op, w, a, rfl, rfl⟩ |
    ⟨op, w, stride, l, r, rfl, rfl⟩
  · exact folded_of_children hnone hcs
  · exact (hcs c hc).child he
  · exact folded_unary hs (hcs a List.mem_cons_self)
  · exact folded_simplifyBinary hs (hcs l List.mem_cons_self) (hcs r (by simp [Shape.children]))

theorem stored_over {cs : List Expr} (hs : s.Stored) : (s.over cs).Stored := by
  unfold Shape.over
  split <;> exact hs

/-- Rebuilding folds: over children without logical operations on constants it gives a node without them. -/
theorem Obtainable.folded_of_rebuild? {cs : List Expr} {value : Expr} (he : Obtainable e)
    (hlength : cs.length = e.children.length) (hcs : ∀ c ∈ cs, c.Folded) (h : e.rebuild? cs = .ok (some value)) :
    value.Folded := by
  by_cases hleaf : e.children = []
  · rw [hleaf] at hlength
    rw [List.length_eq_zero_iff.1 hlength, rebuild?_nil hleaf] at h
    cases h
    exact folded_of_children (truth?_of_children hleaf) (by rw [hleaf]; exact List.forall_mem_nil _)
  unfold rebuild? at h
  split at h
  · rw [withChildren_eq_make hlength hleaf] at h
    cases hmade : (e.shape.over cs).make with
    | error fault =>
      rw [hmade] at h
      cases h
    | ok made =>
      rw [hmade] at h
      cases h
      refine folded_of_make (stored_over he.settles.stored) hmade ?_
      rwa [(Shape.sameOperator_over hleaf hlength).2]
  · cases h

end Expr
end Retrace
