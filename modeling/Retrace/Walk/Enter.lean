import Retrace.Walk.Map

/-!
Mappings that are started anew on something inside a node, with nothing remembered, to answer for the node.
Such a mapping may go on without end; it has no outcome then.
-/

set_option autoImplicit false

namespace Retrace.Walk

/-- What is to be done with a node. -/
inductive Reply where
  | answer (result : Except Fault (Option Expr))
  /-- Another expression is mapped first, and the answer depends on what became of it. -/
  | enter (inside : Expr) (close : Option Expr → Except Fault (Option Expr))

def entering (reply : (value node : Expr) → Reply) (again : Expr → Option (Except Fault (Option Expr))) :
    Mapper Option where
  map value node :=
    match reply value node with
    | .answer result => lift result
    | .enter inside close => ExceptT.mk (again inside) >>= fun r => lift (close r)

section Continuity

variable {α β : Type}

/-- The one computation comes to what the other comes to, or to no end. -/
def Approaches (x y : Option α) : Prop := x = none ∨ x = y

theorem Approaches.bind {x y : Option α} {f g : α → Option β} (hx : Approaches x y)
    (hf : ∀ a, Approaches (f a) (g a)) : Approaches (x >>= f) (y >>= g) := by
  rcases hx with rfl | rfl
  · exact .inl rfl
  · cases x with
    | none => exact .inl rfl
    | some a => exact hf a

def ApproachesThrowing (x y : ExceptT Fault Option α) : Prop := Approaches x.run y.run

theorem ApproachesThrowing.refl (x : ExceptT Fault Option α) : ApproachesThrowing x x := .inr rfl

theorem ApproachesThrowing.bind {x y : ExceptT Fault Option α} {f g : α → ExceptT Fault Option β}
    (hx : ApproachesThrowing x y) (hf : ∀ a, ApproachesThrowing (f a) (g a)) :
    ApproachesThrowing (x >>= f) (y >>= g) := by
  refine Approaches.bind hx fun r => ?_
  cases r with
  | ok a => exact hf a
  | error fault => exact .inr rfl

def ApproachesFrom (x y : StateT Memo (ExceptT Fault Option) α) : Prop :=
  ∀ memo, ApproachesThrowing (x.run memo) (y.run memo)

theorem ApproachesFrom.refl (x : StateT Memo (ExceptT Fault Option) α) : ApproachesFrom x x :=
  fun memo => .refl (x.run memo)

theorem ApproachesFrom.bind {x y : StateT Memo (ExceptT Fault Option) α}
    {f g : α → StateT Memo (ExceptT Fault Option) β} (hx : ApproachesFrom x y)
    (hf : ∀ a, ApproachesFrom (f a) (g a)) : ApproachesFrom (x >>= f) (y >>= g) :=
  fun memo => (hx memo).bind fun r => hf r.1 r.2

theorem ApproachesThrowing.lift {x y : ExceptT Fault Option α} (h : ApproachesThrowing x y) :
    ApproachesFrom (liftM x) (liftM y) :=
  fun _ => h.bind fun _ => .refl _

theorem approachesFrom_mapEach {f g : α → StateT Memo (ExceptT Fault Option) (Option β)} (as : List α)
    (h : ∀ a ∈ as, ApproachesFrom (f a) (g a)) : ApproachesFrom (mapEach f as) (mapEach g as) := by
  induction as with
  | nil => exact .refl _
  | cons a as ih =>
    obtain ⟨ha, has⟩ := List.forall_mem_cons.1 h
    refine ha.bind fun r => ?_
    cases r with
    | none => exact .refl _
    | some b => exact (ih has).bind fun _ => .refl _

variable {scope : Scope} {policy : Policy} {f g : Mapper Option}

theorem approaches_settle (h : ∀ value node, ApproachesThrowing (f.map value node) (g.map value node))
    (e : Expr) (children : Option (List Expr)) :
    ApproachesThrowing (settle scope policy f e children) (settle scope policy g e children) := by
  cases children with
  | none => exact .refl _
  | some cs =>
    refine (ApproachesThrowing.refl _).bind fun value => ?_
    split
    · exact .refl _
    split
    · exact (h _ e).bind fun _ => .refl _
    · exact .refl _

theorem approachesFrom_mapExpr (h : ∀ value node, ApproachesThrowing (f.map value node) (g.map value node))
    (e : Expr) : ApproachesFrom (mapExpr scope policy f e) (mapExpr scope policy g e) := by
  rw [mapExpr, mapExpr]
  refine (ApproachesFrom.refl _).bind fun memo => ?_
  split
  · exact .refl _
  refine (approachesFrom_mapEach _ fun c _ => ?_).bind fun children => ?_
  · exact (approachesFrom_mapExpr h c.1).bind fun _ => .refl _
  · exact (approaches_settle h e children).lift.bind fun _ => .refl _
termination_by sizeOf e
decreasing_by exact Expr.sizeOf_lt_of_mem_children c.2

variable (scope policy) in
theorem approaches_map (h : ∀ value node, ApproachesThrowing (f.map value node) (g.map value node)) (e : Expr) :
    ApproachesThrowing (map scope policy f e) (map scope policy g e) :=
  (approachesFrom_mapExpr h e []).bind fun _ => .refl _

theorem approaches_entering {again again' : Expr → Option (Except Fault (Option Expr))}
    (h : ∀ e, Approaches (again e) (again' e)) (reply : (value node : Expr) → Reply) (value node : Expr) :
    ApproachesThrowing ((entering reply again).map value node) ((entering reply again').map value node) := by
  unfold entering
  dsimp only
  split
  · exact .refl _
  · rename_i inside close _
    exact ApproachesThrowing.bind (h inside) fun _ => .refl _

end Continuity

section Mapping

variable (scope : Scope) (policy : Policy) (reply : (value node : Expr) → Reply)

/-- Maps an expression. What is entered on the way is mapped in the same way, from the start, and nothing makes it
smaller than the expression: a replacement can enter what it has put in. -/
def mapEntering (e : Expr) : Option (Except Fault (Option Expr)) :=
  (map scope policy (entering reply (by apply mapEntering)) e).run
partial_fixpoint monotonicity by
  intro again again' h e
  have hagain (i : Expr) : Approaches (again i) (again' i) := by
    have hi := h i
    generalize again i = x, again' i = y at hi
    cases hi with
    | bot => exact .inl rfl
    | refl => exact .inr rfl
  have hmap : Approaches (map scope policy (entering reply again) e).run
      (map scope policy (entering reply again') e).run :=
    approaches_map scope policy (approaches_entering hagain reply) e
  dsimp only
  generalize (map scope policy (entering reply again) e).run = x,
    (map scope policy (entering reply again') e).run = y at hmap ⊢
  rcases hmap with rfl | rfl
  · exact .bot
  · exact .refl

def enterer : Mapper Option := entering reply (mapEntering scope policy reply)

def mapFormulaEntering (b : Formula) : Option (Except Fault (Option Formula)) :=
  (mapFormula scope policy (enterer scope policy reply) b).run

end Mapping

/-- The outcome of a computation that is taken to come to an end. -/
def concluded {α : Type} (x : Option (Except Fault α)) : Except Fault α := x.getD (.error .endless)

end Retrace.Walk
