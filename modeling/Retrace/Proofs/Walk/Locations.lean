import Retrace.Proofs.Walk.Limit

/-!
The locations that a formula reads. A location can be come to first as part of an expression, as what a node reads, or
inside a modifier or a placeholder, and the walk looks through it only once; whichever it is, the list ends up with the
locations read by the nodes that the formula has to do with, each of them once.
-/

set_option autoImplicit false

namespace Retrace

namespace Formula

/-- The nodes that a formula has to do with. It tests some expressions, under negations and in junctions. From a node it
has to do with the children, with the location whose value at another moment the node is, with what a call overwrote,
with the location of a value that has not been looked into, and with the value that belongs to another frame. -/
inductive Concerns (f : Formula) : Expr → Prop
  | tested {g : Formula} {e : Expr} (within : Within g f) (test : g.clause = .nonzero e) : Concerns f e
  | child {e c : Expr} (node : Concerns f e) (mem : c ∈ e.children) : Concerns f c
  | moment {e t : Expr} {m : Moment} {kind : Option Expr} (node : Concerns f e)
    (shape : e.shape = .moment m t kind) : Concerns f t
  | overwritten {e callee t : Expr} {kind : Option Expr} {point : Nat} (node : Concerns f e)
    (shape : e.shape = .clobber callee kind t point) : Concerns f t
  | valued {e t : Expr} {kind : Option Expr} {point : Nat} {relative : Bool} (node : Concerns f e)
    (shape : e.shape = .value t kind point relative) : Concerns f t
  | framed {e t : Expr} {id : Nat} (node : Concerns f e) (shape : e.shape = .frame t id) : Concerns f t

theorem mem_terms_iff {f : Formula} {e : Expr} :
    e ∈ f.terms ↔ ∃ g, Within g f ∧ g.clause = .nonzero e := by
  constructor
  · intro he
    induction f using inductionOnOperands with
    | step f ih =>
      by_cases htest : ∃ t, f.clause = .nonzero t
      · obtain ⟨t, ht⟩ := htest
        obtain ⟨d, c⟩ := f
        cases ht
        rw [terms] at he
        exact ⟨_, .self, congrArg _ (List.mem_singleton.1 he).symm⟩
      · obtain ⟨g, hg, heg⟩ := exists_mem_operands (fun t ht => htest ⟨t, ht⟩) he
        obtain ⟨h, hwithin, hclause⟩ := ih g hg heg
        exact ⟨h, .operand hg hwithin, hclause⟩
  · rintro ⟨g, hwithin, hclause⟩
    induction hwithin with
    | self => exact mem_terms_of_clause hclause
    | operand mem _ ih => exact mem_terms_of_mem_operands mem ih

end Formula

namespace Expr

/-- A node reads a location: it is the contents of it, its value at another moment, what a call left in it, or its value
at a point. -/
inductive Reads (e t : Expr) : Prop
  | deref (shape : e.shape = .access .deref t)
  | moment {m : Moment} {kind : Option Expr} (shape : e.shape = .moment m t kind)
  | clobber {callee : Expr} {kind : Option Expr} {point : Nat} (shape : e.shape = .clobber callee kind t point)
  | value {kind : Option Expr} {point : Nat} {relative : Bool} (shape : e.shape = .value t kind point relative)

theorem read?_eq_some_iff {e t : Expr} : e.read? = some t ↔ Reads e t := by
  constructor
  · intro h
    obtain ⟨d, s⟩ := e
    cases s with
    | access step =>
      cases step with
      | deref => cases h; exact .deref rfl
      | _ => cases h
    | moment => cases h; exact .moment rfl
    | clobber => cases h; exact .clobber rfl
    | value => cases h; exact .value rfl
    | _ => cases h
  · intro h
    cases h with
    | deref shape | moment shape | clobber shape | value shape => rw [read?, shape, Shape.read?]

end Expr

namespace Formula

variable {f : Formula} {e c : Expr}

theorem Concerns.inward (h : Concerns f e) (hc : c ∈ e.inward) : Concerns f c := by
  rcases List.mem_append.1 hc with hchild | hhidden
  · exact .child h hchild
  · obtain ⟨d, s⟩ := e
    cases s with
    | moment => cases List.mem_singleton.1 hhidden; exact .moment h rfl
    | clobber => cases List.mem_singleton.1 hhidden; exact .overwritten h rfl
    | value => cases List.mem_singleton.1 hhidden; exact .valued h rfl
    | frame => cases List.mem_singleton.1 hhidden; exact .framed h rfl
    | _ => cases hhidden

theorem Concerns.of_leads (h : Concerns f e) {a : Expr} (ha : Walk.Scope.lvalues.Leads e a) : Concerns f a := by
  induction ha with
  | refl => exact h
  | next mem _ ih => exact ih (h.inward mem)

/-- A formula has to do with the nodes that a walk for locations comes to. -/
theorem concerns_iff {a : Expr} : Concerns f a ↔ ∃ e ∈ f.terms, Walk.Scope.lvalues.Leads e a := by
  constructor
  · intro h
    -- one more node inward at the far end of the walk
    have further {b c : Expr} (hb : ∃ e ∈ f.terms, Walk.Scope.lvalues.Leads e b) (hc : c ∈ b.inward) :
        ∃ e ∈ f.terms, Walk.Scope.lvalues.Leads e c := by
      obtain ⟨e, he, hleads⟩ := hb
      exact ⟨e, he, hleads.trans (.next hc (.refl c))⟩
    induction h with
    | tested within test => exact ⟨_, mem_terms_iff.2 ⟨_, within, test⟩, .refl _⟩
    | child _ mem ih => exact further ih (List.mem_append_left _ mem)
    | moment _ shape ih | overwritten _ shape ih | valued _ shape ih | framed _ shape ih =>
      refine further ih (List.mem_append_right _ ?_)
      rw [Expr.hidden, shape]
      exact List.mem_singleton_self _
  · rintro ⟨e, he, hleads⟩
    obtain ⟨g, hwithin, hclause⟩ := mem_terms_iff.1 he
    exact (Concerns.tested hwithin hclause).of_leads hleads

end Formula

namespace Walk

/-- The locations of a formula are those that the nodes it has to do with read, without repetition. -/
theorem locations_exact (f : Formula) :
    (locations f).Nodup ∧ ∀ t, t ∈ locations f ↔ ∃ e, f.Concerns e ∧ e.Reads t := by
  constructor
  · rw [locations, visitFormula_eq (fun _ => rfl)]
    exact nodup_foldl_addDistinct _ List.nodup_nil
  · intro t
    rw [mem_locations_iff]
    constructor
    · rintro ⟨e, he, a, hleads, hread⟩
      exact ⟨a, Formula.concerns_iff.2 ⟨e, he, hleads⟩, Expr.read?_eq_some_iff.1 hread⟩
    · rintro ⟨a, hconcerns, hreads⟩
      obtain ⟨e, he, hleads⟩ := Formula.concerns_iff.1 hconcerns
      exact ⟨e, he, a, hleads, Expr.read?_eq_some_iff.2 hreads⟩

end Walk
end Retrace
