import Retrace.Proofs.Expr.Rebuilding
import Retrace.Proofs.Formula.Normal
import Retrace.Search.Frames

/-!
Taking the references to a frame off, one node at a time, and where there are none.
-/

set_option autoImplicit false

namespace Retrace.Search

open Formula (Normal)
open Returning

variable {id : Nat}

def Unreferenced (id : Nat) (e : Expr) : Prop := ∀ a, e.Reaches a → ∀ inner, a.shape ≠ .frame inner id

theorem Unreferenced.child {e t : Expr} (h : Unreferenced id e) (ht : t ∈ e.children) : Unreferenced id t :=
  fun a ha => h a (.child ht ha)

theorem withoutReference_cases (id : Nat) (e : Expr) :
    e.shape = .frame (withoutReference id e) id ∨
      (∀ inner, e.shape ≠ .frame inner id) ∧ withoutReference id e = e := by
  unfold withoutReference
  cases hshape : e.shape with
  | frame inner owner =>
    dsimp only
    split
    · rename_i howner
      exact .inl (howner ▸ rfl)
    · rename_i howner
      refine .inr ⟨fun inner' h => ?_, rfl⟩
      cases h
      exact howner rfl
  | _ => exact .inr ⟨by simp, rfl⟩

theorem throughout_withoutReference {q : Shape Expr → Prop} {e : Expr} (id : Nat) (h : e.Throughout q) :
    (withoutReference id e).Throughout q := by
  rcases withoutReference_cases id e with hreference | ⟨-, hsame⟩
  · exact h.hidden (by rw [Expr.hidden, hreference]; exact List.mem_singleton_self _)
  · rwa [hsame]

theorem eq_withoutReference {value node e' : Expr}
    (h : Returns (m := ExceptT Fault Id) ((referenceMapper id).map value node) (some e')) :
    e' = withoutReference id value :=
  Option.some.inj (of_pure (m := ExceptT Fault Id) h)

theorem applied_referenceMapper (id : Nat) (value node : Expr) :
    Walk.applied .drop (referenceMapper id) value node = pure (some (withoutReference id value)) := by
  simp [Walk.applied, referenceMapper]

theorem returns_dropReferences? {f g : Formula} (h : dropReferences id f = .ok g) :
    Returns (m := ExceptT Fault Id) (Walk.mapFormula .all .drop (referenceMapper id) f) (some g) := by
  obtain ⟨r, hr, hg⟩ := of_bind (m := Except Fault) h
  cases r with
  | none => cases hg
  | some g' =>
    cases of_pure (m := Except Fault) hg
    exact hr

theorem normal_of_dropReferences {f g : Formula} (hf : Normal f) (h : dropReferences id f = .ok g) : Normal g :=
  Formula.normal_of_mapFormula (m := Id) hf (returns_dropReferences? h)

theorem stepGives_unreferenced (id : Nat) :
    Walk.StepGives (.returned Id) (fun _ => False) .all .drop (referenceMapper id) (Unreferenced id)
      fun e r => r = some e := by
  refine Walk.stepGives_self (fun e he c hc => he.child hc) fun e he => ?_
  rcases withoutReference_cases id e with hreference | ⟨-, hsame⟩
  · exact absurd hreference (he e (.refl e) _)
  · exact congrArg (fun e => pure (some e)) hsame

theorem dropReferences_self {f : Formula} (hf : Normal f) (h : ∀ e ∈ f.terms, Unreferenced id e) :
    dropReferences id f = .ok f := by
  have hgives := (stepGives_unreferenced id).mapFormula (Formula.layerGives_self _ _) ⟨hf, h⟩
  obtain ⟨r, hr, rfl⟩ := Guarantee.exists_of_sure_id hgives
  rw [dropReferences, dropReferences?, hr]
  rfl

end Retrace.Search
