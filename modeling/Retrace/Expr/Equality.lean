import Retrace.Expr.Basic
import Retrace.Sharing

/-!
Equality of expressions is decided by comparing structure, with shortcuts: the same object is equal to
itself, different digests mean different nodes, and a pair of objects is compared once. A layer is taken
apart into its label, which holds no sub-expressions, and its parts.
-/

set_option autoImplicit false

namespace Retrace

deriving instance DecidableEq for Shape

namespace Shape

variable {α : Type}

def label : Shape α → Shape Unit
  | empty => empty
  | var v => var v
  | text bytes => text bytes
  | int v => int v
  | float digits => float digits
  | guard point => guard point
  | access step _ => access step ()
  | index _ element _ => index () element ()
  | unary op w _ => unary op w ()
  | binary op w stride _ _ => binary op w stride () ()
  | clobber _ k _ point => clobber () (k.map fun _ => ()) () point
  | moment m _ k => moment m () (k.map fun _ => ())
  | value _ k point relative => value () (k.map fun _ => ()) point relative
  | frame _ id => frame () id
  | bound side t stride => bound side (t.map fun _ => ()) stride
  | terminator t stride _ _ => terminator (t.map fun _ => ()) stride () ()

/-- The layer with the given label and parts, if their number is right. -/
def fill? : Shape Unit → List α → Option (Shape α)
  | empty, [] => some empty
  | var v, [] => some (var v)
  | text bytes, [] => some (text bytes)
  | int v, [] => some (int v)
  | float digits, [] => some (float digits)
  | guard point, [] => some (guard point)
  | access step _, [t] => some (access step t)
  | index _ element _, [t, i] => some (index t element i)
  | unary op w _, [e] => some (unary op w e)
  | binary op w stride _ _, [l, r] => some (binary op w stride l r)
  | clobber _ none _ point, [c, o] => some (clobber c none o point)
  | clobber _ (some _) _ point, [c, k, o] => some (clobber c (some k) o point)
  | moment m _ none, [t] => some (moment m t none)
  | moment m _ (some _), [t, k] => some (moment m t (some k))
  | value _ none point relative, [l] => some (value l none point relative)
  | value _ (some _) point relative, [l, k] => some (value l (some k) point relative)
  | frame _ id, [v] => some (frame v id)
  | bound side none stride, [] => some (bound side none stride)
  | bound side (some _) stride, [t] => some (bound side (some t) stride)
  | terminator none stride _ _, [u, v] => some (terminator none stride u v)
  | terminator (some _) stride _ _, [t, u, v] => some (terminator (some t) stride u v)
  | _, _ => none

theorem fill?_label_parts (s : Shape α) : fill? s.label s.parts = some s := by
  cases s with
  | clobber c k o p => cases k <;> rfl
  | moment m t k => cases k <;> rfl
  | value l k p r => cases k <;> rfl
  | bound b t s => cases t <;> rfl
  | terminator t s u v => cases t <;> rfl
  | _ => rfl

theorem eq_iff_label_parts (s s' : Shape α) :
    s = s' ↔ s.label = s'.label ∧ s.parts = s'.parts := by
  constructor
  · rintro rfl
    exact ⟨rfl, rfl⟩
  · rintro ⟨hl, hp⟩
    have h := fill?_label_parts s
    rw [hl, hp, fill?_label_parts s'] at h
    exact (Option.some.inj h).symm

end Shape

namespace Expr

open Sharing

mutual
def equate (a : Expr) : (b : Expr) → Known Expr → Finding (a = b) Expr :=
  remembering a fun b known =>
    match a, b with
    | node d s, node d' s' =>
      if hd : d = d' then
        if hl : s.label = s'.label then
          match comparers s with
          | ⟨cs, hcs⟩ =>
            match compareEach cs s'.parts known with
            | (isTrue y, known) =>
              (isTrue (by rw [hd, (Shape.eq_iff_label_parts s s').2 ⟨hl, hcs ▸ y⟩]), known)
            | (isFalse n, known) => (isFalse (by rintro ⟨⟩; exact n hcs), known)
        else (isFalse (by rintro ⟨⟩; exact hl rfl), known)
      else (isFalse (by rintro ⟨⟩; exact hd rfl), known)
def comparers : (s : Shape Expr) → { cs : List (Comparer Expr) // cs.map (·.value) = s.parts }
  | .access _ t => ⟨[⟨t, equate t⟩], rfl⟩
  | .index t _ i => ⟨[⟨t, equate t⟩, ⟨i, equate i⟩], rfl⟩
  | .unary _ _ e => ⟨[⟨e, equate e⟩], rfl⟩
  | .binary _ _ _ l r => ⟨[⟨l, equate l⟩, ⟨r, equate r⟩], rfl⟩
  | .clobber c none o _ => ⟨[⟨c, equate c⟩, ⟨o, equate o⟩], rfl⟩
  | .clobber c (some k) o _ => ⟨[⟨c, equate c⟩, ⟨k, equate k⟩, ⟨o, equate o⟩], rfl⟩
  | .moment _ t none => ⟨[⟨t, equate t⟩], rfl⟩
  | .moment _ t (some k) => ⟨[⟨t, equate t⟩, ⟨k, equate k⟩], rfl⟩
  | .value l none _ _ => ⟨[⟨l, equate l⟩], rfl⟩
  | .value l (some k) _ _ => ⟨[⟨l, equate l⟩, ⟨k, equate k⟩], rfl⟩
  | .frame v _ => ⟨[⟨v, equate v⟩], rfl⟩
  | .bound _ none _ => ⟨[], rfl⟩
  | .bound _ (some t) _ => ⟨[⟨t, equate t⟩], rfl⟩
  | .terminator none _ u v => ⟨[⟨u, equate u⟩, ⟨v, equate v⟩], rfl⟩
  | .terminator (some t) _ u v => ⟨[⟨t, equate t⟩, ⟨u, equate u⟩, ⟨v, equate v⟩], rfl⟩
  | .empty | .var _ | .text _ | .int _ | .float _ | .guard _ => ⟨[], rfl⟩
end

instance : DecidableEq Expr := fun a b =>
  if h : a.digest = b.digest then (a.equate b .nothing).1
  else isFalse fun e => h (congrArg digest e)

end Expr
end Retrace
