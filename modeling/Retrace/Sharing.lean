import Std.Data.HashMap

/-!
Comparisons that take the sharing of objects into account. Two separately built values with much sharing
inside have few pairs of objects but many paths; a comparison that remembers the pairs it found equal
looks at each of them once. What is remembered decides nothing: equal or not, the answer is the same.
-/

set_option autoImplicit false

namespace Retrace.Sharing

variable {α : Type}

/-- Where a value is stored. Only the running time may depend on it. -/
def place (a : α) : Squash USize := withPtrAddr a Squash.mk fun _ _ => Subsingleton.elim _ _

def isSameObject (a b : α) : Squash Bool :=
  (place a).lift fun u => (place b).lift fun v => Squash.mk (u == v)

/-- Two objects that were found equal. -/
structure Twins (α : Type) where
  left : α
  right : α
  same : left = right

abbrev Known (α : Type) := Squash (Std.HashMap USize (List (Twins α)))

abbrev Finding (p : Prop) (α : Type) := Decidable p × Known α

namespace Known

def nothing : Known α := Squash.mk {}

def add (known : Known α) (t : Twins α) : Known α :=
  known.lift fun pairs =>
    (place t.left).lift fun u => Squash.mk (pairs.insert u (t :: pairs.getD u []))

def find? (a b : α) : List (Twins α) → Squash (Option (Twins α))
  | [] => Squash.mk none
  | t :: ts =>
    (isSameObject a t.left).lift fun l =>
      (isSameObject b t.right).lift fun r => if l && r then Squash.mk (some t) else find? a b ts

def get? (known : Known α) (a b : α) : Squash (Option (Twins α)) :=
  known.lift fun pairs => (place a).lift fun u => find? a b (pairs.getD u [])

end Known

/-- Decides whether `a`, which equals both of a known pair, is `b`: at once if the right object is `b`. -/
def Twins.decideRight (t : Twins α) (a b : α) (h : a = t.left) (compare : Unit → Finding (a = b) α) :
    Decidable (a = b) :=
  have hr : a = t.right := h.trans t.same
  let right : Decidable (t.right = b) :=
    withPtrEqDecEq t.right b fun _ =>
      match compare () with
      | (isTrue e, _) => isTrue (hr.symm.trans e)
      | (isFalse n, _) => isFalse fun e => n (hr.trans e)
  match right with
  | isTrue e => isTrue (hr.trans e)
  | isFalse n => isFalse fun e => n (hr.symm.trans e)

def Twins.compare (t : Twins α) (a b : α) (compare : ∀ c : α, Known α → Finding (a = c) α)
    (known : Known α) : Finding (a = b) α :=
  match withPtrEqDecEq a t.left fun _ => (compare t.left known).1 with
  | isTrue h => (t.decideRight a b h fun _ => compare b known, known)
  | isFalse _ => compare b known

/-- Compares `a` with `b` by `compare`, unless they are one object or the pair is known. -/
def remembering (a : α) (compare : ∀ c : α, Known α → Finding (a = c) α) (b : α) (known : Known α) :
    Finding (a = b) α :=
  (isSameObject a b).lift fun same =>
    if same then (withPtrEqDecEq a b fun _ => (compare b known).1, known)
    else
      (known.get? a b).lift fun
        | some t => t.compare a b compare known
        | none =>
          match compare b known with
          | (isTrue h, known) => (isTrue h, known.add ⟨a, b, h⟩)
          | (isFalse h, known) => (isFalse h, known)

structure Comparer (α : Type) where
  value : α
  compare : ∀ b : α, Known α → Finding (value = b) α

def compareEach : (as : List (Comparer α)) → (bs : List α) → Known α →
    Finding (as.map (·.value) = bs) α
  | [], [], known => (isTrue rfl, known)
  | [], _ :: _, known => (isFalse (by simp), known)
  | _ :: _, [], known => (isFalse (by simp), known)
  | a :: as, b :: bs, known =>
    match a.compare b known with
    | (isFalse h, known) => (isFalse (by simp [h]), known)
    | (isTrue h, known) =>
      match compareEach as bs known with
      | (isFalse h', known) => (isFalse (by simp [h']), known)
      | (isTrue h', known) => (isTrue (by simp [h, h']), known)

end Retrace.Sharing
