import Retrace.Expr.Order

/-!
Formulas over the question whether an expression is non-zero. As with expressions, a node stores the
digest of its structure, and equal structure means equal nodes.
-/

set_option autoImplicit false

namespace Retrace

inductive Connective where
  | all
  | any
deriving DecidableEq, Repr

namespace Connective

def neutral : Connective → Bool
  | all => true
  | any => false

end Connective

inductive Clause (α : Type) where
  | const (value : Bool)
  | nonzero (e : Expr)
  | not (operand : α)
  | junction (connective : Connective) (operands : List α)

inductive Formula where
  | node (digest : Digest) (clause : Clause Formula)

namespace Clause

variable {α : Type}

def rank : Clause α → Nat
  | const _ => 0
  | nonzero _ => 1
  | not _ => 2
  | junction .all _ => 3
  | junction .any _ => 4

def operands : Clause α → List α
  | not f => [f]
  | junction _ fs => fs
  | _ => []

def feed (child : α → Digest) (d : Digest) (c : Clause α) : Digest :=
  let sub (d : Digest) (a : α) : Digest := d.word32 (child a).state.toNat
  let d := d.choice c.rank
  match c with
  | const b => d.flag b
  | nonzero e => d.word32 e.digest.state.toNat
  | not f => sub d f
  | junction _ fs => d.sequence sub fs

end Clause

namespace Formula

def digest : Formula → Digest
  | node d _ => d

def clause : Formula → Clause Formula
  | node _ c => c

def of (c : Clause Formula) : Formula := node (c.feed digest .start) c

@[simp] theorem digest_node (d : Digest) (c : Clause Formula) : (node d c).digest = d := rfl

@[simp] theorem clause_node (d : Digest) (c : Clause Formula) : (node d c).clause = c := rfl

@[simp] theorem clause_of (c : Clause Formula) : (of c).clause = c := rfl

def operands (f : Formula) : List Formula := f.clause.operands

theorem sizeOf_lt_of_mem_operands {g f : Formula} (h : g ∈ f.operands) : sizeOf g < sizeOf f := by
  obtain ⟨d, c⟩ := f
  cases c with
  | junction k fs =>
    have := List.sizeOf_lt_of_mem (show g ∈ fs from h)
    simp; omega
  | _ => simp [operands, Clause.operands] at h <;> subst h <;> simp <;> omega

/-- A property that passes from the operands of a formula to the formula holds of every formula. -/
theorem inductionOnOperands {motive : Formula → Prop}
    (step : ∀ f : Formula, (∀ g ∈ f.operands, motive g) → motive f) (f : Formula) : motive f :=
  step f fun g _ => inductionOnOperands step g
termination_by sizeOf f
decreasing_by exact sizeOf_lt_of_mem_operands (by assumption)

def const? (f : Formula) : Option Bool :=
  match f.clause with
  | .const b => some b
  | _ => none

def isTrue (f : Formula) : Bool := f.const? == some true

def isFalse (f : Formula) : Bool := f.const? == some false

open Sharing

mutual
def equate (f : Formula) : (g : Formula) → Known Formula → Finding (f = g) Formula :=
  remembering f fun g known =>
    match f, g with
    | node d c, node d' c' =>
      if hd : d = d' then
        match equateClause c c' known with
        | (.isTrue y, known) => (.isTrue (by rw [hd, y]), known)
        | (.isFalse n, known) => (.isFalse (by rintro ⟨⟩; exact n rfl), known)
      else (.isFalse (by rintro ⟨⟩; exact hd rfl), known)
def equateClause : (c c' : Clause Formula) → Known Formula → Finding (c = c') Formula
  | .const b, .const b', known =>
    if h : b = b' then (.isTrue (by rw [h]), known) else (.isFalse (by simpa using h), known)
  | .nonzero e, .nonzero e', known =>
    if h : e = e' then (.isTrue (by rw [h]), known) else (.isFalse (by simpa using h), known)
  | .not f, .not f', known =>
    match equate f f' known with
    | (.isTrue y, known) => (.isTrue (by rw [y]), known)
    | (.isFalse n, known) => (.isFalse (by simpa using n), known)
  | .junction k fs, .junction k' fs', known =>
    if h : k = k' then
      match comparers fs with
      | ⟨cs, hcs⟩ =>
        match compareEach cs fs' known with
        | (.isTrue y, known) => (.isTrue (by rw [h, ← hcs, y]), known)
        | (.isFalse n, known) => (.isFalse (by rw [hcs] at n; simp [n]), known)
    else (.isFalse (by simp [h]), known)
  | .const _, .nonzero _, known | .const _, .not _, known => (.isFalse nofun, known)
  | .const _, .junction .., known => (.isFalse nofun, known)
  | .nonzero _, .const _, known | .nonzero _, .not _, known => (.isFalse nofun, known)
  | .nonzero _, .junction .., known => (.isFalse nofun, known)
  | .not _, .const _, known | .not _, .nonzero _, known => (.isFalse nofun, known)
  | .not _, .junction .., known => (.isFalse nofun, known)
  | .junction .., .const _, known | .junction .., .nonzero _, known => (.isFalse nofun, known)
  | .junction .., .not _, known => (.isFalse nofun, known)
def comparers : (fs : List Formula) → { cs : List (Comparer Formula) // cs.map (·.value) = fs }
  | [] => ⟨[], rfl⟩
  | f :: fs =>
    match comparers fs with
    | ⟨cs, hcs⟩ => ⟨⟨f, equate f⟩ :: cs, by simp [hcs]⟩
end

instance : DecidableEq Formula := fun f g =>
  if h : f.digest = g.digest then (f.equate g .nothing).1
  else .isFalse fun e => h (congrArg digest e)

end Formula
end Retrace
