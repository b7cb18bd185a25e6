import Retrace.Expr.Operator
import Retrace.Program.Block
import Retrace.Program.CType

/-!
Expressions: locations and values of the analysed program, the values they have at other moments,
placeholders for what is not known yet, and facts about buffers. A node stores the digest of its
structure; equal structure means equal nodes.
-/

set_option autoImplicit false

namespace Retrace

inductive Step where
  | deref
  | field (f : Field)
  /-- From the address of a field to the aggregate around it. -/
  | container (f : Field)
  | vtable (slot : Nat)
deriving DecidableEq, Repr

inductive Moment where
  /-- At the exit of the callee or of the loop body. -/
  | exit
  /-- At the first entry to a loop. -/
  | initial
deriving DecidableEq, Repr

/-- One layer of an expression over sub-expressions of type `α`. -/
inductive Shape (α : Type) where
  | empty
  | var (v : Variable)
  | text (bytes : List UInt8)
  | int (value : Int)
  | float (digits : String)
  | guard (point : Nat)
  | access (step : Step) (target : α)
  | index (target : α) (element : CType) (subscript : α)
  | unary (op : UnOp) (width : Width) (operand : α)
  | binary (op : BinOp) (width : Width) (stride : Option CType) (left right : α)
  /-- What a call at `point` left in `overwrite`: the exit value of `callee`. -/
  | clobber (callee : α) (kind : Option α) (overwrite : α) (point : Nat)
  | moment (when : Moment) (target : α) (kind : Option α)
  /-- The value, not looked into yet, of a location at a point. -/
  | value (lval : α) (kind : Option α) (point : Nat) (relative : Bool)
  /-- A value that belongs to another frame. -/
  | frame (inner : α) (id : Nat)
  | bound (side : BoundSide) (target : Option α) (stride : CType)
  /-- Where the first element passing `test == sentinel` stands. -/
  | terminator (target : Option α) (stride : CType) (test sentinel : α)

/-- An expression node: the digest of its structure, and the structure. -/
inductive Expr where
  | node (digest : Digest) (shape : Shape Expr)

inductive Group where
  | lvalue
  | rvalue
  /-- The value of a location at some other moment. -/
  | modifier
  /-- A stand-in for something that has not been expanded. -/
  | placeholder
  /-- A fact about buffers made up by the analysis. -/
  | analysis
deriving DecidableEq, Repr

instance : Choice Group where
  all := [.lvalue, .rvalue, .modifier, .placeholder, .analysis]
  position
    | .lvalue => 0 | .rvalue => 1 | .modifier => 2 | .placeholder => 3 | .analysis => 4
  label
    | .lvalue => "Lvalue" | .rvalue => "Rvalue" | .modifier => "LvalueModifier"
    | .placeholder => "Placeholder" | .analysis => "AnalysisOnly"

namespace Step

def position : Step → Nat
  | deref => 0 | field _ => 1 | container _ => 2 | vtable _ => 3

end Step

namespace Shape

variable {α : Type}

def rank : Shape α → Nat
  | empty => 0
  | var _ => 1
  | access .deref _ => 2
  | access (.field _) _ => 3
  | access (.container _) _ => 4
  | index .. => 5
  | text _ => 6
  | access (.vtable _) _ => 7
  | int _ => 8
  | float _ => 9
  | unary .. => 10
  | binary .. => 11
  | clobber .. => 12
  | moment .exit .. => 13
  | moment .initial .. => 14
  | value .. => 15
  | guard _ => 16
  | frame .. => 17
  | bound .. => 18
  | terminator .. => 19

def width : Shape α → Width
  | unary _ w _ => w
  | binary _ w _ _ _ => w
  | _ => .unbounded

def group : Shape α → Group
  | empty | var _ | text _ | access .. | index .. => .lvalue
  | int _ | float _ | unary .. | binary .. => .rvalue
  | clobber .. | moment .. => .modifier
  | value .. | guard _ | frame .. => .placeholder
  | bound .. | terminator .. => .analysis

/-- The sub-expressions that traversals descend into. Modifiers and placeholders are leaves. -/
def children : Shape α → List α
  | access _ t => [t]
  | index t _ i => [t, i]
  | unary _ _ e => [e]
  | binary _ _ _ l r => [l, r]
  | bound _ t _ => t.toList
  | terminator t _ _ _ => t.toList
  | _ => []

/-- All immediate sub-expressions, in whatever role. -/
def parts : Shape α → List α
  | access _ t => [t]
  | index t _ i => [t, i]
  | unary _ _ e => [e]
  | binary _ _ _ l r => [l, r]
  | clobber c k o _ => c :: k.toList ++ [o]
  | moment _ t k => t :: k.toList
  | value l k _ _ => l :: k.toList
  | frame v _ => [v]
  | bound _ t _ => t.toList
  | terminator t _ test sentinel => t.toList ++ [test, sentinel]
  | _ => []

/-- What a leaf of the traversals stands for: the location of a modifier or of a value, the value of a
frame. -/
def hidden : Shape α → List α
  | clobber _ _ o _ => [o]
  | moment _ t _ => [t]
  | value l _ _ _ => [l]
  | frame v _ => [v]
  | _ => []

def read? : Shape α → Option α
  | access .deref t => some t
  | clobber _ _ o _ => some o
  | moment _ t _ => some t
  | value l _ _ _ => some l
  | _ => none

def target? : Shape α → Option α
  | access _ t => some t
  | index t _ _ => some t
  | moment _ t _ => some t
  | clobber _ _ o _ => some o
  | bound _ t _ => t
  | terminator t _ _ _ => t
  | _ => none

/-- The target that can be exchanged. The location overwritten by a call cannot. -/
def base? : Shape α → Option α
  | clobber .. => none
  | s => s.target?

def feed (child : α → Digest) (d : Digest) (s : Shape α) : Digest :=
  let sub (d : Digest) (a : α) : Digest := d.word32 (child a).state.toNat
  let kind (d : Digest) (k : Option α) : Digest := d.optional sub k
  let d := d.choice s.rank
  let d := match s with
    | empty => d
    | var v => Digestible.feed d v
    | text bytes => d.blob bytes
    | int v => d.int128 v
    | float digits => d.text digits
    | guard point => d.word32 point
    | access .deref t => sub d t
    | access (.field f) t => Digestible.feed (sub d t) f
    | access (.container f) t => Digestible.feed (sub d t) f
    | access (.vtable slot) t => (sub d t).word32 slot
    | index t element i => sub (Digestible.feed (sub d t) element) i
    | unary op _ e => sub (Digestible.feed d op) e
    | binary op _ stride l r =>
      Digest.optional Digestible.feed (sub (sub (Digestible.feed d op) l) r) stride
    | clobber c k o point => (sub (kind (sub d c) k) o).word32 point
    | moment _ t k => kind (sub d t) k
    | value l k point relative => ((kind (sub d l) k).word32 point).flag relative
    | frame v id => (sub d v).word32 id
    | bound side t stride => Digestible.feed (kind (Digestible.feed d side) t) stride
    | terminator t stride test sentinel =>
      sub (sub (Digestible.feed (kind d t) stride) test) sentinel
  (d.word32 s.width.bits).flag s.width.signed

end Shape

namespace Expr

def digest : Expr → Digest
  | node d _ => d

def shape : Expr → Shape Expr
  | node _ s => s

def of (s : Shape Expr) : Expr := node (s.feed digest .start) s

@[simp] theorem digest_node (d : Digest) (s : Shape Expr) : (node d s).digest = d := rfl

@[simp] theorem shape_node (d : Digest) (s : Shape Expr) : (node d s).shape = s := rfl

@[simp] theorem shape_of (s : Shape Expr) : (of s).shape = s := rfl

def children (e : Expr) : List Expr := e.shape.children

def parts (e : Expr) : List Expr := e.shape.parts

def hidden (e : Expr) : List Expr := e.shape.hidden

def read? (e : Expr) : Option Expr := e.shape.read?

def target? (e : Expr) : Option Expr := e.shape.target?

def base? (e : Expr) : Option Expr := e.shape.base?

def group (e : Expr) : Group := e.shape.group

def bits (e : Expr) : Nat := e.shape.width.bits

def signed (e : Expr) : Bool := e.shape.width.signed

theorem sizeOf_lt_of_mem_parts {c e : Expr} (h : c ∈ e.parts) : sizeOf c < sizeOf e := by
  obtain ⟨d, s⟩ := e
  cases s with
  | clobber _ k _ _ =>
    cases k <;> simp [parts, Shape.parts] at h <;> rcases h with rfl | h <;>
      (try rcases h with rfl | rfl) <;> simp_all <;> omega
  | moment _ _ k =>
    cases k <;> simp [parts, Shape.parts] at h <;> (try rcases h with rfl | rfl) <;> simp_all <;>
      omega
  | value _ k _ _ =>
    cases k <;> simp [parts, Shape.parts] at h <;> (try rcases h with rfl | rfl) <;> simp_all <;>
      omega
  | bound _ t _ => cases t <;> simp [parts, Shape.parts] at h; subst h; simp; omega
  | terminator t _ _ _ =>
    cases t <;> simp [parts, Shape.parts] at h <;> rcases h with rfl | h <;>
      (try rcases h with rfl | rfl) <;> simp_all <;> omega
  | index _ _ _ => simp [parts, Shape.parts] at h; rcases h with rfl | rfl <;> simp <;> omega
  | binary _ _ _ _ _ => simp [parts, Shape.parts] at h; rcases h with rfl | rfl <;> simp <;> omega
  | _ => simp [parts, Shape.parts] at h <;> subst h <;> simp <;> omega

theorem mem_parts_of_mem_children {c e : Expr} (h : c ∈ e.children) : c ∈ e.parts := by
  obtain ⟨d, s⟩ := e
  cases s <;> simp_all [children, parts, Shape.children, Shape.parts]

theorem sizeOf_lt_of_mem_children {c e : Expr} (h : c ∈ e.children) : sizeOf c < sizeOf e :=
  sizeOf_lt_of_mem_parts (mem_parts_of_mem_children h)

theorem mem_parts_of_mem_hidden {c e : Expr} (h : c ∈ e.hidden) : c ∈ e.parts := by
  obtain ⟨d, s⟩ := e
  cases s <;> simp_all [hidden, parts, Shape.hidden, Shape.parts]

theorem sizeOf_lt_of_mem_hidden {c e : Expr} (h : c ∈ e.hidden) : sizeOf c < sizeOf e :=
  sizeOf_lt_of_mem_parts (mem_parts_of_mem_hidden h)

theorem mem_parts_of_target? {t e : Expr} (h : e.target? = some t) : t ∈ e.parts := by
  obtain ⟨d, s⟩ := e
  cases s <;> simp_all [target?, parts, Shape.target?, Shape.parts]

/-- A property that passes from the parts of a node to the node holds of every node. -/
theorem inductionOnParts {motive : Expr → Prop}
    (step : ∀ e : Expr, (∀ c ∈ e.parts, motive c) → motive e) (e : Expr) : motive e :=
  step e fun c _ => inductionOnParts step c
termination_by sizeOf e
decreasing_by exact sizeOf_lt_of_mem_parts (by assumption)

def isLvalue (e : Expr) : Bool :=
  match e.group with
  | .lvalue | .modifier | .analysis => true
  | _ => false

def isRvalue (e : Expr) : Bool := e.group == .rvalue

def isEmpty (e : Expr) : Bool :=
  match e.shape with
  | .empty => true
  | _ => false

def int? (e : Expr) : Option Int :=
  match e.shape with
  | .int v => some v
  | _ => none

def var? (e : Expr) : Option Variable :=
  match e.shape with
  | .var v => some v
  | _ => none

def dereferenced? (e : Expr) : Option Expr :=
  match e.shape with
  | .access .deref t => some t
  | _ => none

/-- A location and, one after the other, what it is based on. -/
def chain : Expr → List Expr
  | e@(node _ (.access _ t)) => e :: t.chain
  | e@(node _ (.index t _ _)) => e :: t.chain
  | e@(node _ (.clobber _ _ o _)) => e :: o.chain
  | e@(node _ (.moment _ t _)) => e :: t.chain
  | e@(node _ (.bound _ (some t) _)) => e :: t.chain
  | e@(node _ (.terminator (some t) _ _ _)) => e :: t.chain
  | e => [e]

theorem chain_eq (e : Expr) : e.chain = e :: (e.target?.map chain).getD [] := by
  obtain ⟨d, s⟩ := e
  cases s with
  | bound _ t _ => cases t <;> rfl
  | terminator t _ _ _ => cases t <;> rfl
  | _ => rfl

def root? (e : Expr) : Option Variable := e.chain.getLast?.bind var?

def clobberRoot? (e : Expr) : Option Expr :=
  e.chain.find? fun c => match c.shape with
    | .clobber .. => true
    | _ => false

/-- Whether a location is derived from the empty expression. -/
def isRelative (e : Expr) : Bool := e.chain.getLast?.any isEmpty

def baseField? (e : Expr) : Option Field :=
  (e.chain.filterMap fun c => match c.shape with
    | .access (.field f) _ => some f
    | _ => none).getLast?

def derefCount (e : Expr) : Nat :=
  e.chain.countP fun c => match c.shape with
    | .access .deref _ => true
    | _ => false

def fieldCount (e : Expr) : Nat :=
  e.chain.countP fun c => match c.shape with
    | .access (.field _) _ => true
    | _ => false

/-- Largest number of terms that is told apart from larger ones. -/
def termCeiling : Nat := UInt64.size - 1

/-- How many non-constant terms a value has; a repeated term counts every time. -/
def termCount : Expr → Nat
  | node _ (.int _) => 0
  | node _ (.float _) => 0
  | node _ (.unary _ _ e) => e.termCount
  | node _ (.binary _ _ _ l r) => min (l.termCount + r.termCount) termCeiling
  | _ => 1

def spendTerms : Expr → Nat → Option Nat
  | node _ (.int _), budget => some budget
  | node _ (.float _), budget => some budget
  | node _ (.unary _ _ e), budget => e.spendTerms budget
  | node _ (.binary _ _ _ l r), budget =>
    match l.spendTerms budget with
    | none => none
    | some rest => r.spendTerms rest
  | _, 0 => none
  | _, budget + 1 => some budget

/-- Whether there are more terms than `count`. Stops as soon as the answer is known, which counting
all terms of a heavily shared expression would not. -/
def hasMoreTerms (e : Expr) (count : Nat) : Bool := (e.spendTerms count).isNone

end Expr
end Retrace
