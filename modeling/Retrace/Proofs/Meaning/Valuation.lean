import Retrace.Proofs.Expr.Rebuilding
import Retrace.Proofs.Meaning.Arithmetic
import Mathlib.Tactic.Positivity

/-!
The value of an expression, an unbounded integer. The operators mean the same everywhere; variables, other
moments and other frames have values of their own in each frame. Main statement: a node rebuilt over
children of the same values has the same value, through all simplifications, unless it shifts to the left.
-/

set_option autoImplicit false

namespace Retrace

def Width.Represents (w : Width) (v : Int) : Prop :=
  w.bits = 0 ∨ if w.signed then -2 ^ (w.bits - 1) ≤ v ∧ v < 2 ^ (w.bits - 1) else 0 ≤ v ∧ v < 2 ^ w.bits

/-- What the operators mean. Reading memory, going along fields and into arrays, and facts about buffers
may be anything; arithmetic is that of unbounded integers, wherever it says what the result is. -/
structure Interpretation where
  empty : Int
  text : List UInt8 → Int
  float : String → Int
  access : Step → Int → Int
  index : CType → Int → Int → Int
  bound : BoundSide → CType → Option Int → Int
  terminator : CType → Expr → Expr → Option Int → Int
  coerce : Width → Int → Int
  divide : Int → Int → Int
  remainder : Int → Int → Int
  shiftLeft : Int → Int → Int
  shiftRight : Int → Int → Int
  stride : Option CType → Int
  pointerDiff : Option CType → Int → Int → Int
  field_container : ∀ f x, access (.field f) (access (.container f) x) = x
  container_field : ∀ f x, access (.container f) (access (.field f) x) = x
  coerce_eq : ∀ w x, w.Represents x → coerce w x = x
  divide_eq : ∀ x y, y ≠ 0 → divide x y = x.tdiv y
  remainder_eq : ∀ x y, y ≠ 0 → remainder x y = x.tmod y
  shiftRight_eq : ∀ (x : Int) (n : Nat), shiftRight x n = x.fdiv (2 ^ n)

/-- Memory in which every address holds itself, with fields, strides and conversions that make no
difference. -/
def Interpretation.flat : Interpretation where
  empty := 0
  text _ := 0
  float _ := 0
  access _ x := x
  index _ x y := x + y
  bound _ _ x := x.getD 0
  terminator _ _ _ x := x.getD 0
  coerce _ x := x
  divide x y := x.tdiv y
  remainder x y := x.tmod y
  shiftLeft x y := x * 2 ^ y.toNat
  shiftRight x y := x.fdiv (2 ^ y.toNat)
  stride _ := 1
  pointerDiff _ x y := x - y
  field_container _ _ := rfl
  container_field _ _ := rfl
  coerce_eq _ _ _ := rfl
  divide_eq _ _ _ := rfl
  remainder_eq _ _ _ := rfl
  shiftRight_eq _ _ := rfl

structure Valuation where
  var : Variable → Int
  /-- Guards, what calls left behind, and values not looked into. -/
  unknown : Shape Expr → Int
  moment : Moment → Option Expr → Int → Int
  frame : Nat → Int → Int

namespace Interpretation

variable (I : Interpretation)

def unary (op : UnOp) (w : Width) (x : Int) : Int :=
  match op with
  | .coerce => I.coerce w x
  | .neg => -x
  | .complement => -x - 1
  | .not => Constant.ofTruth (x == 0)

def binary (op : BinOp) (stride : Option CType) (x y : Int) : Int :=
  match op with
  | .add => x + y
  | .sub => x - y
  | .mul => x * y
  | .div => I.divide x y
  | .mod => I.remainder x y
  | .shiftLeft => I.shiftLeft x y
  | .shiftRight => I.shiftRight x y
  | .bitAnd => x.land y
  | .bitOr => x.lor y
  | .bitXor => x.xor y
  | .lt => Constant.ofTruth (x < y)
  | .gt => Constant.ofTruth (x > y)
  | .le => Constant.ofTruth (x ≤ y)
  | .ge => Constant.ofTruth (x ≥ y)
  | .eq => Constant.ofTruth (x == y)
  | .ne => Constant.ofTruth (x != y)
  | .and => Constant.ofTruth (x != 0 && y != 0)
  | .or => Constant.ofTruth (x != 0 || y != 0)
  | .pointerAdd => x + I.stride stride * y
  | .pointerSub => x - I.stride stride * y
  | .pointerDiff => I.pointerDiff stride x y
  | .min => min x y
  | .max => max x y

def eval (σ : Valuation) : Expr → Int
  | .node _ .empty => I.empty
  | .node _ (.var v) => σ.var v
  | .node _ (.text bytes) => I.text bytes
  | .node _ (.int v) => v
  | .node _ (.float digits) => I.float digits
  | .node _ (.access step t) => I.access step (eval σ t)
  | .node _ (.index t element i) => I.index element (eval σ t) (eval σ i)
  | .node _ (.unary op w e) => I.unary op w (eval σ e)
  | .node _ (.binary op _ stride l r) => I.binary op stride (eval σ l) (eval σ r)
  | .node _ (.moment m t kind) => σ.moment m kind (eval σ t)
  | .node _ (.frame inner id) => σ.frame id (eval σ inner)
  | .node _ (.bound side none stride) => I.bound side stride none
  | .node _ (.bound side (some t) stride) => I.bound side stride (some (eval σ t))
  | .node _ (.terminator none stride test sentinel) => I.terminator stride test sentinel none
  | .node _ (.terminator (some t) stride test sentinel) =>
    I.terminator stride test sentinel (some (eval σ t))
  | .node _ (.guard point) => σ.unknown (.guard point)
  | .node _ (.clobber callee kind o point) => σ.unknown (.clobber callee kind o point)
  | .node _ (.value lval kind point relative) => σ.unknown (.value lval kind point relative)

def layer (σ : Valuation) : Shape Expr → Int
  | .empty => I.empty
  | .var v => σ.var v
  | .text bytes => I.text bytes
  | .int v => v
  | .float digits => I.float digits
  | .access step t => I.access step (I.eval σ t)
  | .index t element i => I.index element (I.eval σ t) (I.eval σ i)
  | .unary op w e => I.unary op w (I.eval σ e)
  | .binary op _ stride l r => I.binary op stride (I.eval σ l) (I.eval σ r)
  | .moment m t kind => σ.moment m kind (I.eval σ t)
  | .frame inner id => σ.frame id (I.eval σ inner)
  | .bound side t stride => I.bound side stride (t.map (I.eval σ))
  | .terminator t stride test sentinel => I.terminator stride test sentinel (t.map (I.eval σ))
  | s => σ.unknown s

variable {I} {σ τ : Valuation}

theorem eval_eq (e : Expr) : I.eval σ e = I.layer σ e.shape := by
  obtain ⟨d, s⟩ := e
  cases s with
  | bound side t stride => cases t <;> rfl
  | terminator t stride test sentinel => cases t <;> rfl
  | _ => rfl

theorem eval_of (s : Shape Expr) : I.eval σ (.of s) = I.layer σ s := eval_eq _

theorem eval_int (v : Int) : I.eval σ (.int v) = v := eval_of _

end Interpretation

theorem Width.unsignedBound_le (bits : Nat) : unsignedBound bits ≤ 2 ^ bits := by
  have hle {x : Int} (hx : 0 ≤ x) (m : Nat) : x.bmod m ≤ x := by
    have hquotient : 0 ≤ (m : Int) * (x / m) := Int.mul_nonneg (by omega) (Int.ediv_nonneg hx (by omega))
    have hparts := Int.mul_ediv_add_emod x m
    unfold Int.bmod
    dsimp only
    split <;> omega
  exact hle (pow_nonneg (by decide) bits) _

theorem Width.represents_of_fits {w : Width} {v : Int} (h : w.fits v = true)
    (hv : Constant.isInRange v = true) : w.Represents v := by
  obtain ⟨hlow, hhigh⟩ := (Constant.isInRange_iff v).1 hv
  have hpow (n : Nat) : Int.pow 2 n = 2 ^ n := rfl
  unfold fits at h
  unfold Represents
  split at h
  · exact .inl ‹w.bits = 0›
  right
  split at h
  · -- Every constant has room in 128 bits, but for its sign.
    have hbits : (2 : Int) ^ 127 ≤ 2 ^ (w.bits - 1) := pow_le_pow_right₀ (by decide) (by omega)
    have hmore : (2 : Int) ^ (w.bits - 1) ≤ 2 ^ w.bits := pow_le_pow_right₀ (by decide) (by omega)
    cases hsigned : w.signed with
    | true => exact ⟨by omega, by omega⟩
    | false =>
      rw [hsigned, Bool.false_or, decide_eq_true_eq] at h
      exact ⟨h, by omega⟩
  split at h
  · rename_i hsigned
    rw [Bool.and_eq_true, decide_eq_true_eq, decide_eq_true_eq, hpow] at h
    rwa [if_pos hsigned]
  · rename_i hzero hlarge hsigned
    rw [Bool.and_eq_true, decide_eq_true_eq, decide_eq_true_eq] at h
    rw [if_neg hsigned]
    exact ⟨h.1, h.2.trans_le (unsignedBound_le w.bits)⟩

namespace Interpretation

variable {I : Interpretation} {σ τ : Valuation}

theorem unary_of_folded {op : UnOp} {w : Width} {x v : Int} (hx : Constant.isInRange x = true)
    (h : Constant.unary op x = some v) (hfits : w.fits v = true) : I.unary op w x = v := by
  cases op with
  | coerce =>
    cases h
    exact I.coerce_eq w _ (Width.represents_of_fits hfits hx)
  | neg =>
    obtain ⟨-, rfl⟩ := Constant.checked_eq_some_iff.1 h
    rfl
  | complement | not =>
    cases h
    rfl

theorem binary_of_exact {op : BinOp} {stride : Option CType} {x y v : Int} (hop : op ≠ .shiftLeft)
    (h : Constant.exactBinary? (I.stride stride) op x y = some v) : I.binary op stride x y = v := by
  cases op with
  | div =>
    obtain ⟨hne, hv⟩ := Option.ite_none_left_eq_some.1 h
    exact (I.divide_eq x y hne).trans (Option.some.inj hv)
  | mod =>
    obtain ⟨hne, hv⟩ := Option.ite_none_left_eq_some.1 h
    exact (I.remainder_eq x y hne).trans (Option.some.inj hv)
  | shiftLeft => exact absurd rfl hop
  | shiftRight =>
    obtain ⟨hcount, hv⟩ := Option.ite_none_left_eq_some.1 h
    obtain ⟨n, rfl⟩ := Int.eq_ofNat_of_zero_le (Int.not_lt.1 hcount)
    exact (I.shiftRight_eq x n).trans (Option.some.inj hv)
  | pointerDiff => cases h
  | _ => exact Option.some.inj h

theorem binary_of_folded {op : BinOp} {stride : Option CType} {x y v : Int} (hop : op ≠ .shiftLeft)
    (hx : Constant.isInRange x = true) (hy : Constant.isInRange y = true)
    (h : Constant.binary op x y = some v) : I.binary op stride x y = v :=
  binary_of_exact hop (Constant.exactBinary?_of_binary hop hx hy h _)

theorem eval_of_int? {e : Expr} {v : Int} (h : e.int? = some v) : I.eval σ e = v :=
  by rw [eval_eq, Expr.shape_of_int? h, layer]

theorem binary_of_identity {op : BinOp} {stride : Option CType} {l r e : Expr}
    (h : Expr.identity? op l r = some e) :
    I.binary op stride (I.eval σ l) (I.eval σ r) = I.eval σ e := by
  unfold Expr.identity? at h
  split at h <;> cases h
  · rw [eval_of_int? ‹l.int? = some 0›]
    exact Int.zero_add _
  · rw [eval_of_int? ‹l.int? = some 1›]
    exact Int.one_mul _
  · rw [eval_of_int? ‹r.int? = some 0›]
    exact Int.add_zero _
  · rw [eval_of_int? ‹r.int? = some 0›]
    exact Int.sub_zero _
  · rw [eval_of_int? ‹r.int? = some 0›, binary, Int.mul_zero, Int.add_zero]
  · rw [eval_of_int? ‹r.int? = some 0›, binary, Int.mul_zero, Int.sub_zero]
  · rw [eval_of_int? ‹r.int? = some 1›]
    exact Int.mul_one _
  · rw [eval_of_int? ‹r.int? = some 1›]
    exact (I.divide_eq _ 1 (by decide)).trans (Int.tdiv_one _)
  · rw [eval_of_int? ‹l.int? = some 0›]
    exact (Int.zero_mul _).trans (eval_int 0).symm
  · rw [eval_of_int? ‹r.int? = some 0›]
    exact (Int.mul_zero _).trans (eval_int 0).symm

theorem layer_congr {s s' : Shape Expr} (operator : s.SameOperator s')
    (hcs : List.Forall₂ (fun c c' => I.eval τ c' = I.eval σ c) s.children s'.children) :
    I.layer τ s' = I.layer σ s := by
  cases operator with
  | access step t t' =>
    obtain ⟨ht, -⟩ := List.forall₂_cons.1 hcs
    rw [layer, layer, ht]
  | index element t t' i i' =>
    obtain ⟨ht, hrest⟩ := List.forall₂_cons.1 hcs
    obtain ⟨hi, -⟩ := List.forall₂_cons.1 hrest
    rw [layer, layer, ht, hi]
  | @unary op w w' conversion a a' =>
    obtain ⟨ha, -⟩ := List.forall₂_cons.1 hcs
    rw [layer, layer, ha]
    cases op with
    | coerce => rw [conversion rfl]
    | _ => rfl
  | binary op w w' stride l l' r r' =>
    obtain ⟨hl, hrest⟩ := List.forall₂_cons.1 hcs
    obtain ⟨hr, -⟩ := List.forall₂_cons.1 hrest
    rw [layer, layer, hl, hr]
  | bound side stride t t' =>
    obtain ⟨ht, -⟩ := List.forall₂_cons.1 hcs
    rw [layer, layer, Option.map_some, Option.map_some, ht]
  | terminator stride test sentinel t t' =>
    obtain ⟨ht, -⟩ := List.forall₂_cons.1 hcs
    rw [layer, layer, Option.map_some, Option.map_some, ht]

theorem eval_congr {e : Expr} (hcs : ∀ c ∈ e.children, I.eval τ c = I.eval σ c)
    (hleaf : e.children = [] → I.eval τ e = I.eval σ e) : I.eval τ e = I.eval σ e := by
  by_cases h : e.children = []
  · exact hleaf h
  · rw [eval_eq, eval_eq e]
    exact layer_congr (Shape.sameOperator_self h) (List.forall₂_same.2 hcs)

/-- A node rebuilt over children that have the values of its own children has its value. Only what it reads
in its own frame has to be seen to where it is a leaf. -/
theorem eval_remade {e value : Expr} {cs : List Expr} (h : Expr.Remade e cs value)
    (hcs : List.Forall₂ (fun c c' => I.eval τ c' = I.eval σ c) e.children cs)
    (hrange : ∀ c ∈ cs, ∀ v, c.shape = .int v → Constant.isInRange v = true)
    (hshift : ∀ w stride l r, e.shape ≠ .binary .shiftLeft w stride l r)
    (hleaf : e.children = [] → I.eval τ e = I.eval σ e) : I.eval τ value = I.eval σ e := by
  cases h with
  | leaf childless => exact hleaf childless
  | node operator =>
    rw [eval_of, eval_eq e]
    exact layer_congr operator hcs
  | foldUnary shape operand folded fits =>
    rw [Expr.children, shape] at hcs
    obtain ⟨ha, -⟩ := List.forall₂_cons.1 hcs
    rw [eval_eq, operand, layer] at ha
    have hx := hrange _ List.mem_cons_self _ operand
    rw [eval_int, eval_eq e, shape, layer, ← ha, unary_of_folded hx folded fits]
  | @foldBinary op _ _ _ _ _ _ _ _ _ shape left right folded =>
    rw [Expr.children, shape] at hcs
    obtain ⟨hl, hrest⟩ := List.forall₂_cons.1 hcs
    obtain ⟨hr, -⟩ := List.forall₂_cons.1 hrest
    rw [eval_eq, left, layer] at hl
    rw [eval_eq, right, layer] at hr
    have hx := hrange _ List.mem_cons_self _ left
    have hy := hrange _ (List.mem_cons_of_mem _ List.mem_cons_self) _ right
    -- Only this operation drops bits of its result.
    have hop : op ≠ .shiftLeft := by
      rintro rfl
      exact hshift _ _ _ _ shape
    rw [eval_int, eval_eq e, shape, layer, ← hl, ← hr, binary_of_folded hop hx hy folded]
  | convert _ shape any =>
    rw [Expr.children, shape] at hcs
    obtain ⟨ha, -⟩ := List.forall₂_cons.1 hcs
    rw [eval_eq e, shape, layer, ha]
    exact (I.coerce_eq _ _ (.inl any)).symm
  | negate shape negation =>
    rw [Expr.children, shape] at hcs
    obtain ⟨ha, -⟩ := List.forall₂_cons.1 hcs
    rw [eval_eq, negation, layer] at ha
    rw [eval_eq e, shape, layer, ← ha]
    exact (Int.neg_neg _).symm
  | enter shape container =>
    rw [Expr.children, shape] at hcs
    obtain ⟨ht, -⟩ := List.forall₂_cons.1 hcs
    rw [eval_eq, container, layer] at ht
    rw [eval_eq e, shape, layer, ← ht, I.field_container]
  | leave shape field =>
    rw [Expr.children, shape] at hcs
    obtain ⟨ht, -⟩ := List.forall₂_cons.1 hcs
    rw [eval_eq, field, layer] at ht
    rw [eval_eq e, shape, layer, ← ht, I.container_field]
  | neutral shape left =>
    rw [Expr.children, shape] at hcs
    obtain ⟨hl, hrest⟩ := List.forall₂_cons.1 hcs
    obtain ⟨hr, -⟩ := List.forall₂_cons.1 hrest
    rw [eval_eq e, shape, layer, ← hl, ← hr, binary_of_identity left]

end Interpretation

namespace Shape

def InRange : Shape Expr → Prop
  | .int v => Constant.isInRange v = true
  | _ => True

def ShiftFree : Shape Expr → Prop
  | .binary op _ _ _ _ => op ≠ .shiftLeft
  | _ => True

theorem lasting_inRange : Lasting InRange where
  zero := Constant.isInRange_ofTruth false
  unary _ _ _ hx h := Constant.isInRange_unary hx h
  binary _ _ _ _ hx hy h := Constant.isInRange_binary hx hy h
  sameOperator s s' h _ := by cases h <;> trivial

theorem lasting_shiftFree : Lasting ShiftFree where
  zero := trivial
  unary _ _ _ _ _ := trivial
  binary _ _ _ _ _ _ _ := trivial
  sameOperator s s' h hs := by
    cases h with
    | binary => exact hs
    | _ => trivial

theorem Lasting.and {p q : Shape Expr → Prop} (hp : Lasting p) (hq : Lasting q) :
    Lasting fun s => p s ∧ q s where
  zero := ⟨hp.zero, hq.zero⟩
  unary op x v hx h := ⟨hp.unary op x v hx.1 h, hq.unary op x v hx.2 h⟩
  binary op x y v hx hy h := ⟨hp.binary op x y v hx.1 hy.1 h, hq.binary op x y v hx.2 hy.2 h⟩
  sameOperator s s' h hs := ⟨hp.sameOperator s s' h hs.1, hq.sameOperator s s' h hs.2⟩

end Shape
end Retrace
