import Retrace.Expr.Constant
import Retrace.Expr.Equality
import Retrace.Fault

/-!
The factories of expressions. Each checks what its arguments may be and applies the simplifications
of its kind of node, so that every node in use is in normal form.
-/

set_option autoImplicit false

namespace Retrace.Expr

/-- Anything can be dereferenced except guards, floating constants and facts of the analysis. -/
def isDereferenceable (t : Expr) : Bool :=
  match t.shape with
  | .guard _ | .float _ | .bound .. | .terminator .. => false
  | _ => true

def isLvalueTarget (t : Expr) : Bool :=
  match t.shape with
  | .binary op _ _ _ _ => op.isPointerArithmetic
  | .unary op _ _ => op == .coerce
  | .guard _ => false
  | _ =>
    match t.group with
    | .lvalue | .modifier | .placeholder => true
    | _ => false

/-- A bound or a terminator that is not yet attached to anything. -/
def isValueKind (k : Expr) : Bool :=
  match k.shape with
  | .bound _ none _ | .terminator none _ _ _ => true
  | _ => false

def checkLvalueTarget (t : Expr) : Except Fault Unit :=
  if t.isLvalueTarget then .ok () else .error (.notLvalue t)

def checkValueKind : Option Expr → Except Fault Unit
  | none => .ok ()
  | some k => if k.isValueKind then .ok () else .error (.notValueKind k)

def empty : Expr := of .empty

def var (v : Variable) : Expr := of (.var v)

def text (bytes : List UInt8) : Expr := of (.text bytes)

def int (v : Int) : Expr := of (.int v)

def float (digits : String) : Expr := of (.float digits)

def bound (side : BoundSide) (t : Option Expr) (stride : CType) : Expr := of (.bound side t stride)

def deref (t : Expr) : Except Fault Expr :=
  if t.isDereferenceable then .ok (of (.access .deref t)) else .error (.notDereferenceable t)

/-- A field of a location. Going out of the same field cancels. -/
def field (t : Expr) (f : Field) : Except Fault Expr := do
  t.checkLvalueTarget
  match t.shape with
  | .access (.container f') inner => return if f' = f then inner else of (.access (.field f) t)
  | _ => return of (.access (.field f) t)

def container (t : Expr) (f : Field) : Except Fault Expr := do
  t.checkLvalueTarget
  match t.shape with
  | .access (.field f') inner => return if f' = f then inner else of (.access (.container f) t)
  | _ => return of (.access (.container f) t)

def vtable (t : Expr) (slot : Nat) : Except Fault Expr := do
  t.checkLvalueTarget
  return of (.access (.vtable slot) t)

def index (t : Expr) (element : CType) (i : Expr) : Except Fault Expr := do
  t.checkLvalueTarget
  return of (.index t element i)

def foldUnary? (op : UnOp) (w : Width) (e : Expr) : Option Int :=
  e.int?.bind fun v => (Constant.unary op v).filter w.fits

/-- A unary operation. Constants fold where the result fits, a conversion to no particular width and
a double negation disappear; logical negation has no width. -/
def unary (op : UnOp) (w : Width) (e : Expr) : Expr :=
  match foldUnary? op w e with
  | some v => int v
  | none =>
    if op = .coerce ∧ w.bits = 0 then e
    else
      match op, e.shape with
      | .neg, .unary .neg _ inner => inner
      | .not, _ => of (.unary .not { w with bits := 0 } e)
      | _, _ => of (.unary op w e)

def foldBinary? (op : BinOp) (w : Width) (l r : Expr) : Option Int :=
  match l.int?, r.int? with
  | some x, some y => (Constant.binary op x y).filter fun v => op.isComparison || w.fits v
  | _, _ => none

def identity? (op : BinOp) (l r : Expr) : Option Expr :=
  match op, l.int?, r.int? with
  | .add, some 0, _ => some r
  | .mul, some 1, _ => some r
  | .add, _, some 0 => some l
  | .sub, _, some 0 => some l
  | .pointerAdd, _, some 0 => some l
  | .pointerSub, _, some 0 => some l
  | .mul, _, some 1 => some l
  | .div, _, some 1 => some l
  | .mul, some 0, _ => some (int 0)
  | .mul, _, some 0 => some (int 0)
  | _, _, _ => none

/-- The width a binary operation is stored with: truth values have none. -/
def storedWidth (op : BinOp) (w : Width) : Width := if op.isTruthValued then .unbounded else w

def simplifyBinary (op : BinOp) (w : Width) (stride : Option CType) (l r : Expr) : Expr :=
  match foldBinary? op w l r with
  | some v => int v
  | none =>
    match identity? op l r with
    | some e => e
    | none => of (.binary op (storedWidth op w) stride l r)

def binary (op : BinOp) (w : Width) (stride : Option CType) (l r : Expr) : Except Fault Expr :=
  if stride.isNone && op.isPointerArithmetic then .error .strideMissing
  else .ok (simplifyBinary op w stride l r)

def clobber (callee : Expr) (kind : Option Expr) (overwrite : Expr) (point : Nat) :
    Except Fault Expr := do
  if point = 0 then throw .pointZero
  checkValueKind kind
  overwrite.checkLvalueTarget
  return of (.clobber callee kind overwrite point)

def moment (m : Moment) (t : Expr) (kind : Option Expr) : Except Fault Expr := do
  checkValueKind kind
  t.checkLvalueTarget
  return of (.moment m t kind)

def exit (t : Expr) (kind : Option Expr) : Except Fault Expr := moment .exit t kind

def initial (t : Expr) (kind : Option Expr) : Except Fault Expr := moment .initial t kind

def value (lval : Expr) (kind : Option Expr) (point : Nat) (relative : Bool) : Except Fault Expr := do
  checkValueKind kind
  return of (.value lval kind point relative)

def guard (point : Nat) : Except Fault Expr :=
  if point = 0 then .error .pointZero else .ok (of (.guard point))

def isFrame (e : Expr) : Bool :=
  match e.shape with
  | .frame .. => true
  | _ => false

def frame (inner : Expr) (id : Nat) : Except Fault Expr :=
  if inner.isFrame then .error .nestedFrame else .ok (of (.frame inner id))

/-- The sentinel is a constant, the test speaks about an element that is left open. -/
def terminator (t : Option Expr) (stride : CType) (test sentinel : Expr) : Except Fault Expr :=
  if sentinel.int?.isNone then .error .sentinelNotConstant
  else if !test.isRelative then .error .testNotRelative
  else .ok (of (.terminator t stride test sentinel))

def receiverObject : Expr := of (.access .deref (var .receiver))

end Retrace.Expr
