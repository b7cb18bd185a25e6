import Retrace.Expr.Build
import Retrace.Script.Basic

/-!
Expressions in scripts. Arguments are evaluated from left to right.
-/

set_option autoImplicit false

namespace Retrace.Script

def required (e : Option Expr) : Except Error Expr := need "expression" e

def expr? (names : Names) : Json → Except Error (Option Expr)
  | .null => .ok none
  | .string name =>
    match names.exprs.lookup name with
    | some e => .ok (some e)
    | none => .error (.unknownExpr name)
  | .array [.string "empty"] => do return some .empty
  | .array [.string "var", v] => do return some (.var (← data "variable" v))
  | .array [.string "drf", t] => do lift ((Expr.deref (← required (← expr? names t))).map some)
  | .array [.string "fld", t, f] => do
    let t ← required (← expr? names t)
    lift ((Expr.field t (← data "field" f)).map some)
  | .array [.string "rfld", t, f] => do
    let t ← required (← expr? names t)
    lift ((Expr.container t (← data "field" f)).map some)
  | .array [.string "index", t, element, i] => do
    let t ← required (← expr? names t)
    let i ← required (← expr? names i)
    lift ((Expr.index t (← data "type" element) i).map some)
  | .array [.string "string", h] => do return some (.text (← need "bytes" (bytes? h)))
  | .array [.string "vptr", t, slot] => do
    let t ← required (← expr? names t)
    lift ((Expr.vtable t (← nat slot)).map some)
  | .array [.string "int", v] => do return some (.int (← need "number" (int? v)))
  | .array [.string "float", s] => do return some (.float (← need "text" s.string?))
  | .array [.string "unop", op, e, bits, signed] => do
    let op ← data "operator" op
    let e ← required (← expr? names e)
    return some (.unary op ⟨← nat bits, flag signed⟩ e)
  | .array [.string "binop", op, l, r, stride, bits, signed] => do
    let op ← data "operator" op
    let l ← required (← expr? names l)
    let r ← required (← expr? names r)
    let stride ← need "type" (stride.optional? JsonForm.ofJson?)
    lift ((Expr.binary op ⟨← nat bits, flag signed⟩ stride l r).map some)
  | .array [.string "clobber", callee, kind, overwrite, point] => do
    let callee ← required (← expr? names callee)
    let kind ← expr? names kind
    let overwrite ← required (← expr? names overwrite)
    lift ((Expr.clobber callee kind overwrite (← nat point)).map some)
  | .array [.string "exit", t, kind] => do
    let t ← required (← expr? names t)
    lift ((Expr.exit t (← expr? names kind)).map some)
  | .array [.string "initial", t, kind] => do
    let t ← required (← expr? names t)
    lift ((Expr.initial t (← expr? names kind)).map some)
  | .array [.string "val", t, kind, point, relative] => do
    let t ← required (← expr? names t)
    let kind ← expr? names kind
    lift ((Expr.value t kind (← nat point) (flag relative)).map some)
  | .array [.string "guard", point] => do lift ((Expr.guard (← nat point)).map some)
  | .array [.string "frame", v, id] => do
    let v ← required (← expr? names v)
    lift ((Expr.frame v (← nat id)).map some)
  | .array [.string "bound", side, t, stride] => do
    let side ← data "bound" side
    let t ← expr? names t
    return some (.bound side t (← data "type" stride))
  | .array [.string "terminate", t, stride, test, sentinel] => do
    let t ← expr? names t
    let test ← required (← expr? names test)
    let sentinel ← required (← expr? names sentinel)
    lift ((Expr.terminator t (← data "type" stride) test sentinel).map some)
  | .array [.string "this_object"] => do return some .receiverObject
  | .array [.string "nest", count, start, step] => do
    let start ← required (← expr? names start)
    let again (e : Expr) : Except Error Expr := do
      required (← expr? { names with exprs := (lastName, e) :: names.exprs } step)
    return some (← iterate again (← nat count) start)
  | _ => .error (.malformed "expression")

def expr (names : Names) (j : Json) : Except Error Expr := do required (← expr? names j)

def exprs (names : Names) : List Json → Except Error (List Expr)
  | [] => .ok []
  | j :: js => do
    let e ← expr names j
    return e :: (← exprs names js)

end Retrace.Script
