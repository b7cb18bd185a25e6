import Retrace.Expr.Basic

/-!
Two texts of an expression: a plain description of the node, and the form a user would write.
-/

set_option autoImplicit false

namespace Retrace.Expr

def describe : Expr → String
  | node _ .empty => "empty"
  | node _ (.var v) => v.describe
  | node _ (.text bytes) => Text.quoted (Text.decodeLossy bytes)
  | node _ (.int v) => toString v
  | node _ (.float digits) => digits
  | node _ (.guard point) => s!"guard({point})"
  | node _ (.access .deref t) => "*" ++ t.describe
  | node _ (.access (.field f) t) => t.describe ++ "." ++ f.name
  | node _ (.access (.container f) t) => t.describe ++ "." ++ f.name ++ "~"
  | node _ (.access (.vtable slot) t) => t.describe ++ s!".vptr[{slot}]"
  | node _ (.index t _ i) => t.describe ++ "[" ++ i.describe ++ "]"
  | node _ (.unary op _ e) => Choice.label op ++ "(" ++ e.describe ++ ")"
  | node _ (.binary op _ _ l r) =>
    "(" ++ l.describe ++ " " ++ op.symbol ++ " " ++ r.describe ++ ")"
  | node _ (.clobber c none o point) =>
    "clobber(" ++ c.describe ++ ", None, " ++ o.describe ++ s!", {point})"
  | node _ (.clobber c (some k) o point) =>
    "clobber(" ++ c.describe ++ ", Some(" ++ k.describe ++ "), " ++ o.describe ++ s!", {point})"
  | node _ (.moment m t none) => momentName m ++ "(" ++ t.describe ++ ", None)"
  | node _ (.moment m t (some k)) =>
    momentName m ++ "(" ++ t.describe ++ ", Some(" ++ k.describe ++ "))"
  | node _ (.value l none point relative) =>
    "val(" ++ l.describe ++ s!", None, {point}" ++ (if relative then ", relative)" else ")")
  | node _ (.value l (some k) point relative) =>
    "val(" ++ l.describe ++ ", Some(" ++ k.describe ++ s!"), {point}" ++
      (if relative then ", relative)" else ")")
  | node _ (.frame v id) => s!"frame{id}(" ++ v.describe ++ ")"
  | node _ (.bound side none _) => Choice.label side ++ "(None)"
  | node _ (.bound side (some t) _) => Choice.label side ++ "(Some(" ++ t.describe ++ "))"
  | node _ (.terminator none _ test sentinel) =>
    "terminate(None, " ++ test.describe ++ " == " ++ sentinel.describe ++ ")"
  | node _ (.terminator (some t) _ test sentinel) =>
    "terminate(Some(" ++ t.describe ++ "), " ++ test.describe ++ " == " ++ sentinel.describe ++ ")"
where
  momentName : Moment → String
    | .exit => "exit"
    | .initial => "initial"

inductive Reading where
  | place
  /-- As a value; compound values in parentheses if asked. -/
  | value (parens : Bool)

namespace Reading

def address : Reading → String
  | place => ""
  | value _ => "&"

def parens : Reading → Bool
  | place => true
  | value p => p

end Reading

def renderAs : Reading → Expr → String
  | .place, node _ (.access .deref t) => "*" ++ renderAs .place t
  | .value _, node _ (.access .deref t) => renderAs .place t
  | r, node _ .empty => r.address ++ "<empty>"
  | r, node _ (.var v) => r.address ++ v.describe
  | r, node _ (.access (.field f) (node _ (.access .deref t))) =>
    r.address ++ renderAs .place t ++ "->" ++ f.name
  | r, node _ (.access (.field f) t) => r.address ++ renderAs .place t ++ "." ++ f.name
  | r, node _ (.access (.container f) t) =>
    r.address ++ "container_of(" ++ renderAs (.value false) t ++ ", " ++ f.owner ++ "." ++ f.name ++
      ")"
  | r, node _ (.access (.vtable slot) t) => r.address ++ renderAs .place t ++ s!".vtable[{slot}]"
  | r, node _ (.index t _ i) =>
    r.address ++ renderAs .place t ++ "[" ++ renderAs (.value false) i ++ "]"
  | r, node _ (.text bytes) =>
    r.address ++ "\"" ++ String.ofList (Text.decodeLossy bytes) ++ "\""
  | _, node _ (.int v) => toString v
  | _, node _ (.float digits) => digits
  | _, node _ (.unary op _ e) => op.symbol ++ renderAs (.value true) e
  | r, node _ (.binary op _ _ left right) =>
    if op = .min ∨ op = .max then
      op.symbol ++ "(" ++ renderAs (.value false) left ++ ", " ++ renderAs (.value false) right ++ ")"
    else
      let inner := renderAs (.value true) left ++ " " ++ op.symbol ++ " " ++
        renderAs (.value true) right
      if r.parens then "(" ++ inner ++ ")" else inner
  | _, node _ (.clobber _ none o _) => "after(" ++ renderAs .place o ++ ")"
  | _, node _ (.clobber _ (some k) o _) =>
    "after(" ++ renderAs .place k ++ " of " ++ renderAs .place o ++ ")"
  | _, node _ (.moment m t none) => describe.momentName m ++ "(" ++ renderAs .place t ++ ")"
  | _, node _ (.moment m t (some k)) =>
    describe.momentName m ++ "(" ++ renderAs .place k ++ " of " ++ renderAs .place t ++ ")"
  | _, node _ (.bound side none _) => side.word ++ "()"
  | _, node _ (.bound side (some t) _) => side.word ++ "(" ++ renderAs (.value false) t ++ ")"
  | _, node _ (.terminator none _ _ _) => "terminator()"
  | _, node _ (.terminator (some t) _ _ _) => "terminator(" ++ renderAs (.value false) t ++ ")"
  | _, e => e.describe

def render (e : Expr) (parens : Bool) : String := renderAs (.value parens) e

end Retrace.Expr
