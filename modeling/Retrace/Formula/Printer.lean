import Retrace.Expr.Printer
import Retrace.Formula.Basic

/-!
Two texts of a formula: a plain description of the node, and the form shown to a user.
-/

set_option autoImplicit false

namespace Retrace.Formula

mutual
def describe : Formula → String
  | node _ (.const b) => toString b
  | node _ (.nonzero e) => e.describe
  | node _ (.not f) => "!" ++ f.describe
  | node _ (.junction .all fs) => "And([" ++ ", ".intercalate (describeAll fs) ++ "])"
  | node _ (.junction .any fs) => "Or([" ++ ", ".intercalate (describeAll fs) ++ "])"
def describeAll : List Formula → List String
  | [] => []
  | f :: fs => f.describe :: describeAll fs
end

mutual
def render : Formula → (parens : Bool) → String
  | node _ (.const b), _ => toString b
  | node _ (.nonzero e), _ => e.render false
  | node _ (.not f), _ => "!" ++ f.render true
  | node _ (.junction k fs), parens =>
    let separator := match k with
      | .all => " && "
      | .any => " || "
    let joined := separator.intercalate (renderAll fs)
    if parens then "(" ++ joined ++ ")" else joined
def renderAll : List Formula → List String
  | [] => []
  | f :: fs => f.render true :: renderAll fs
end

end Retrace.Formula
