import Retrace.Formula.Build
import Retrace.Script.Expr

/-!
Formulas in scripts.
-/

set_option autoImplicit false

namespace Retrace.Script

mutual
def formula (names : Names) (j : Json) : Except Error Formula := do
  match j with
  | .string name =>
    match names.formulas.lookup name with
    | some f => .ok f
    | none => .error (.unknownFormula name)
  | .array [.string "const", b] => return .const (flag b)
  | .array [.string "nonzero", e] => return .nonzero (← expr names e)
  | .array [.string "cmp", op, l, r] =>
    let op ← data "operator" op
    let l ← expr names l
    let r ← expr names r
    lift (Formula.comparison op l r)
  | .array [.string "not", f] => return .not (← formula names f)
  | .array [.string "and", f, g] =>
    let f ← formula names f
    return f.and (← formula names g)
  | .array [.string "or", f, g] =>
    let f ← formula names f
    return f.or (← formula names g)
  | .array [.string "imply", f, g] =>
    let f ← formula names f
    return f.imply (← formula names g)
  | .array [.string "all", .array fs] => return .all (← formulas names fs)
  | .array [.string "any", .array fs] => return .any (← formulas names fs)
  | .array [.string "nest", count, start, step] =>
    let start ← formula names start
    iterate (fun f => formula { names with formulas := (lastName, f) :: names.formulas } step)
      (← nat count) start
  | _ => .error (.malformed "formula")

def formulas (names : Names) : List Json → Except Error (List Formula)
  | [] => .ok []
  | j :: js => do
    let f ← formula names j
    return f :: (← formulas names js)
end

end Retrace.Script
