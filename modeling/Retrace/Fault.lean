import Retrace.Expr.Printer

/-!
Broken rules of use. They point at a mistake of the caller, never at bad input data.
-/

set_option autoImplicit false

namespace Retrace

inductive Fault where
  | notDereferenceable (target : Expr)
  | notLvalue (target : Expr)
  | notValueKind (kind : Expr)
  | strideMissing
  | pointZero
  | nestedFrame
  | sentinelNotConstant
  | testNotRelative
  | notComparison
  | childCount
  | operandCount
  | noReplaceableTarget (e : Expr)
  | offsetNotRelative (offset : Expr)
  | offsetHasNoBase
  | notListMember (value : Expr)
  | frameRemovalDropped
  | exitConversionDropped
  | heapExitDropped
  | endless

namespace Fault

def unreachable (reason : String) : String := "internal error: entered unreachable code" ++ reason

def message : Fault → String
  | notDereferenceable t => "cannot dereference " ++ t.describe
  | notLvalue t => "not an lvalue: " ++ t.describe
  | notValueKind k =>
    "a value kind must be a bound or terminator without a target: " ++ k.describe
  | strideMissing => "pointer arithmetic needs a stride type"
  | pointZero => "assertion failed: point != 0"
  | nestedFrame => "nested frame qualification"
  | sentinelNotConstant => "assertion failed: terminate_int.as_int().is_some()"
  | testNotRelative => "assertion failed: terminate_test.is_relative()"
  | notComparison => "assertion failed: op.is_compare()"
  | childCount => "assertion failed: children.len() == exp.children().len()"
  | operandCount => "assertion failed: operands.len() == bit.operands().len()"
  | noReplaceableTarget e => unreachable (": no replaceable lvalue target in " ++ e.describe)
  | offsetNotRelative e => e.describe ++ " is not relative"
  | offsetHasNoBase => unreachable ""
  | notListMember e => e.describe ++ " cannot be a member of a value list"
  | frameRemovalDropped => unreachable ": frame removal never drops a term"
  | exitConversionDropped => unreachable ": exit conversion never drops a term"
  | heapExitDropped => unreachable ": exit translation never drops a term"
  | endless => "mapping does not come to an end"

end Fault
end Retrace
