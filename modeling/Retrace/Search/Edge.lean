import Retrace.Fault

/-!
Edges: the calls and loops through which control leaves the code of a block.
-/

set_option autoImplicit false

namespace Retrace

/-- Whether an expression is a plain location or value, neither tied to another moment nor made up. -/
def Expr.isPlain (e : Expr) : Bool :=
  match e.group with
  | .lvalue | .rvalue => true
  | _ => false

structure Arguments where
  values : List Expr
  plain : ∀ v ∈ values, v.isPlain = true

namespace Arguments

def empty : Arguments := ⟨[], by simp⟩

def push (as : Arguments) (v : Expr) : Except Fault Arguments :=
  if h : v.isPlain = true then
    .ok ⟨as.values ++ [v], fun w hw => by
      rcases List.mem_append.1 hw with hw | hw
      · exact as.plain w hw
      · rw [List.mem_singleton.1 hw, h]⟩
  else .error (.notListMember v)

def ofList (vs : List Expr) : Except Fault Arguments := vs.foldlM push empty

def get? (as : Arguments) (i : Nat) : Option Expr := as.values[i]?

end Arguments

inductive Edge where
  /-- A call of `function`, with the location that gets the result and the receiver object, if any. -/
  | call (function : Expr) (arguments : Arguments) (result receiver : Option Expr)
  | loop (body : Block)

namespace Edge

def directCallee? : Edge → Option Variable
  | call function _ _ _ => function.var?.filter (·.storage = .function)
  | loop _ => none

def isLoop : Edge → Bool
  | call .. => false
  | loop _ => true

end Edge
end Retrace
