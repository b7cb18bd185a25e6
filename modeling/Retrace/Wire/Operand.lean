import Retrace.Json
import Retrace.Text.Quoted
import Retrace.Text.Utf8
import Retrace.Wire.Item

/-!
Operands exchanged with a transaction server: values, and variables that stand for one. Lists hold values
only.
-/

set_option autoImplicit false

namespace Retrace.Wire

structure Name where
  index : Nat
  positive : 0 < index
  bounded : index < UInt32.size
deriving DecidableEq

def Name.ofNat? (n : Nat) : Option Name :=
  if h : 0 < n ∧ n < UInt32.size then some ⟨n, h.1, h.2⟩ else none

inductive Value where
  | list (elements : List Value)
  /-- Raw bytes. The text without any is the null text. -/
  | text (bytes : List UInt8)
  | stamp (time : UInt64)
  | flag (value : Bool)

namespace Value

mutual
def decEq : (a b : Value) → Decidable (a = b)
  | list as, list bs =>
    match decEqAll as bs with
    | isTrue h => isTrue (h ▸ rfl)
    | isFalse h => isFalse fun e => h (Value.list.inj e)
  | text a, text b => if h : a = b then isTrue (h ▸ rfl) else isFalse fun e => h (Value.text.inj e)
  | stamp a, stamp b => if h : a = b then isTrue (h ▸ rfl) else isFalse fun e => h (Value.stamp.inj e)
  | flag a, flag b => if h : a = b then isTrue (h ▸ rfl) else isFalse fun e => h (Value.flag.inj e)
  | list _, text _ | list _, stamp _ | list _, flag _ => isFalse nofun
  | text _, list _ | text _, stamp _ | text _, flag _ => isFalse nofun
  | stamp _, list _ | stamp _, text _ | stamp _, flag _ => isFalse nofun
  | flag _, list _ | flag _, text _ | flag _, stamp _ => isFalse nofun
def decEqAll : (as bs : List Value) → Decidable (as = bs)
  | [], [] => isTrue rfl
  | [], _ :: _ => isFalse nofun
  | _ :: _, [] => isFalse nofun
  | a :: as, b :: bs =>
    match decEq a b, decEqAll as bs with
    | isTrue h, isTrue h' => isTrue (by rw [h, h'])
    | isFalse h, _ => isFalse fun e => h (List.cons.inj e).1
    | _, isFalse h => isFalse fun e => h (List.cons.inj e).2
end

instance : DecidableEq Value := decEq

def kind : Value → Kind
  | list _ => .list
  | text _ => .text
  | stamp _ => .stamp
  | flag _ => .flag

mutual
/-- How deep lists are nested; a value that is no list has depth one. -/
def depth : Value → Nat
  | list vs => depthAll vs + 1
  | _ => 1
def depthAll : List Value → Nat
  | [] => 0
  | v :: vs => max v.depth (depthAll vs)
end

end Value

inductive Operand where
  | variable (name : Name)
  | value (v : Value)
deriving DecidableEq

inductive Misuse where
  | unnamed
  | variableInList
  | variableAssigned
deriving DecidableEq, Repr

def Misuse.message : Misuse → String
  | unnamed => "variable names start at 1"
  | variableInList => "a list operand cannot hold a variable"
  | variableAssigned => "a variable is assigned a value, not another variable"

namespace Operand

def named (index : Nat) : Except Misuse Operand :=
  match Name.ofNat? index with
  | some name => .ok («variable» name)
  | none => .error .unnamed

def isVariable : Operand → Bool
  | «variable» _ => true
  | value _ => false

def element : Operand → Except Misuse Value
  | value v => .ok v
  | «variable» _ => .error .variableInList

def list (os : List Operand) : Except Misuse Operand :=
  (os.mapM element).map fun vs => value (.list vs)

def kind : Operand → Kind
  | «variable» _ => .variable
  | value v => v.kind

def depth : Operand → Nat
  | «variable» _ => 1
  | value v => v.depth

end Operand
end Retrace.Wire
