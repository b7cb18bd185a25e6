import Retrace.Json

/-!
Named storage locations of the analysed program.
-/

set_option autoImplicit false

namespace Retrace

inductive Storage where
  | function
  | global
  /-- A formal parameter, identified by its position. -/
  | argument
  | local
  /-- A temporary, identified by its number. -/
  | temporary
  | result
  /-- The implicit receiver of a method or of a type invariant. -/
  | receiver
deriving DecidableEq, Repr

namespace Storage

instance : Choice Storage where
  all := [function, global, argument, «local», temporary, result, receiver]
  position
    | function => 0 | global => 1 | argument => 2 | «local» => 3
    | temporary => 4 | result => 5 | receiver => 6
  label
    | function => "Func" | global => "Glob" | argument => "Arg" | «local» => "Local"
    | temporary => "Temp" | result => "Return" | receiver => "This"

end Storage

structure Variable where
  storage : Storage
  index : Nat
  name : String
deriving DecidableEq, Repr

namespace Variable

def ofFunction (name : String) : Variable := ⟨.function, 0, name⟩
def ofGlobal (name : String) : Variable := ⟨.global, 0, name⟩
def ofArgument (index : Nat) (name : String) : Variable := ⟨.argument, index, name⟩
def ofLocal (name : String) : Variable := ⟨.local, 0, name⟩
def ofTemporary (index : Nat) : Variable := ⟨.temporary, index, ""⟩
def result : Variable := ⟨.result, 0, "return"⟩
def receiver : Variable := ⟨.receiver, 0, "this"⟩

def isGlobal (v : Variable) : Bool :=
  match v.storage with
  | .function | .global => true
  | _ => false

def describe (v : Variable) : String :=
  match v.storage with
  | .result => "return"
  | .receiver => "this"
  | .temporary => "__temp_" ++ toString v.index
  | _ => v.name

def order (a b : Variable) : Ordering :=
  ((Choice.order a.storage b.storage).then (compare a.index b.index)).then (compare a.name b.name)

instance : Digestible Variable where
  feed d v := ((Digestible.feed d v.storage).word32 v.index).text v.name

def ofJson? (j : Json) : Option Variable := do
  let [storage, index, name] ← j.record? ["kind", "index", "name"] | none
  return ⟨← JsonForm.ofJson? storage, ← index.word32?, ← name.string?⟩

instance : JsonForm Variable where
  toJson v := .object
    [("kind", JsonForm.toJson v.storage), ("index", .ofNat v.index), ("name", .string v.name)]
  ofJson? := ofJson?

end Variable
end Retrace
