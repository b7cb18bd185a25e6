import Retrace.Text.Quoted

/-!
Just enough of the C type system to describe strides, element types and field types.
-/

set_option autoImplicit false

namespace Retrace

inductive CType where
  | void
  | int (bytes : Nat) (signed : Bool)
  | float (bytes : Nat)
  | pointer (target : CType)
  | array (element : CType) (count : Nat)
  /-- A struct, class or union, known by name only. -/
  | aggregate (name : String)
  | function
deriving DecidableEq, Repr

namespace CType

def position : CType → Nat
  | void => 0 | int .. => 1 | float .. => 2 | pointer .. => 3
  | array .. => 4 | aggregate .. => 5 | function => 6

/-- The size in bytes, where the layout of aggregates is not needed. Sizes stop at the largest
32-bit number. -/
def width : CType → Option Nat
  | void => some 1
  | int bytes _ | float bytes => some bytes
  | pointer _ => some 8
  | array element count => element.width.map fun w => min (w * count) (UInt32.size - 1)
  | aggregate _ | function => none

def describe : CType → String
  | void => "Void"
  | int bytes signed => s!"Int \x7b bytes: {bytes}, sign: {signed} \x7d"
  | float bytes => s!"Float \x7b bytes: {bytes} \x7d"
  | pointer target => "Pointer(" ++ target.describe ++ ")"
  | array element count =>
    "Array \x7b element: " ++ element.describe ++ s!", count: {count} \x7d"
  | aggregate name => "Csu(" ++ Text.quoted name.toList ++ ")"
  | function => "Function"

def order : CType → CType → Ordering
  | int b s, int b' s' => (compare b b').then (compare s s')
  | float b, float b' => compare b b'
  | pointer t, pointer t' => order t t'
  | array e c, array e' c' => (order e e').then (compare c c')
  | aggregate n, aggregate n' => compare n n'
  | a, b => compare a.position b.position

def feed (d : Digest) : CType → Digest
  | void => d.choice 0
  | int bytes signed => ((d.choice 1).word32 bytes).flag signed
  | float bytes => (d.choice 2).word32 bytes
  | pointer target => feed (d.choice 3) target
  | array element count => (feed (d.choice 4) element).word32 count
  | aggregate name => (d.choice 5).text name
  | function => d.choice 6

instance : Digestible CType := ⟨feed⟩

def toJson : CType → Json
  | void => .string "Void"
  | int bytes signed => .object [("Int", .object [("bytes", .ofNat bytes), ("sign", .bool signed)])]
  | float bytes => .object [("Float", .object [("bytes", .ofNat bytes)])]
  | pointer target => .object [("Pointer", target.toJson)]
  | array element count =>
    .object [("Array", .object [("element", element.toJson), ("count", .ofNat count)])]
  | aggregate name => .object [("Csu", .string name)]
  | function => .string "Function"

mutual
def ofJson? : Json → Option CType
  | .string "Void" => some void
  | .string "Function" => some function
  | .object [("Void", .null)] => some void
  | .object [("Function", .null)] => some function
  | .object [("Int", .object fields)] => do
    return int (← ((← fields.lookup "bytes").word32?)) (← ((← fields.lookup "sign").bool?))
  | .object [("Float", .object fields)] => do
    return float (← ((← fields.lookup "bytes").word32?))
  | .object [("Pointer", target)] => (ofJson? target).map pointer
  | .object [("Array", .object fields)] => do
    return array (← element? fields) (← ((← fields.lookup "count").word32?))
  | .object [("Csu", .string name)] => some (aggregate name)
  | _ => none
def element? : List (String × Json) → Option CType
  | [] => none
  | ("element", j) :: _ => ofJson? j
  | _ :: fields => element? fields
end

instance : JsonForm CType := ⟨toJson, ofJson?⟩

end CType

structure Field where
  name : String
  owner : String
  type : CType
deriving DecidableEq, Repr

namespace Field

def order (a b : Field) : Ordering :=
  ((compare a.name b.name).then (compare a.owner b.owner)).then (a.type.order b.type)

instance : Digestible Field where
  feed d f := Digestible.feed ((d.text f.name).text f.owner) f.type

def ofJson? (j : Json) : Option Field := do
  let [name, owner, type] ← j.record? ["name", "csu", "field_type"] | none
  return ⟨← name.string?, ← owner.string?, ← CType.ofJson? type⟩

instance : JsonForm Field where
  toJson f := .object [("name", .string f.name), ("csu", .string f.owner), ("field_type", f.type.toJson)]
  ofJson? := ofJson?

end Field
end Retrace
