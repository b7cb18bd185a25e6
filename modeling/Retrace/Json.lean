import Retrace.Choice

/-!
JSON values, their compact text, and the two-way forms of plain data. Object fields keep the order
they are given in. `Json.render` stands for the writer of a general JSON library; the command is described over
whatever text it gives to an operand.
-/

set_option autoImplicit false

namespace Retrace

inductive Json where
  | null
  | bool (value : Bool)
  /-- The number `mantissa / 10 ^ scale`. -/
  | number (mantissa : Int) (scale : Nat)
  | string (value : String)
  | array (items : List Json)
  | object (fields : List (String × Json))

namespace Json

def ofInt (n : Int) : Json := .number n 0

def ofNat (n : Nat) : Json := .number n 0

def ofOption {α : Type} (form : α → Json) : Option α → Json
  | none => .null
  | some a => form a

def hexDigits (width n : Nat) : List Char :=
  let digits := Nat.toDigits 16 n
  List.replicate (width - digits.length) '0' ++ digits

/-- Quotes, backslashes and control characters are escaped, every other character stands for
itself. -/
def escapeChar (c : Char) : List Char :=
  match c.toNat with
  | 0x22 => ['\\', '"']
  | 0x5c => ['\\', '\\']
  | 0x08 => ['\\', 'b']
  | 0x09 => ['\\', 't']
  | 0x0a => ['\\', 'n']
  | 0x0c => ['\\', 'f']
  | 0x0d => ['\\', 'r']
  | n => if n < 0x20 then '\\' :: 'u' :: hexDigits 4 n else [c]

def quote (s : String) : String :=
  String.ofList ('"' :: s.toList.flatMap escapeChar ++ ['"'])

def decimal (mantissa : Int) (scale : Nat) : String :=
  if scale = 0 then toString mantissa
  else
    let digits := (toString mantissa.natAbs).toList
    let padded := List.replicate (scale + 1 - digits.length) '0' ++ digits
    let whole := padded.take (padded.length - scale)
    let places := padded.drop (padded.length - scale)
    (if mantissa < 0 then "-" else "") ++ String.ofList (whole ++ '.' :: places)

mutual
def render : Json → String
  | .null => "null"
  | .bool b => if b then "true" else "false"
  | .number m s => decimal m s
  | .string s => quote s
  | .array [] => "[]"
  | .array (item :: items) => "[" ++ render item ++ renderItems items ++ "]"
  | .object [] => "\x7b\x7d"
  | .object (entry :: entries) =>
    "\x7b" ++ renderEntry entry ++ renderEntries entries ++ "\x7d"
def renderItems : List Json → String
  | [] => ""
  | item :: items => "," ++ render item ++ renderItems items
def renderEntry : String × Json → String
  | (key, value) => quote key ++ ":" ++ render value
def renderEntries : List (String × Json) → String
  | [] => ""
  | entry :: entries => "," ++ renderEntry entry ++ renderEntries entries
end

/-- The values of the named fields, in the order of the names: an array lists exactly them, an object
holds them under their names and may hold more. A field that an object lacks reads as null. -/
def record? (names : List String) : Json → Option (List Json)
  | .array items => if items.length = names.length then some items else none
  | .object fields => some (names.map fun name => (fields.lookup name).getD .null)
  | _ => none

def string? : Json → Option String
  | .string s => some s
  | _ => none

def bool? : Json → Option Bool
  | .bool b => some b
  | _ => none

def word32? : Json → Option Nat
  | .number (.ofNat n) 0 => if n < UInt32.size then some n else none
  | _ => none

/-- An absent value reads as null. -/
def optional? {α : Type} (form : Json → Option α) : Json → Option (Option α)
  | .null => some none
  | j => (form j).map some

def variant? : Json → Option (String × Option Json)
  | .string s => some (s, none)
  | .object [(s, payload)] => some (s, some payload)
  | _ => none

end Json

class JsonForm (α : Type) where
  toJson : α → Json
  ofJson? : Json → Option α

namespace Choice

variable {α : Type} [Choice α]

def ofJson? (j : Json) : Option α :=
  match j.variant? with
  | some (s, none) => ofLabel? s
  | some (s, some .null) => ofLabel? s
  | _ => none

instance : JsonForm α := ⟨fun a => .string (label a), ofJson?⟩

end Choice
end Retrace
