import Retrace.Wire.ParseError

/-!
Reading items from bytes.
-/

set_option autoImplicit false

namespace Retrace.Wire

structure Reader where
  position : Nat
  rest : List UInt8
deriving DecidableEq, Repr

namespace Reader

def ofBytes (bytes : List UInt8) : Reader := ⟨0, bytes⟩

def remaining (r : Reader) : Nat := r.rest.length

def isEmpty (r : Reader) : Bool := r.rest.isEmpty

/-- The most bytes that a number can take. The last of them has room for a single bit. -/
def maxVarintBytes : Nat := 10

def varintFrom (start : Nat) : (room : Nat) → Reader → Except ParseError (Nat × Reader)
  | 0, _ => .error (.malformedVarint start)
  | _ + 1, ⟨position, []⟩ => .error (.unexpectedEnd position)
  | room + 1, ⟨position, b :: bs⟩ =>
    if room = 0 ∧ 1 < b.toNat % 128 then .error (.malformedVarint start)
    else if b.toNat < 128 then .ok (b.toNat, ⟨position + 1, bs⟩)
    else
      match varintFrom start room ⟨position + 1, bs⟩ with
      | .error e => .error e
      | .ok (n, r) => .ok (b.toNat % 128 + 128 * n, r)

def varint (r : Reader) : Except ParseError (Nat × Reader) := varintFrom r.position maxVarintBytes r

def header (r : Reader) : Except ParseError ((Tag × Form) × Reader) := do
  let (code, r') ← r.varint
  match Tag.ofCode? (code / 8), Form.ofCode? (code % 8) with
  | none, _ => .error (.unknownTag (code / 8) r.position)
  | some _, none => .error (.unknownForm (code % 8) r.position)
  | some tag, some form => .ok ((tag, form), r')

/-- The next header, which stays to be read. -/
def peek (r : Reader) : Except ParseError (Tag × Form) := (r.header).map Prod.fst

def expect (r : Reader) (tag : Tag) (form : Form) : Except ParseError Reader := do
  let ((foundTag, foundForm), r') ← r.header
  if foundTag = tag ∧ foundForm = form then .ok r'
  else .error (.unexpectedItem tag form foundTag foundForm r.position)

def tryClose (r : Reader) (tag : Tag) : Except ParseError (Bool × Reader) := do
  let (found, r') ← r.header
  if found = (tag, .closing) then .ok (true, r') else .ok (false, r)

def number (r : Reader) (tag : Tag) : Except ParseError (Nat × Reader) := do
  (← r.expect tag .number).varint

def bytes (r : Reader) (tag : Tag) : Except ParseError (List UInt8 × Reader) := do
  let r ← r.expect tag .bytes
  let (length, r') ← r.varint
  if r'.remaining < length then .error (.unexpectedEnd r.position)
  else .ok (r'.rest.take length, ⟨r'.position + length, r'.rest.drop length⟩)

end Reader
end Retrace.Wire
