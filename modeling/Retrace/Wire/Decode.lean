import Retrace.Limits
import Retrace.Wire.Operand
import Retrace.Wire.Reader

/-!
Operands from bytes. The kind comes first; then exactly one payload of that kind, or for a list any number
of values.
-/

set_option autoImplicit false

namespace Retrace.Wire

inductive Draft where
  | blank
  | variable (name : Option Name)
  | list (elements : List Value)
  | text (bytes : Option (List UInt8))
  | stamp (time : Option UInt64)
  | flag (value : Option Bool)

namespace Draft

def ofKind : Kind → Draft
  | .variable => «variable» none
  | .list => list []
  | .text => text none
  | .stamp => stamp none
  | .flag => flag none

def kind? : Draft → Option Kind
  | blank => none
  | «variable» _ => some .variable
  | list _ => some .list
  | text _ => some .text
  | stamp _ => some .stamp
  | flag _ => some .flag

def finish (position : Nat) : Draft → Except ParseError Operand
  | «variable» (some name) => .ok (.variable name)
  | list vs => .ok (.value (.list vs))
  | text (some bs) => .ok (.value (.text bs))
  | stamp (some t) => .ok (.value (.stamp t))
  | flag (some b) => .ok (.value (.flag b))
  | blank => .error (.missingPayload none .kind position)
  | «variable» none => .error (.missingPayload (some .variable) .index position)
  | text none => .error (.missingPayload (some .text) .text position)
  | stamp none => .error (.missingPayload (some .stamp) .stamp position)
  | flag none => .error (.missingPayload (some .flag) .yes position)

/-- Reads the item with the given tag into the draft; `nested` reads an operand inside a list. -/
def readItem (nested : Reader → Except ParseError (Operand × Reader)) (r : Reader) (tag : Tag)
    (d : Draft) : Except ParseError (Draft × Reader) :=
  match tag, d with
  | .kind, blank => do
    let (code, r') ← r.number .kind
    match Kind.ofCode? code with
    | some k => .ok (ofKind k, r')
    | none => .error (.unknownKind code r.position)
  | .kind, _ => .error (.duplicateTag .kind r.position)
  | .index, «variable» none => do
    let (n, r') ← r.number .index
    match Name.ofNat? n with
    | some name => .ok («variable» (some name), r')
    | none => .error (.outOfRange n r.position)
  | .index, «variable» (some _) => .error (.duplicateTag .index r.position)
  | .yes, flag none => do
    let r' ← r.expect .yes .empty
    .ok (flag (some true), r')
  | .no, flag none => do
    let r' ← r.expect .no .empty
    .ok (flag (some false), r')
  | .yes, flag (some _) => .error (.duplicateTag .yes r.position)
  | .no, flag (some _) => .error (.duplicateTag .no r.position)
  | .text, text none => do
    let (bs, r') ← r.bytes .text
    .ok (text (some bs), r')
  | .text, text (some _) => .error (.duplicateTag .text r.position)
  | .stamp, stamp none => do
    let (n, r') ← r.number .stamp
    .ok (stamp (some n.toUInt64), r')
  | .stamp, stamp (some _) => .error (.duplicateTag .stamp r.position)
  | .operand, list vs => do
    match ← nested r with
    | (.value v, r') => .ok (list (vs ++ [v]), r')
    | (.variable _, _) => .error (.variableInList r.position)
  | _, _ => .error (.misplacedTag tag d.kind? r.position)

/-- Reads items up to the closing header. Every item takes a byte, so the number of bytes bounds the
number of items. -/
def readItems (nested : Reader → Except ParseError (Operand × Reader)) :
    (bytes : Nat) → Draft → Reader → Except ParseError (Draft × Reader)
  | 0, _, r => .error (.unexpectedEnd r.position)
  | bytes + 1, d, r => do
    match ← r.tryClose .operand with
    | (true, r') => .ok (d, r')
    | (false, _) =>
      let (tag, _) ← r.peek
      let (d, r) ← readItem nested r tag d
      readItems nested bytes d r

end Draft

namespace Operand

/-- Reads an operand in which at most `levels` operands are nested in each other. -/
def readWithin : (levels : Nat) → Reader → Except ParseError (Operand × Reader)
  | 0, r => .error (.tooDeep maxOperandDepth r.position)
  | levels + 1, r => do
    let r ← r.expect .operand .opening
    let (d, r) ← Draft.readItems (readWithin levels) r.remaining .blank r
    let o ← d.finish r.position
    .ok (o, r)

def read (r : Reader) : Except ParseError (Operand × Reader) := readWithin maxOperandDepth r

def decode (bytes : List UInt8) : Except ParseError Operand := do
  let (o, r) ← read (.ofBytes bytes)
  if r.isEmpty then .ok o else .error (.trailingBytes r.remaining r.position)

def readAll : (bytes : Nat) → Reader → Except ParseError (List Operand)
  | 0, _ => .ok []
  | bytes + 1, r =>
    if r.isEmpty then .ok []
    else do
      let (o, r) ← read r
      let os ← readAll bytes r
      .ok (o :: os)

def decodeAll (bytes : List UInt8) : Except ParseError (List Operand) :=
  readAll bytes.length (.ofBytes bytes)

end Operand
end Retrace.Wire
