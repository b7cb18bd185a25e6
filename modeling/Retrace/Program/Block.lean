import Retrace.Program.Variable

/-!
Source positions and the blocks of the analysed program: function bodies and loop bodies.
-/

set_option autoImplicit false

namespace Retrace

structure Location where
  file : String
  line : Nat
deriving DecidableEq, Repr

namespace Location

def describe (l : Location) : String := l.file ++ ":" ++ toString l.line

def order (a b : Location) : Ordering := (compare a.file b.file).then (compare a.line b.line)

instance : Digestible Location where
  feed d l := (d.text l.file).word32 l.line

def ofJson? (j : Json) : Option Location := do
  let [file, line] ← j.record? ["file", "line"] | none
  return ⟨← file.string?, ← line.word32?⟩

instance : JsonForm Location where
  toJson l := .object [("file", .string l.file), ("line", .ofNat l.line)]
  ofJson? := ofJson?

end Location

inductive BlockKind where
  /-- A function body, with every loop split off into a block of its own. -/
  | function
  /-- A loop body, entered once per iteration. -/
  | loop
deriving DecidableEq, Repr

instance : Choice BlockKind where
  all := [.function, .loop]
  position
    | .function => 0 | .loop => 1
  label
    | .function => "Function" | .loop => "Loop"

structure Block where
  kind : BlockKind
  function : Variable
  /-- For a loop, a name that is unique within the function. -/
  loop : Option String
deriving DecidableEq, Repr

namespace Block

def ofFunction (name : String) : Block := ⟨.function, .ofFunction name, none⟩

def ofLoop (function loop : String) : Block := ⟨.loop, .ofFunction function, some loop⟩

def isLoop (b : Block) : Bool := b.kind == .loop

def functionName (b : Block) : String := b.function.name

def loopName (b : Block) : String := b.loop.getD ""

def describe (b : Block) : String :=
  match b.loop with
  | some loop => b.function.describe ++ ":" ++ loop
  | none => b.function.describe

def orderLoop : Option String → Option String → Ordering
  | none, none => .eq
  | none, some _ => .lt
  | some _, none => .gt
  | some a, some b => compare a b

def order (a b : Block) : Ordering :=
  ((Choice.order a.kind b.kind).then (a.function.order b.function)).then (orderLoop a.loop b.loop)

instance : Digestible Block where
  feed d b := Digest.optional Digest.text (Digestible.feed (Digestible.feed d b.kind) b.function) b.loop

def ofJson? (j : Json) : Option Block := do
  let [kind, function, loop] ← j.record? ["kind", "function", "loop_name"] | none
  return ⟨← JsonForm.ofJson? kind, ← JsonForm.ofJson? function, ← loop.optional? Json.string?⟩

instance : JsonForm Block where
  toJson b := .object
    [("kind", JsonForm.toJson b.kind), ("function", JsonForm.toJson b.function),
      ("loop_name", Json.ofOption Json.string b.loop)]
  ofJson? := ofJson?

end Block
end Retrace
