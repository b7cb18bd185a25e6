import Retrace.Digest

/-!
Types whose values are a fixed list of named alternatives. Order and digest go by the position of an
alternative, its written form is its label.
-/

set_option autoImplicit false

namespace Retrace

class Choice (α : Type) where
  all : List α
  position : α → Nat
  label : α → String

namespace Choice

variable {α : Type} [Choice α]

def ofLabel? (s : String) : Option α := (all : List α).find? (fun a => label a == s)

def order (a b : α) : Ordering := compare (position a) (position b)

instance : Digestible α := ⟨fun d a => d.choice (position a)⟩

end Choice
end Retrace
