import Retrace.Json
import Retrace.Text.Printable
import Retrace.Text.Utf8

/-!
Text in double quotes, for people: what would not be visible is written as an escape.
-/

set_option autoImplicit false

namespace Retrace.Text

structure Escapes where
  apostrophe : Bool
  extender : Bool

def codePointEscape (c : Char) : List Char :=
  ['\\', 'u', '\x7b'] ++ Json.hexDigits 1 c.toNat ++ ['\x7d']

def escape (rule : Escapes) (c : Char) : List Char :=
  match c.toNat with
  | 0x00 => ['\\', '0']
  | 0x09 => ['\\', 't']
  | 0x0a => ['\\', 'n']
  | 0x0d => ['\\', 'r']
  | 0x22 => ['\\', '"']
  | 0x5c => ['\\', '\\']
  | 0x27 => if rule.apostrophe then ['\\', c] else [c]
  | _ =>
    if rule.extender && isExtender c then codePointEscape c
    else if isPrintable c then [c]
    else codePointEscape c

/-- Every extender is escaped, apostrophes are not. -/
def quoted (cs : List Char) : String :=
  String.ofList ('"' :: cs.flatMap (escape ⟨false, true⟩) ++ ['"'])

/-- An extender is escaped only in front, where nothing precedes it; apostrophes are escaped. -/
def escaped : List Char → List Char
  | [] => []
  | c :: cs => escape ⟨true, true⟩ c ++ cs.flatMap (escape ⟨true, false⟩)

end Retrace.Text
