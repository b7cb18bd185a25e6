import Retrace.Json

/-!
Bytes written as pairs of lower-case hexadecimal digits.
-/

set_option autoImplicit false

namespace Retrace.Text

def hexDigit? (c : Char) : Option Nat :=
  if '0' ≤ c ∧ c ≤ '9' then some (c.toNat - '0'.toNat)
  else if 'a' ≤ c ∧ c ≤ 'f' then some (c.toNat - 'a'.toNat + 10)
  else none

def hexBytes? : List Char → Option (List UInt8)
  | [] => some []
  | [_] => none
  | a :: b :: cs => do
    let high ← hexDigit? a
    let low ← hexDigit? b
    return (high * 16 + low).toUInt8 :: (← hexBytes? cs)

def unhex? (s : String) : Option (List UInt8) := hexBytes? s.toList

def hex (bs : List UInt8) : String := String.ofList (bs.flatMap fun b => Json.hexDigits 2 b.toNat)

end Retrace.Text
