import Retrace.Wire.Operand

/-!
The bytes of an operand: an opening header, its kind, its payload and a closing header.
-/

set_option autoImplicit false

namespace Retrace.Wire

def enclose (kind : Kind) (payload : List UInt8) : List UInt8 :=
  header .operand .opening ++ numberItem .kind kind.code ++ payload ++ header .operand .closing

namespace Value

mutual
def encode : Value → List UInt8
  | list vs => enclose .list (encodeAll vs)
  | text bs => enclose .text (bytesItem .text bs)
  | stamp t => enclose .stamp (numberItem .stamp t.toNat)
  | flag b => enclose .flag (header (if b then .yes else .no) .empty)
def encodeAll : List Value → List UInt8
  | [] => []
  | v :: vs => v.encode ++ encodeAll vs
end

end Value

def Operand.encode : Operand → List UInt8
  | .variable name => enclose .variable (numberItem .index name.index)
  | .value v => v.encode

end Retrace.Wire
