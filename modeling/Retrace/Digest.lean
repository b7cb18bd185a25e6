/-!
A 32-bit digest of structured data. Every value feeds a fixed sequence of bytes into the FNV-1a
step function, so digests, and every order that is decided by them, are the same in every run.
-/

set_option autoImplicit false

namespace Retrace

structure Digest where
  state : UInt32
deriving DecidableEq, Repr

namespace Digest

def start : Digest := ⟨0x811c9dc5⟩

def byte (d : Digest) (b : UInt8) : Digest := ⟨(d.state ^^^ b.toUInt32) * 0x01000193⟩

def bytes (d : Digest) (bs : List UInt8) : Digest := bs.foldl byte d

def littleEndian : (count : Nat) → (n : Nat) → List UInt8
  | 0, _ => []
  | count + 1, n => UInt8.ofNat n :: littleEndian count (n / 256)

def word32 (d : Digest) (n : Nat) : Digest := d.bytes (littleEndian 4 n)

def word64 (d : Digest) (n : Nat) : Digest := d.bytes (littleEndian 8 n)

def int128 (d : Digest) (v : Int) : Digest := d.bytes (littleEndian 16 (v % Int.pow 2 128).toNat)

def flag (d : Digest) (b : Bool) : Digest := d.byte (if b then 1 else 0)

def choice (d : Digest) (position : Nat) : Digest := d.word64 position

/-- Text is closed by a byte that no UTF-8 sequence contains. -/
def text (d : Digest) (s : String) : Digest := (d.bytes s.toUTF8.toList).byte 0xff

def blob (d : Digest) (bs : List UInt8) : Digest := (d.word64 bs.length).bytes bs

def optional {α : Type} (feed : Digest → α → Digest) (d : Digest) : Option α → Digest
  | none => d.choice 0
  | some a => feed (d.choice 1) a

def sequence {α : Type} (feed : Digest → α → Digest) (d : Digest) (as : List α) : Digest :=
  as.foldl feed (d.word64 as.length)

theorem bytes_append (d : Digest) (xs ys : List UInt8) :
    d.bytes (xs ++ ys) = (d.bytes xs).bytes ys := by
  simp [bytes]

def hex (d : Digest) : String :=
  let digits := Nat.toDigits 16 d.state.toNat
  String.ofList (List.replicate (8 - digits.length) '0' ++ digits)

end Digest

class Digestible (α : Type) where
  feed : Digest → α → Digest

def stableDigest {α : Type} [Digestible α] (a : α) : Digest := Digestible.feed Digest.start a

end Retrace
