/-!
Reading text out of arbitrary bytes. Bytes that are not UTF-8 are replaced: every longest beginning of
a sequence that cannot be completed gives one replacement character.
-/

set_option autoImplicit false

namespace Retrace.Text

def replacement : Char := Char.ofNat 0xfffd

/-- What a leading byte announces: how many bytes follow, the range of the first of them, and the
bits the leading byte contributes. -/
structure Lead where
  following : Nat
  low : UInt8
  high : UInt8
  bits : Nat

def lead? (b : UInt8) : Option Lead :=
  if 0xc2 ≤ b ∧ b ≤ 0xdf then some ⟨1, 0x80, 0xbf, b.toNat - 0xc0⟩
  else if b = 0xe0 then some ⟨2, 0xa0, 0xbf, 0⟩
  else if b = 0xed then some ⟨2, 0x80, 0x9f, 0xd⟩
  else if 0xe1 ≤ b ∧ b ≤ 0xef then some ⟨2, 0x80, 0xbf, b.toNat - 0xe0⟩
  else if b = 0xf0 then some ⟨3, 0x90, 0xbf, 0⟩
  else if b = 0xf4 then some ⟨3, 0x80, 0x8f, 4⟩
  else if 0xf1 ≤ b ∧ b ≤ 0xf3 then some ⟨3, 0x80, 0xbf, b.toNat - 0xf0⟩
  else none

/-- Reads the announced bytes while they are in range; the code point if all are there, and the rest. -/
def follow : (following : Nat) → (low high : UInt8) → (bits : Nat) → List UInt8 →
    Option Nat × List UInt8
  | 0, _, _, bits, rest => (some bits, rest)
  | _ + 1, _, _, _, [] => (none, [])
  | n + 1, low, high, bits, b :: rest =>
    if low ≤ b ∧ b ≤ high then follow n 0x80 0xbf (bits * 64 + (b.toNat - 0x80)) rest
    else (none, b :: rest)

theorem follow_length_le (n : Nat) (low high : UInt8) (bits : Nat) (bs : List UInt8) :
    (follow n low high bits bs).2.length ≤ bs.length := by
  induction n generalizing low high bits bs with
  | zero => simp [follow]
  | succ n ih =>
    cases bs with
    | nil => simp [follow]
    | cons b rest =>
      rw [follow]
      split
      · exact Nat.le_trans (ih _ _ _ _) (by simp)
      · simp

def decodeLossy : List UInt8 → List Char
  | [] => []
  | b :: rest =>
    if b < 0x80 then Char.ofNat b.toNat :: decodeLossy rest
    else
      match lead? b with
      | none => replacement :: decodeLossy rest
      | some l =>
        (match (follow l.following l.low l.high l.bits rest).1 with
          | some code => Char.ofNat code
          | none => replacement) ::
          decodeLossy (follow l.following l.low l.high l.bits rest).2
termination_by bs => bs.length
decreasing_by
  · simp
  · simp
  · exact Nat.lt_succ_of_le (follow_length_le _ _ _ _ _)

end Retrace.Text
