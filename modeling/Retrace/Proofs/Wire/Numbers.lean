import Retrace.Proofs.Wire.Varint
import Mathlib.Algebra.BigOperators.Fin

/-!
What the reader of numbers makes of any bytes. A number ends with the first byte that has no high bit, which must be one
of the first ten; the tenth has room for a single bit. Where the input ends before there are ten bytes, and none of
them is the last of a number, it is the end that is reported. All else is malformed. Of the bytes that read as a
number, the written ones are the shortest.
-/

set_option autoImplicit false

namespace Retrace.Wire

/-- A number at the front of the bytes ends with byte `n`, which is one of the first `room` bytes. The high bit is set
in the bytes before it, and not in this one. The last byte that there is room for is zero or one. -/
structure CompleteAt (room : Nat) (bs : List UInt8) (n : Nat) : Prop where
  inRoom : n < room
  continued : ∀ b ∈ bs.take n, 128 ≤ b.toNat
  last : ∃ b, bs[n]? = some b ∧ b.toNat < 128 ∧ (n + 1 = room → b.toNat ≤ 1)

/-- There are fewer than `room` bytes, and after each of them another one should follow. -/
structure Unfinished (room : Nat) (bs : List UInt8) : Prop where
  length_lt : bs.length < room
  continued : ∀ b ∈ bs, 128 ≤ b.toNat

def digitSum (bs : List UInt8) : Nat := ∑ i : Fin bs.length, (bs.get i).toNat % 128 * 128 ^ i.val

/-- A word with more digits in it: the low seven bits of each byte are shifted past `count` digits that are there
already, and past those of the bytes before it. -/
def packFrom (count : Nat) (word : UInt64) : List UInt8 → UInt64
  | [] => word
  | b :: bs => packFrom (count + 1) (word ||| (b &&& 127).toUInt64 <<< (7 * count).toUInt64) bs

def packed (bs : List UInt8) : UInt64 := packFrom 0 0 bs

variable {room n : Nat} {b : UInt8} {bs : List UInt8}

theorem CompleteAt.exists_cons (h : CompleteAt room bs n) : ∃ k b rest, room = k + 1 ∧ bs = b :: rest := by
  obtain ⟨last, hlast, -⟩ := h.last
  cases bs with
  | nil => simp at hlast
  | cons b rest => exact ⟨room - 1, b, rest, by have := h.inRoom; omega, rfl⟩

theorem completeAt_zero_iff : CompleteAt (room + 1) (b :: bs) 0 ↔ b.toNat < 128 ∧ (room = 0 → b.toNat ≤ 1) := by
  constructor
  · rintro ⟨-, -, _, ⟨⟩, small, fits⟩
    exact ⟨small, fun h => fits (by rw [h])⟩
  · rintro ⟨small, fits⟩
    exact ⟨Nat.succ_pos room, List.forall_mem_nil _, b, rfl, small, fun h => fits (by omega)⟩

theorem completeAt_succ_iff : CompleteAt (room + 1) (b :: bs) (n + 1) ↔ 128 ≤ b.toNat ∧ CompleteAt room bs n := by
  constructor
  · rintro ⟨inRoom, continued, last, hlast, small, fits⟩
    rw [List.take_succ_cons, List.forall_mem_cons] at continued
    exact ⟨continued.1, Nat.lt_of_succ_lt_succ inRoom, continued.2, last, hlast, small, fun h => fits (by rw [h])⟩
  · rintro ⟨large, inRoom, continued, last, hlast, small, fits⟩
    refine ⟨Nat.succ_lt_succ inRoom, ?_, last, hlast, small, fun h => fits (Nat.succ.inj h)⟩
    rw [List.take_succ_cons, List.forall_mem_cons]
    exact ⟨large, continued⟩

theorem unfinished_nil : Unfinished (room + 1) [] := ⟨Nat.succ_pos room, List.forall_mem_nil _⟩

theorem unfinished_cons_iff : Unfinished (room + 1) (b :: bs) ↔ 128 ≤ b.toNat ∧ Unfinished room bs := by
  constructor
  · rintro ⟨hlength, continued⟩
    rw [List.forall_mem_cons] at continued
    exact ⟨continued.1, Nat.lt_of_succ_lt_succ hlength, continued.2⟩
  · rintro ⟨large, hlength, continued⟩
    exact ⟨Nat.succ_lt_succ hlength, List.forall_mem_cons.2 ⟨large, continued⟩⟩

theorem digitSum_cons (b : UInt8) (bs : List UInt8) :
    digitSum (b :: bs) = b.toNat % 128 + 128 * digitSum bs := by
  have hshift (i : Fin bs.length) : (bs.get i).toNat % 128 * 128 ^ (i.val + 1) =
      128 * ((bs.get i).toNat % 128 * 128 ^ i.val) := by ring
  calc digitSum (b :: bs)
      = b.toNat % 128 * 128 ^ 0 + ∑ i : Fin bs.length, (bs.get i).toNat % 128 * 128 ^ (i.val + 1) :=
        Fin.sum_univ_succ _
    _ = b.toNat % 128 + 128 * digitSum bs := by
        rw [Nat.pow_zero, Nat.mul_one, digitSum, Finset.mul_sum]
        simp only [hshift]

theorem digitSum_singleton (small : b.toNat < 128) : digitSum [b] = b.toNat := by
  rw [digitSum_cons, Nat.mod_eq_of_lt small]
  rfl

/-- A digit that is shifted past the ones in a word, and or-ed to them, is added. -/
theorem toNat_or_digit {count : Nat} {word : UInt64} (hword : word.toNat < 128 ^ count) (hcount : count < 10)
    (hfits : b.toNat % 128 * 128 ^ count < 2 ^ 64) :
    (word ||| (b &&& 127).toUInt64 <<< (7 * count).toUInt64).toNat =
      word.toNat + b.toNat % 128 * 128 ^ count := by
  have hdigit : (b &&& 127).toNat = b.toNat % 128 := by
    rw [UInt8.toNat_and]
    exact Nat.and_two_pow_sub_one_eq_mod b.toNat 7
  have hplace : (7 * count).toUInt64.toNat % 64 = 7 * count := by
    rw [UInt64.toNat_ofNat']
    omega
  have hpow : 2 ^ (7 * count) = 128 ^ count := Nat.pow_mul 2 7 count
  have hshift : ((b &&& 127).toUInt64 <<< (7 * count).toUInt64).toNat = (b.toNat % 128) <<< (7 * count) := by
    rw [UInt64.toNat_shiftLeft, hplace, UInt8.toNat_toUInt64, hdigit]
    refine Nat.mod_eq_of_lt ?_
    rw [Nat.shiftLeft_eq, hpow]
    exact hfits
  rw [← hpow] at hword
  rw [UInt64.toNat_or, hshift, Nat.or_comm, ← Nat.shiftLeft_add_eq_or_of_lt hword, Nat.shiftLeft_eq, hpow,
    Nat.add_comm]

theorem toNat_packFrom (bs : List UInt8) (count : Nat) (word : UInt64) (hword : word.toNat < 128 ^ count)
    (hcount : count + bs.length ≤ 10) (hfits : word.toNat + 128 ^ count * digitSum bs < 2 ^ 64) :
    (packFrom count word bs).toNat = word.toNat + 128 ^ count * digitSum bs := by
  induction bs generalizing count word with
  | nil => rfl
  | cons b bs ih =>
    have hsplit : word.toNat + 128 ^ count * digitSum (b :: bs) =
        word.toNat + b.toNat % 128 * 128 ^ count + 128 ^ (count + 1) * digitSum bs := by
      rw [digitSum_cons]
      ring
    rw [List.length_cons] at hcount
    rw [hsplit] at hfits ⊢
    have hor := toNat_or_digit (b := b) hword (by omega) (by omega)
    have hword' : word.toNat + b.toNat % 128 * 128 ^ count < 128 ^ (count + 1) := by
      have hdigit : b.toNat % 128 * 128 ^ count ≤ 127 * 128 ^ count := Nat.mul_le_mul_right _ (by omega)
      rw [Nat.pow_succ]
      omega
    rw [← hor] at hword' hfits ⊢
    exact ih _ _ hword' (by omega) hfits

namespace Reader

theorem varintFrom_continued (large : 128 ≤ b.toNat) (hfits : ¬ (room = 0 ∧ 1 < b.toNat % 128)) (start p : Nat) :
    varintFrom start (room + 1) ⟨p, b :: bs⟩ =
      (varintFrom start room ⟨p + 1, bs⟩).map fun found => (b.toNat % 128 + 128 * found.1, found.2) := by
  rw [varintFrom, if_neg hfits, if_neg (Nat.not_lt.2 large)]
  cases varintFrom start room ⟨p + 1, bs⟩ with
  | error e => rfl
  | ok found => rfl

theorem varintFrom_of_completeAt (h : CompleteAt room bs n) (start p : Nat) :
    varintFrom start room ⟨p, bs⟩ = .ok (digitSum (bs.take (n + 1)), ⟨p + (n + 1), bs.drop (n + 1)⟩) := by
  induction n generalizing room bs p with
  | zero =>
    obtain ⟨room, b, bs, rfl, rfl⟩ := h.exists_cons
    obtain ⟨small, fits⟩ := completeAt_zero_iff.1 h
    have hfits : ¬ (room = 0 ∧ 1 < b.toNat % 128) := by omega
    rw [varintFrom, if_neg hfits, if_pos small, List.take_succ_cons, List.take_zero, digitSum_singleton small]
    rfl
  | succ n ih =>
    obtain ⟨room, b, bs, rfl, rfl⟩ := h.exists_cons
    obtain ⟨large, hrest⟩ := completeAt_succ_iff.1 h
    have hfits : ¬ (room = 0 ∧ 1 < b.toNat % 128) := by
      have := hrest.inRoom
      omega
    rw [varintFrom_continued large hfits, ih hrest, List.take_succ_cons, digitSum_cons, List.drop_succ_cons,
      Nat.add_assoc p 1, Nat.add_comm 1]
    rfl

theorem varintFrom_of_unfinished (h : Unfinished room bs) (start p : Nat) :
    varintFrom start room ⟨p, bs⟩ = .error (.unexpectedEnd (p + bs.length)) := by
  induction bs generalizing room p with
  | nil =>
    cases room with
    | zero => exact absurd h.length_lt (Nat.not_lt_zero _)
    | succ room => rfl
  | cons b bs ih =>
    cases room with
    | zero => exact absurd h.length_lt (Nat.not_lt_zero _)
    | succ room =>
      obtain ⟨large, hrest⟩ := unfinished_cons_iff.1 h
      have hfits : ¬ (room = 0 ∧ 1 < b.toNat % 128) := by
        have := hrest.length_lt
        omega
      rw [varintFrom_continued large hfits, ih hrest, List.length_cons, Nat.add_assoc p 1, Nat.add_comm 1]
      rfl

theorem varintFrom_of_neither (hc : ∀ n, ¬ CompleteAt room bs n) (hu : ¬ Unfinished room bs) (start p : Nat) :
    varintFrom start room ⟨p, bs⟩ = .error (.malformedVarint start) := by
  induction room generalizing bs p with
  | zero => rfl
  | succ room ih =>
    cases bs with
    | nil => exact absurd unfinished_nil hu
    | cons b bs =>
      by_cases hfits : room = 0 ∧ 1 < b.toNat % 128
      · rw [varintFrom, if_pos hfits]
      · -- With room for it, a byte without the high bit would be the last of a number.
        have large : 128 ≤ b.toNat := by
          refine Nat.le_of_not_lt fun small => hc 0 (completeAt_zero_iff.2 ⟨small, fun hroom => ?_⟩)
          omega
        have hc' (n : Nat) (h : CompleteAt room bs n) : False := hc (n + 1) (completeAt_succ_iff.2 ⟨large, h⟩)
        have hu' (h : Unfinished room bs) : False := hu (unfinished_cons_iff.2 ⟨large, h⟩)
        rw [varintFrom_continued large hfits, ih hc' hu']
        rfl

theorem varint_outcome (r : Reader) :
    (∃ n, CompleteAt 10 r.rest n ∧
      r.varint = .ok (digitSum (r.rest.take (n + 1)), ⟨r.position + (n + 1), r.rest.drop (n + 1)⟩)) ∨
    (Unfinished 10 r.rest ∧ r.varint = .error (.unexpectedEnd (r.position + r.remaining))) ∨
    ((∀ n, ¬ CompleteAt 10 r.rest n) ∧ ¬ Unfinished 10 r.rest ∧
      r.varint = .error (.malformedVarint r.position)) := by
  by_cases hc : ∃ n, CompleteAt 10 r.rest n
  · obtain ⟨n, hn⟩ := hc
    exact .inl ⟨n, hn, varintFrom_of_completeAt hn _ _⟩
  · rw [not_exists] at hc
    by_cases hu : Unfinished 10 r.rest
    · exact .inr (.inl ⟨hu, varintFrom_of_unfinished hu _ _⟩)
    · exact .inr (.inr ⟨hc, hu, varintFrom_of_neither hc hu _ _⟩)

theorem varint_written (p n : Nat) (h : n < 2 ^ 64) :
    Reader.varint ⟨p, Wire.varint n⟩ = .ok (n, ⟨p + (Wire.varint n).length, []⟩) :=
  (varint_eq_ok_iff _ _ _).2 ⟨Wire.varint n, varintOf_varint n h, (List.append_nil _).symm, rfl⟩

theorem eq_or_longer_of_varint {p v : Nat} {s : Reader} (h : Reader.varint ⟨p, bs⟩ = .ok (v, s)) :
    bs = Wire.varint v ∨ (Wire.varint v).length < bs.length := by
  obtain ⟨used, hused, hc⟩ := (varint_eq_ok_iff _ _ _).1 h
  have hbs : bs = used ++ s.rest := hc.rest
  have hlength : bs.length = used.length + s.rest.length := by rw [hbs, List.length_append]
  rcases hused.digits.eq_or_longer with rfl | hlonger
  · cases hrest : s.rest with
    | nil => exact .inl (by rw [hbs, hrest, List.append_nil])
    | cons b rest =>
      rw [hrest, List.length_cons] at hlength
      exact .inr (by omega)
  · exact .inr (by omega)

end Reader

theorem CompleteAt.digitSum_lt (h : CompleteAt 10 bs n) : digitSum (bs.take (n + 1)) < 2 ^ 64 := by
  have hread : Reader.varint ⟨0, bs⟩ = _ := Reader.varintFrom_of_completeAt h 0 0
  obtain ⟨_, hform, -⟩ := (Reader.varint_eq_ok_iff _ _ _).1 hread
  exact hform.bounded

theorem CompleteAt.toNat_packed (h : CompleteAt 10 bs n) :
    (packed (bs.take (n + 1))).toNat = digitSum (bs.take (n + 1)) := by
  have hlength : 0 + (bs.take (n + 1)).length ≤ 10 := by
    have hle : (bs.take (n + 1)).length ≤ n + 1 := List.length_take_le _ _
    have hroom := h.inRoom
    omega
  have hsum : (0 : UInt64).toNat + 128 ^ 0 * digitSum (bs.take (n + 1)) = digitSum (bs.take (n + 1)) := by simp
  have hpack := toNat_packFrom (bs.take (n + 1)) 0 0 (by decide) hlength (hsum.trans_lt h.digitSum_lt)
  exact hpack.trans hsum

/-- The reader of numbers is exact, for whatever bytes it finds at whatever position. It gives a number exactly if the
bytes hold one that ends in time; the number is the sum of their digits, fits in 64 bits, so that nothing is lost by
putting the digits side by side in a word, and the reader goes past these bytes. It reports the end of the input exactly
if it gets there within a number that could still end in time, and refuses all other bytes where they start. The bytes
that are written for a number read as that number, and no others that do are as short. -/
theorem varint_exact :
    (∀ r : Reader,
      (∀ v s, r.varint = .ok (v, s) ↔ ∃ n, CompleteAt 10 r.rest n ∧
        v = digitSum (r.rest.take (n + 1)) ∧ s = ⟨r.position + (n + 1), r.rest.drop (n + 1)⟩) ∧
      (∀ n, CompleteAt 10 r.rest n → digitSum (r.rest.take (n + 1)) < 2 ^ 64 ∧
        (packed (r.rest.take (n + 1))).toNat = digitSum (r.rest.take (n + 1))) ∧
      (∀ p, r.varint = .error (.unexpectedEnd p) ↔ Unfinished 10 r.rest ∧ p = r.position + r.remaining) ∧
      (∀ p, r.varint = .error (.malformedVarint p) ↔
        (∀ n, ¬ CompleteAt 10 r.rest n) ∧ ¬ Unfinished 10 r.rest ∧ p = r.position)) ∧
    ∀ (x : UInt64) (p : Nat),
      Reader.varint ⟨p, varint x.toNat⟩ = .ok (x.toNat, ⟨p + (varint x.toNat).length, []⟩) ∧
      ∀ bs s, Reader.varint ⟨p, bs⟩ = .ok (x.toNat, s) →
        bs = varint x.toNat ∨ (varint x.toNat).length < bs.length := by
  refine ⟨fun r => ⟨fun v s => ⟨fun h => ?_, ?_⟩, fun n hn => ⟨hn.digitSum_lt, hn.toNat_packed⟩,
    fun p => ⟨fun h => ?_, ?_⟩, fun p => ⟨fun h => ?_, ?_⟩⟩,
    fun x p => ⟨Reader.varint_written p x.toNat x.toNat_lt, fun bs s => Reader.eq_or_longer_of_varint⟩⟩
  · obtain ⟨n, hn, hr⟩ | ⟨-, hr⟩ | ⟨-, -, hr⟩ := r.varint_outcome
    all_goals cases hr.symm.trans h
    exact ⟨n, hn, rfl, rfl⟩
  · rintro ⟨n, hn, rfl, rfl⟩
    exact Reader.varintFrom_of_completeAt hn _ _
  · obtain ⟨n, -, hr⟩ | ⟨hu, hr⟩ | ⟨-, -, hr⟩ := r.varint_outcome
    all_goals cases hr.symm.trans h
    exact ⟨hu, rfl⟩
  · rintro ⟨hu, rfl⟩
    exact Reader.varintFrom_of_unfinished hu _ _
  · obtain ⟨n, -, hr⟩ | ⟨-, hr⟩ | ⟨hc, hu, hr⟩ := r.varint_outcome
    all_goals cases hr.symm.trans h
    exact ⟨hc, hu, rfl⟩
  · rintro ⟨hc, hu, rfl⟩
    exact Reader.varintFrom_of_neither hc hu _ _

/-- Nine full bytes and a one are the largest number, whatever follows. With a two for the one they are malformed, and
without it the input ends. A form of five that takes three bytes is longer than the written one. -/
theorem varint_exact_of_largest :
    CompleteAt 10 (List.replicate 9 255 ++ [1, 7]) 9 ∧
    Reader.varint ⟨3, List.replicate 9 255 ++ [1, 7]⟩ = .ok (2 ^ 64 - 1, ⟨13, [7]⟩) ∧
    (packed (List.replicate 9 255 ++ [1])).toNat = 2 ^ 64 - 1 ∧
    Reader.varint ⟨3, List.replicate 9 255 ++ [2, 7]⟩ = .error (.malformedVarint 3) ∧
    Reader.varint ⟨3, List.replicate 9 255⟩ = .error (.unexpectedEnd 12) ∧
    Reader.varint ⟨3, [133, 128, 0]⟩ = .ok (5, ⟨6, []⟩) ∧ (varint 5).length < 3 := by
  have hfull : ∀ b ∈ List.replicate 9 (255 : UInt8), 128 ≤ b.toNat := by
    intro b hb
    rw [List.eq_of_mem_replicate hb]
    decide
  have hlargest : CompleteAt 10 (List.replicate 9 255 ++ [1, 7]) 9 :=
    ⟨by decide, hfull, 1, rfl, by decide, fun _ => by decide⟩
  have hsum : digitSum (List.replicate 9 255 ++ [1]) = 2 ^ 64 - 1 := by decide +kernel
  obtain ⟨hread, hword, -⟩ := varint_exact.1 ⟨3, List.replicate 9 255 ++ [1, 7]⟩
  have hend := (varint_exact.1 ⟨3, List.replicate 9 255⟩).2.2.1 12
  have hfive : Reader.varint ⟨3, [133, 128, 0]⟩ = .ok (5, ⟨6, []⟩) := by decide
  have hlonger := (varint_exact.2 5 3).2 [133, 128, 0] ⟨6, []⟩ hfive
  refine ⟨hlargest, (hread _ _).2 ⟨9, hlargest, hsum.symm, rfl⟩, (hword 9 hlargest).2.trans hsum, ?_,
    hend.2 ⟨⟨by decide, hfull⟩, rfl⟩, hfive, hlonger.resolve_left ?_⟩
  · decide
  · intro h
    rw [show (5 : UInt64).toNat = 5 from rfl, varint, if_pos (by decide)] at h
    cases h

end Retrace.Wire
