import Retrace.Wire.Reader
import Mathlib.Data.Nat.Basic
import Mathlib.Tactic.Ring

/-!
Numbers in base 128. A number has one shortest form, which is the one that is written, and longer
ones with zero digits at the end; the reader takes all of them up to ten bytes.
-/

set_option autoImplicit false

namespace Retrace.Wire

/-- The bytes are the digits of the number, lowest first; all bytes but the last have the high bit
set. The last digits may be zero. -/
inductive Base128 : Nat → List UInt8 → Prop
  | last (d : UInt8) (small : d.toNat < 128) : Base128 d.toNat [d]
  | more {n : Nat} {bs : List UInt8} (d : UInt8) (large : 128 ≤ d.toNat) (rest : Base128 n bs) :
    Base128 (d.toNat % 128 + 128 * n) (d :: bs)

/-- A form of a 64-bit number that takes at most ten bytes. -/
structure VarintOf (n : Nat) (bs : List UInt8) : Prop where
  digits : Base128 n bs
  length_le : bs.length ≤ 10
  bounded : n < 2 ^ 64

structure Reader.Consumes (r : Reader) (bs : List UInt8) (r' : Reader) : Prop where
  rest : r.rest = bs ++ r'.rest
  position : r'.position = r.position + bs.length

namespace Reader.Consumes

theorem refl (r : Reader) : r.Consumes [] r := ⟨rfl, rfl⟩

theorem append {r s t : Reader} {as bs : List UInt8} (h : r.Consumes as s) (h' : s.Consumes bs t) :
    r.Consumes (as ++ bs) t := by
  refine ⟨?_, ?_⟩
  · rw [h.rest, h'.rest, List.append_assoc]
  · rw [h'.position, h.position, List.length_append, Nat.add_assoc]

theorem split {r t : Reader} {as bs : List UInt8} (h : r.Consumes (as ++ bs) t) :
    ∃ s : Reader, r.Consumes as s ∧ s.Consumes bs t := by
  refine ⟨⟨r.position + as.length, bs ++ t.rest⟩, ⟨?_, rfl⟩, ⟨rfl, ?_⟩⟩
  · rw [h.rest, List.append_assoc]
  · rw [h.position, List.length_append, Nat.add_assoc]

theorem cons {p : Nat} {rest bs : List UInt8} {s : Reader} (d : UInt8)
    (h : Consumes ⟨p + 1, rest⟩ bs s) : Consumes ⟨p, d :: rest⟩ (d :: bs) s := by
  refine ⟨congrArg (d :: ·) h.rest, ?_⟩
  have hp : s.position = p + 1 + bs.length := h.position
  rw [hp, List.length_cons, Nat.add_assoc, Nat.add_comm 1]

theorem of_cons {r s : Reader} {d : UInt8} {bs : List UInt8} (h : r.Consumes (d :: bs) s) :
    ∃ rest, r = ⟨r.position, d :: rest⟩ ∧ Consumes ⟨r.position + 1, rest⟩ bs s := by
  obtain ⟨p, bytes⟩ := r
  have hr : bytes = d :: (bs ++ s.rest) := h.rest
  have hp : s.position = p + (bs.length + 1) := h.position
  refine ⟨bs ++ s.rest, by rw [hr], rfl, ?_⟩
  rw [hp, Nat.add_assoc, Nat.add_comm 1]

theorem all (bs : List UInt8) : (Reader.ofBytes bs).Consumes bs ⟨bs.length, []⟩ :=
  ⟨(List.append_nil bs).symm, (Nat.zero_add _).symm⟩

theorem remaining {r s : Reader} {bs : List UInt8} (h : r.Consumes bs s) :
    r.remaining = bs.length + s.remaining := by
  simp only [Reader.remaining, h.rest, List.length_append]

theorem unique {r s t : Reader} {bs : List UInt8} (h : r.Consumes bs s) (h' : r.Consumes bs t) :
    s = t := by
  obtain ⟨p, rest⟩ := s
  obtain ⟨q, rest'⟩ := t
  have hr := h.rest.symm.trans h'.rest
  have hp := h.position.trans h'.position.symm
  simp only [List.append_cancel_left_eq] at hr
  simp only at hp
  rw [hr, hp]

end Reader.Consumes

theorem toNat_toUInt8 (n : Nat) (h : n < 256) : n.toUInt8.toNat = n := by
  simp [Nat.mod_eq_of_lt h]

theorem Base128.length_pos {n : Nat} {bs : List UInt8} (h : Base128 n bs) : 0 < bs.length := by
  cases h <;> simp

theorem base128_varint (n : Nat) : Base128 n (varint n) := by
  induction n using Nat.strongRecOn with
  | ind n ih =>
    rw [varint]
    split
    · rename_i small
      have h := Base128.last n.toUInt8 (by rw [toNat_toUInt8 n (by omega)]; exact small)
      rwa [toNat_toUInt8 n (by omega)] at h
    · have hb := toNat_toUInt8 (n % 128 + 128) (by omega)
      have h := Base128.more (n % 128 + 128).toUInt8 (by omega) (ih (n / 128) (by omega))
      rw [hb] at h
      have hn : (n % 128 + 128) % 128 + 128 * (n / 128) = n := by omega
      rwa [hn] at h

theorem length_varint_le (k n : Nat) (h : n < 128 ^ (k + 1)) : (varint n).length ≤ k + 1 := by
  induction k generalizing n with
  | zero =>
    rw [varint, if_pos (by simpa using h)]
    exact Nat.le_refl 1
  | succ k ih =>
    rw [varint]
    split
    · simp
    · have hk : n / 128 < 128 ^ (k + 1) := by
        rw [Nat.div_lt_iff_lt_mul (by omega)]
        exact h
      have := ih (n / 128) hk
      rw [List.length_cons]
      omega

theorem varintOf_varint (n : Nat) (h : n < 2 ^ 64) : VarintOf n (varint n) :=
  ⟨base128_varint n, length_varint_le 9 n (by omega), h⟩

theorem Base128.eq_or_longer {n : Nat} {bs : List UInt8} (h : Base128 n bs) :
    bs = varint n ∨ (varint n).length < bs.length := by
  induction h with
  | last d small =>
    left
    rw [varint, if_pos small]
    simp
  | @more n bs d large rest ih =>
    have hd := d.toNat_lt
    by_cases hn : n = 0
    · -- the digits that follow are zero, so the written form ends here
      right
      have hlt : d.toNat % 128 + 128 * n < 128 := by omega
      have := rest.length_pos
      rw [varint, if_pos hlt, List.length_singleton, List.length_cons]
      omega
    · have hge : ¬ d.toNat % 128 + 128 * n < 128 := by omega
      have hmod : (d.toNat % 128 + 128 * n) % 128 + 128 = d.toNat := by omega
      have hdiv : (d.toNat % 128 + 128 * n) / 128 = n := by omega
      have hd' : d.toNat.toUInt8 = d := by simp
      rw [varint, if_neg hge, hmod, hdiv, hd']
      rcases ih with rfl | ih
      · exact .inl rfl
      · right
        simp only [List.length_cons]
        omega

namespace Reader

/-- The last byte that is allowed has room for a single bit. -/
theorem varintFrom_sound (start room : Nat) (r r' : Reader) (n : Nat)
    (h : varintFrom start room r = .ok (n, r')) :
    ∃ bs, Base128 n bs ∧ bs.length ≤ room ∧ n < 2 * 128 ^ (room - 1) ∧ r.Consumes bs r' := by
  induction room generalizing r n with
  | zero => simp [varintFrom] at h
  | succ room ih =>
    obtain ⟨p, _ | ⟨d, rest⟩⟩ := r
    · simp [varintFrom] at h
    · rw [varintFrom] at h
      split at h
      · simp at h
      · rename_i fits
        split at h
        · rename_i small
          simp only [Except.ok.injEq, Prod.mk.injEq] at h
          obtain ⟨rfl, rfl⟩ := h
          refine ⟨[d], .last d small, by simp, ?_, ⟨rfl, rfl⟩⟩
          cases room with
          | zero => simp only [Nat.reduceAdd, Nat.sub_self, Nat.pow_zero]; omega
          | succ room =>
            have := Nat.one_le_pow room 128 (by omega)
            rw [Nat.add_sub_cancel, Nat.pow_succ]
            omega
        · rename_i large
          cases hv : varintFrom start room ⟨p + 1, rest⟩ with
          | error e => simp [hv] at h
          | ok found =>
            obtain ⟨m, s⟩ := found
            simp only [hv, Except.ok.injEq, Prod.mk.injEq] at h
            obtain ⟨rfl, rfl⟩ := h
            obtain ⟨bs, hbs, hlen, hbound, hc⟩ := ih _ _ hv
            refine ⟨d :: bs, .more d (by omega) hbs, ?_, ?_, hc.cons d⟩
            · rw [List.length_cons]; omega
            · cases room with
              | zero => have := hbs.length_pos; omega
              | succ room =>
                rw [Nat.add_sub_cancel] at hbound ⊢
                rw [Nat.pow_succ]
                omega

theorem varintFrom_complete (start room : Nat) (r r' : Reader) (n : Nat) (bs : List UInt8)
    (h : Base128 n bs) (hlen : bs.length ≤ room) (hbound : n < 2 * 128 ^ (room - 1))
    (hc : r.Consumes bs r') : varintFrom start room r = .ok (n, r') := by
  induction h generalizing room r with
  | last d small =>
    obtain ⟨rest, hr, hc⟩ := hc.of_cons
    have hr' := (Consumes.refl _).unique hc
    cases room with
    | zero => simp at hlen
    | succ room =>
      have fits : ¬ (room = 0 ∧ 1 < d.toNat % 128) := by
        rintro ⟨rfl, hd⟩
        simp only [Nat.reduceAdd, Nat.sub_self, Nat.pow_zero] at hbound
        omega
      rw [hr, varintFrom, if_neg fits, if_pos small, hr']
  | @more n bs d large rest ih =>
    obtain ⟨tail, hr, hc⟩ := hc.of_cons
    have hpos := rest.length_pos
    rw [List.length_cons] at hlen
    match room, hlen with
    | room + 2, hlen =>
      have hn : n < 2 * 128 ^ room := by
        rw [show room + 2 - 1 = room + 1 from rfl, Nat.pow_succ] at hbound
        omega
      have htail := ih (room + 1) ⟨r.position + 1, tail⟩ (by omega) hn hc
      have fits : ¬ (room + 1 = 0 ∧ 1 < d.toNat % 128) := by omega
      rw [hr, varintFrom, if_neg fits, if_neg (by omega), htail]
    | 1, hlen => omega

theorem varint_eq_ok_iff (r r' : Reader) (n : Nat) :
    r.varint = .ok (n, r') ↔ ∃ bs, VarintOf n bs ∧ r.Consumes bs r' := by
  have hmax : 2 * 128 ^ (maxVarintBytes - 1) = 2 ^ 64 := by decide
  constructor
  · intro h
    obtain ⟨bs, hbs, hlen, hbound, hc⟩ := varintFrom_sound _ _ _ _ _ h
    rw [hmax] at hbound
    exact ⟨bs, ⟨hbs, hlen, hbound⟩, hc⟩
  · rintro ⟨bs, hbs, hc⟩
    have hbound := hbs.bounded
    rw [← hmax] at hbound
    exact varintFrom_complete _ _ _ _ _ _ hbs.digits hbs.length_le hbound hc

end Reader
end Retrace.Wire
