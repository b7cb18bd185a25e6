import Retrace.Proofs.Wire.RoundTrip

/-!
Input that is cut short. Whatever a reader takes, taking away the end of it makes the reader run out of
input: a part of a form is neither a form nor wrong in any other way. So no form of an operand is the
beginning of another one.
-/

set_option autoImplicit false

namespace Retrace.Wire

def Reader.EndsIn (r : Reader) (bs : List UInt8) : Prop := ∃ missing, missing ≠ [] ∧ bs = r.rest ++ missing

def RunsOut {α : Type} (r : Reader) (x : Except ParseError α) : Prop :=
  ∃ p, p ≤ r.position + r.remaining ∧ x = .error (.unexpectedEnd p)

namespace Reader.EndsIn

theorem not_nil {r : Reader} : ¬ r.EndsIn [] := by
  rintro ⟨missing, hne, heq⟩
  exact hne (List.append_eq_nil_iff.1 heq.symm).2

theorem of_append {r : Reader} {as bs : List UInt8} (h : r.EndsIn (as ++ bs)) :
    r.EndsIn as ∨ ∃ s, r.Consumes as s ∧ s.EndsIn bs := by
  obtain ⟨missing, hne, heq⟩ := h
  rcases List.append_eq_append_iff.1 heq with ⟨rest, hrest, rfl⟩ | ⟨more, rfl, rfl⟩
  · exact .inr ⟨⟨r.position + as.length, rest⟩, ⟨hrest, rfl⟩, missing, hne, rfl⟩
  · cases more with
    | nil => exact .inr ⟨⟨r.position + r.rest.length, []⟩, ⟨by simp, by simp⟩, bs, hne, rfl⟩
    | cons b more => exact .inl ⟨b :: more, List.cons_ne_nil b more, rfl⟩

theorem of_cons {r : Reader} {b : UInt8} {bs : List UInt8} (h : r.EndsIn (b :: bs)) :
    r.rest = [] ∨ ∃ rest, r.rest = b :: rest ∧ EndsIn ⟨r.position + 1, rest⟩ bs := by
  obtain ⟨missing, hne, heq⟩ := h
  cases hrest : r.rest with
  | nil => exact .inl rfl
  | cons c rest =>
    rw [hrest] at heq
    obtain ⟨rfl, rfl⟩ := List.cons.inj heq
    exact .inr ⟨rest, rfl, missing, hne, rfl⟩

end Reader.EndsIn

namespace RunsOut

variable {α β : Type} {r s : Reader} {x : Except ParseError α}

theorem bind {f : α → Except ParseError β} (h : RunsOut r x) : RunsOut r (x >>= f) := by
  obtain ⟨p, hp, rfl⟩ := h
  exact ⟨p, hp, rfl⟩

theorem of_consumes {bs : List UInt8} (hc : r.Consumes bs s) (h : RunsOut s x) : RunsOut r x := by
  obtain ⟨p, hp, rfl⟩ := h
  refine ⟨p, ?_, rfl⟩
  have hpos := hc.position
  have hrem := hc.remaining
  omega

end RunsOut

namespace Reader

theorem varintFrom_runsOut {n : Nat} {bs : List UInt8} (h : Base128 n bs) (start room : Nat) (r : Reader)
    (hlen : bs.length ≤ room) (hend : r.EndsIn bs) : RunsOut r (varintFrom start room r) := by
  induction h generalizing room r with
  | last d small =>
    obtain ⟨p, bytes⟩ := r
    cases room with
    | zero => simp at hlen
    | succ room =>
      rcases hend.of_cons with hnil | ⟨rest, -, hend⟩
      · cases hnil
        exact ⟨p, Nat.le_add_right p _, rfl⟩
      · exact absurd hend EndsIn.not_nil
  | @more n bs d large digits ih =>
    obtain ⟨p, bytes⟩ := r
    have hpos := digits.length_pos
    rw [List.length_cons] at hlen
    cases room with
    | zero => omega
    | succ room =>
      rcases hend.of_cons with hnil | ⟨rest, hrest, hend⟩
      · cases hnil
        exact ⟨p, Nat.le_add_right p _, rfl⟩
      · cases hrest
        obtain ⟨q, hq, herror⟩ := ih room ⟨p + 1, rest⟩ (by omega) hend
        refine ⟨q, by simpa [remaining, Nat.add_assoc, Nat.add_comm 1] using hq, ?_⟩
        have fits : ¬ (room = 0 ∧ 1 < d.toNat % 128) := by omega
        rw [varintFrom, if_neg fits, if_neg (by omega), herror]

theorem varint_runsOut {n : Nat} {bs : List UInt8} {r : Reader} (h : VarintOf n bs) (hend : r.EndsIn bs) :
    RunsOut r r.varint :=
  varintFrom_runsOut h.digits _ _ r h.length_le hend

theorem header_runsOut {tag : Tag} {form : Form} {bs : List UInt8} {r : Reader} (h : HeaderOf tag form bs)
    (hend : r.EndsIn bs) : RunsOut r r.header :=
  (varint_runsOut h hend).bind

theorem expect_runsOut {tag : Tag} {form : Form} {bs : List UInt8} {r : Reader} (h : HeaderOf tag form bs)
    (hend : r.EndsIn bs) : RunsOut r (r.expect tag form) :=
  (header_runsOut h hend).bind

theorem number_runsOut {tag : Tag} {n : Nat} {bs : List UInt8} {r : Reader} (h : NumberOf tag n bs)
    (hend : r.EndsIn bs) : RunsOut r (r.number tag) := by
  obtain ⟨hh, hd⟩ := h
  rcases hend.of_append with hend | ⟨s, hc, hend⟩
  · exact (expect_runsOut hh hend).bind
  · simp only [number]
    rw [expect_bind hh hc]
    exact (varint_runsOut hd hend).of_consumes hc

theorem bytes_runsOut {tag : Tag} {content bs : List UInt8} {r : Reader} (h : BytesOf tag content bs)
    (hend : r.EndsIn bs) : RunsOut r (r.bytes tag) := by
  obtain ⟨hh, hd⟩ := h
  rw [List.append_assoc] at hend
  rcases hend.of_append with hend | ⟨s, hc, hend⟩
  · exact (expect_runsOut hh hend).bind
  simp only [bytes]
  rw [expect_bind hh hc]
  refine RunsOut.of_consumes hc ?_
  rcases hend.of_append with hend | ⟨t, hc', missing, hne, hcontent⟩
  · exact (varint_runsOut hd hend).bind
  · -- The length is there, and announces more bytes than are left.
    have hshort : t.remaining < content.length := by
      rw [hcontent, List.length_append]
      exact Nat.lt_add_of_pos_right (List.length_pos_iff.2 hne)
    rw [varint_takes.bind hd hc']
    exact ⟨s.position, Nat.le_add_right _ _, by simp [hshort]⟩

end Reader

namespace Draft

variable {form : Operand → List UInt8 → Prop}
  {nested : Reader → Except ParseError (Operand × Reader)}

/-- In front of a part of an item, the input ends in the header, or the header says which item to read and
the input ends there. -/
def ItemRunsOut (nested : Reader → Except ParseError (Operand × Reader)) (r : Reader) (d : Draft) : Prop :=
  RunsOut r r.header ∨ ∃ (tag : Tag) (f : Form) (s : Reader), r.header = .ok ((tag, f), s) ∧
    (tag, f) ≠ (.operand, .closing) ∧ RunsOut r (readItem nested r tag d)

theorem itemRunsOut_of_header {tag : Tag} {f : Form} {head rest : List UInt8} {r : Reader} {d : Draft}
    (hh : HeaderOf tag f head) (hne : (tag, f) ≠ (.operand, .closing)) (hend : r.EndsIn (head ++ rest))
    (hr : RunsOut r (readItem nested r tag d)) : ItemRunsOut nested r d := by
  rcases hend.of_append with hend | ⟨s, hc, -⟩
  · exact .inl (Reader.header_runsOut hh hend)
  · exact .inr ⟨tag, f, s, (Reader.header_takes r s (tag, f)).2 ⟨head, hh, hc⟩, hne, hr⟩

theorem readItem_runsOut (hn : ∀ o bs r, form o bs → r.EndsIn bs → RunsOut r (nested r)) (ho : Opens form)
    {d d' : Draft} {bs : List UInt8} (h : Item form d bs d') (r : Reader) (hend : r.EndsIn bs) :
    ItemRunsOut nested r d := by
  cases h with
  | kind item | index item | stamp item =>
    have hr := Reader.number_runsOut item hend
    obtain ⟨hh, -⟩ := item
    exact itemRunsOut_of_header hh (by decide) hend hr.bind
  | flag item => exact .inl (Reader.header_runsOut item hend)
  | text item =>
    have hr := Reader.bytes_runsOut item hend
    obtain ⟨hh, -⟩ := item
    rw [List.append_assoc] at hend
    exact itemRunsOut_of_header hh (by decide) hend hr.bind
  | element item =>
    have hr := hn _ _ r item hend
    obtain ⟨head, rest, rfl, hh⟩ := ho _ _ item
    exact itemRunsOut_of_header hh (by decide) hend hr.bind

theorem readItems_runsOut_of_header {r : Reader} (h : RunsOut r r.header) (fuel : Nat) (d : Draft) :
    RunsOut r (readItems nested fuel d r) := by
  cases fuel with
  | zero => exact ⟨r.position, Nat.le_add_right _ _, rfl⟩
  | succ fuel => exact h.bind.bind

/-- The loop over the items stops where the input does, in whichever item or in the closing header. -/
theorem readItems_runsOut (takes : Takes nested form) (ho : Opens form)
    (hn : ∀ o bs r, form o bs → r.EndsIn bs → RunsOut r (nested r)) {d d' : Draft} {bs closing : List UInt8}
    (h : Items form d bs d') (hclose : HeaderOf .operand .closing closing) (fuel : Nat) (r : Reader)
    (hend : r.EndsIn (bs ++ closing)) : RunsOut r (readItems nested fuel d r) := by
  induction h generalizing fuel r with
  | nil d => exact readItems_runsOut_of_header (Reader.header_runsOut hclose hend) fuel d
  | @cons d e f bs rest first others ih =>
    rw [List.append_assoc] at hend
    cases fuel with
    | zero => exact ⟨r.position, Nat.le_add_right _ _, rfl⟩
    | succ fuel =>
      rcases hend.of_append with hend | ⟨s, hc, hend⟩
      · rcases readItem_runsOut hn ho first r hend with hh | ⟨tag, f, s, hh, hne, hr⟩
        · exact readItems_runsOut_of_header hh _ d
        · rw [readItems_item fuel d r s tag f hh hne]
          exact hr.bind
      · obtain ⟨tag, f, t, hh, hne, hi⟩ := readItem_complete takes ho r s d e bs first hc
        rw [readItems_item fuel d r t tag f hh hne, hi]
        exact (ih fuel s hend).of_consumes hc

end Draft

theorem readWithin_runsOut (levels : Nat) {o : Operand} {bs : List UInt8} {r : Reader}
    (h : EncodesWithin levels o bs) (hend : r.EndsIn bs) : RunsOut r (Operand.readWithin levels r) := by
  induction levels generalizing o bs r with
  | zero =>
    have := o.depth_pos
    have := h.2
    omega
  | succ levels ih =>
    obtain ⟨⟨hopen, hk, hp, hclose⟩, hd⟩ := h
    obtain ⟨d, hitems, -⟩ := items_ofKind_complete hp hd
    rw [List.append_assoc, List.append_assoc] at hend
    rcases hend.of_append with hend | ⟨s, hc, hend⟩
    · exact (Reader.expect_runsOut hopen hend).bind
    · rw [← List.append_assoc] at hend
      rw [Operand.readWithin, Reader.expect_bind hopen hc]
      refine RunsOut.of_consumes hc (RunsOut.bind ?_)
      exact Draft.readItems_runsOut (readWithin_takes levels) (opens_encodesWithin levels)
        (fun o bs r => ih) (.cons (.kind hk) hitems) hclose _ s hend

theorem decode_of_endsIn {o : Operand} {bs cut : List UInt8} (h : EncodesWithin maxOperandDepth o bs)
    (hend : (Reader.ofBytes cut).EndsIn bs) :
    ∃ p, p ≤ cut.length ∧ Operand.decode cut = .error (.unexpectedEnd p) := by
  obtain ⟨p, hp, herror⟩ := (readWithin_runsOut maxOperandDepth h hend).bind
  exact ⟨p, by simpa [Reader.ofBytes, Reader.remaining] using hp, herror⟩

theorem decode_append {o : Operand} {bs more : List UInt8} (h : EncodesWithin maxOperandDepth o bs)
    (hne : more ≠ []) : Operand.decode (bs ++ more) = .error (.trailingBytes more.length bs.length) := by
  have hc : (Reader.ofBytes (bs ++ more)).Consumes bs ⟨bs.length, more⟩ := ⟨rfl, (Nat.zero_add _).symm⟩
  rw [Operand.decode, Operand.read, (readWithin_takes maxOperandDepth).bind h hc]
  simp [Reader.isEmpty, Reader.remaining, hne]

theorem eq_of_append_eq {o o' : Operand} {bs bs' rest rest' : List UInt8}
    (h : EncodesWithin maxOperandDepth o bs) (h' : EncodesWithin maxOperandDepth o' bs')
    (heq : bs ++ rest = bs' ++ rest') : bs = bs' := by
  have distinct {o o' : Operand} {bs more : List UInt8} (h : EncodesWithin maxOperandDepth o bs)
      (h' : EncodesWithin maxOperandDepth o' (bs ++ more)) : more = [] := by
    by_contra hne
    have hok := (decode_iff_encodesWithin _ _).2 h'
    rw [decode_append h hne] at hok
    cases hok
  rcases List.append_eq_append_iff.1 heq with ⟨more, rfl, -⟩ | ⟨more, rfl, -⟩
  · rw [distinct h h', List.append_nil]
  · rw [distinct h' h, List.append_nil]

theorem Encodes.length_pos {o : Operand} {bs : List UInt8} (h : Encodes o bs) : 0 < bs.length := by
  obtain ⟨head, rest, rfl, hh⟩ := h.opening
  rw [List.length_append]
  exact Nat.add_pos_left hh.digits.length_pos _

end Retrace.Wire
