import Retrace.Proofs.Wire.Reading

/-!
The loop over the items of an operand. What an item does to a draft is stated apart from the reader;
the loop runs through a sequence of such items and stops at the closing header.
-/

set_option autoImplicit false

namespace Retrace.Wire

namespace Draft

/-- The bytes are an item that leads from one draft to another, where the elements of a list have the
given form. -/
inductive Item (form : Operand → List UInt8 → Prop) : Draft → List UInt8 → Draft → Prop
  | kind {k : Kind} {bs : List UInt8} (item : NumberOf .kind k.code bs) : Item form blank bs (ofKind k)
  | index {name : Name} {bs : List UInt8} (item : NumberOf .index name.index bs) :
    Item form («variable» none) bs («variable» (some name))
  | flag {b : Bool} {bs : List UInt8} (item : HeaderOf (flagTag b) .empty bs) :
    Item form (flag none) bs (flag (some b))
  | text {content bs : List UInt8} (item : BytesOf .text content bs) :
    Item form (text none) bs (text (some content))
  | stamp {time : UInt64} {bs : List UInt8} (item : NumberOf .stamp time.toNat bs) :
    Item form (stamp none) bs (stamp (some time))
  | element {vs : List Value} {v : Value} {bs : List UInt8} (item : form (.value v) bs) :
    Item form (list vs) bs (list (vs ++ [v]))

inductive Items (form : Operand → List UInt8 → Prop) : Draft → List UInt8 → Draft → Prop
  | nil (d : Draft) : Items form d [] d
  | cons {d e f : Draft} {bs rest : List UInt8} (first : Item form d bs e) (others : Items form e rest f) :
    Items form d (bs ++ rest) f

def Opens (form : Operand → List UInt8 → Prop) : Prop :=
  ∀ (o : Operand) (bs : List UInt8), form o bs →
    ∃ head rest, bs = head ++ rest ∧ HeaderOf .operand .opening head

variable {form : Operand → List UInt8 → Prop}
  {nested : Reader → Except ParseError (Operand × Reader)}

theorem readItem_sound (hn : Takes nested form) (r r' : Reader) (tag : Tag) (d d' : Draft)
    (h : readItem nested r tag d = .ok (d', r')) :
    ∃ bs, Item form d bs d' ∧ r.Consumes bs r' := by
  -- the cases are the pairs of tag and draft that `readItem` tells apart
  unfold readItem at h
  split at h
  · obtain ⟨code, s, bs, hbs, hc, hs⟩ := (Reader.number_takes .kind).of_bind h
    cases hk : Kind.ofCode? code with
    | none => simp [hk] at hs
    | some k =>
      simp only [hk, Except.ok.injEq, Prod.mk.injEq] at hs
      obtain ⟨rfl, rfl⟩ := hs
      rw [← (Kind.ofCode?_eq_some_iff _ _).1 hk] at hbs
      exact ⟨bs, .kind hbs, hc⟩
  · cases h
  · obtain ⟨n, s, bs, hbs, hc, hs⟩ := (Reader.number_takes .index).of_bind h
    cases hname : Name.ofNat? n with
    | none => simp [hname] at hs
    | some name =>
      simp only [hname, Except.ok.injEq, Prod.mk.injEq] at hs
      obtain ⟨rfl, rfl⟩ := hs
      rw [← (Name.ofNat?_eq_some_iff _ _).1 hname] at hbs
      exact ⟨bs, .index hbs, hc⟩
  · cases h
  · obtain ⟨s, bs, hbs, hc, hs⟩ := Reader.of_expect_bind h
    cases hs
    exact ⟨bs, .flag hbs, hc⟩
  · obtain ⟨s, bs, hbs, hc, hs⟩ := Reader.of_expect_bind h
    cases hs
    exact ⟨bs, .flag hbs, hc⟩
  · cases h
  · cases h
  · obtain ⟨content, s, bs, hbs, hc, hs⟩ := (Reader.bytes_takes .text).of_bind h
    cases hs
    exact ⟨bs, .text hbs, hc⟩
  · cases h
  · obtain ⟨n, s, bs, hbs, hc, hs⟩ := (Reader.number_takes .stamp).of_bind h
    cases hs
    have hlt : n < 2 ^ 64 := by
      obtain ⟨_, hd⟩ := hbs
      exact hd.bounded
    have hn64 : n.toUInt64.toNat = n := by simpa using Nat.mod_eq_of_lt hlt
    exact ⟨bs, .stamp (hn64.symm ▸ hbs), hc⟩
  · cases h
  · obtain ⟨o, s, bs, hbs, hc, hs⟩ := hn.of_bind h
    cases o with
    | «variable» name => cases hs
    | value v =>
      cases hs
      exact ⟨bs, .element hbs, hc⟩
  · cases h

/-- At an item, the header is not the closing one, and its tag makes the reader read the item. -/
theorem readItem_complete (hn : Takes nested form) (ho : Opens form) (r r' : Reader) (d d' : Draft)
    (bs : List UInt8) (h : Item form d bs d') (hc : r.Consumes bs r') :
    ∃ (tag : Tag) (f : Form) (s : Reader), r.header = .ok ((tag, f), s) ∧
      (tag, f) ≠ (.operand, .closing) ∧ readItem nested r tag d = .ok (d', r') := by
  cases h with
  | @kind k _ item =>
    have hr : readItem nested r .kind blank = .ok (ofKind k, r') := by
      simp only [readItem]
      rw [(Reader.number_takes .kind).bind item hc]
      simp only [(Kind.ofCode?_eq_some_iff _ k).2 rfl]
    obtain ⟨s, hs⟩ := Reader.header_of_number item hc
    exact ⟨.kind, .number, s, hs, by decide, hr⟩
  | @index name _ item =>
    have hr : readItem nested r .index («variable» none) = .ok («variable» (some name), r') := by
      simp only [readItem]
      rw [(Reader.number_takes .index).bind item hc]
      simp only [(Name.ofNat?_eq_some_iff _ name).2 rfl]
    obtain ⟨s, hs⟩ := Reader.header_of_number item hc
    exact ⟨.index, .number, s, hs, by decide, hr⟩
  | @flag b _ item =>
    have hs := (Reader.header_takes r r' (flagTag b, .empty)).2 ⟨bs, item, hc⟩
    refine ⟨flagTag b, .empty, r', hs, by cases b <;> decide, ?_⟩
    cases b with
    | false =>
      have hno : HeaderOf .no .empty bs := item
      simp only [flagTag, readItem]
      rw [Reader.expect_bind hno hc]
    | true =>
      have hyes : HeaderOf .yes .empty bs := item
      simp only [flagTag, readItem]
      rw [Reader.expect_bind hyes hc]
  | @text content _ item =>
    have hr : readItem nested r .text (text none) = .ok (text (some content), r') := by
      simp only [readItem]
      rw [(Reader.bytes_takes .text).bind item hc]
    obtain ⟨s, hs⟩ := Reader.header_of_bytes item hc
    exact ⟨.text, .bytes, s, hs, by decide, hr⟩
  | @stamp time _ item =>
    have hr : readItem nested r .stamp (stamp none) = .ok (stamp (some time), r') := by
      simp only [readItem]
      rw [(Reader.number_takes .stamp).bind item hc]
      simp
    obtain ⟨s, hs⟩ := Reader.header_of_number item hc
    exact ⟨.stamp, .number, s, hs, by decide, hr⟩
  | @element vs v _ item =>
    have hr : readItem nested r .operand (list vs) = .ok (list (vs ++ [v]), r') := by
      simp only [readItem]
      rw [hn.bind item hc]
    obtain ⟨head, rest, rfl, hh⟩ := ho _ _ item
    obtain ⟨s, hs⟩ := Reader.header_of_append hh hc
    exact ⟨.operand, .opening, s, hs, by decide, hr⟩

theorem Item.length_pos (ho : Opens form) {d d' : Draft} {bs : List UInt8} (h : Item form d bs d') :
    0 < bs.length := by
  have hpos {tag : Tag} {f : Form} {head : List UInt8} (hh : HeaderOf tag f head) : 0 < head.length :=
    hh.digits.length_pos
  cases h with
  | kind item | index item | stamp item =>
    obtain ⟨hh, _⟩ := item
    rw [List.length_append]
    exact Nat.add_pos_left (hpos hh) _
  | text item =>
    obtain ⟨hh, _⟩ := item
    rw [List.length_append, List.length_append]
    exact Nat.add_pos_left (Nat.add_pos_left (hpos hh) _) _
  | flag item => exact hpos item
  | element item =>
    obtain ⟨head, rest, rfl, hh⟩ := ho _ _ item
    rw [List.length_append]
    exact Nat.add_pos_left (hpos hh) _

theorem readItems_closing (fuel : Nat) (d : Draft) (r r' : Reader) (bs : List UInt8)
    (h : HeaderOf .operand .closing bs) (hc : r.Consumes bs r') :
    readItems nested (fuel + 1) d r = .ok (d, r') := by
  have hh := (Reader.header_takes r r' (.operand, .closing)).2 ⟨bs, h, hc⟩
  simp only [readItems, Reader.tryClose]
  rw [hh]
  rfl

theorem readItems_item (fuel : Nat) (d : Draft) (r s : Reader) (tag : Tag) (f : Form)
    (h : r.header = .ok ((tag, f), s)) (hne : (tag, f) ≠ (.operand, .closing)) :
    readItems nested (fuel + 1) d r =
      (readItem nested r tag d >>= fun x => readItems nested fuel x.1 x.2) := by
  rw [readItems, Reader.tryClose, Reader.peek, h]
  change (if (tag, f) = (Tag.operand, Form.closing) then _ else _) >>= _ = _
  rw [if_neg hne]
  rfl

theorem readItems_sound (hn : Takes nested form) (fuel : Nat) (d d' : Draft) (r r' : Reader)
    (h : readItems nested fuel d r = .ok (d', r')) :
    ∃ bs closing, Items form d bs d' ∧ HeaderOf .operand .closing closing ∧
      r.Consumes (bs ++ closing) r' := by
  induction fuel generalizing d r with
  | zero => cases h
  | succ fuel ih =>
    cases hh : r.header with
    | error e =>
      rw [readItems, Reader.tryClose, hh] at h
      cases h
    | ok found =>
      obtain ⟨⟨tag, f⟩, s⟩ := found
      obtain ⟨bs, hbs, hc⟩ := (Reader.header_takes r s (tag, f)).1 hh
      by_cases he : (tag, f) = (.operand, .closing)
      · cases he
        rw [readItems_closing fuel d r s bs hbs hc] at h
        cases h
        exact ⟨[], bs, .nil _, hbs, hc⟩
      · rw [readItems_item fuel d r s tag f hh he, bind_eq_ok_iff] at h
        obtain ⟨⟨e, t⟩, hi, h⟩ := h
        obtain ⟨item, hitem, hc⟩ := readItem_sound hn r t tag d e hi
        obtain ⟨rest, closing, hrest, hclosing, hc'⟩ := ih e t h
        refine ⟨item ++ rest, closing, .cons hitem hrest, hclosing, ?_⟩
        rw [List.append_assoc]
        exact hc.append hc'

/-- A sequence of items is read one after the other. What is left of the bound on their number still
suffices for the bytes that follow. -/
theorem readItems_items (hn : Takes nested form) (ho : Opens form) {d d' : Draft} {bs : List UInt8}
    (h : Items form d bs d') (fuel : Nat) (r r' : Reader) (hc : r.Consumes bs r')
    (hf : r.remaining ≤ fuel) :
    ∃ fuel', r'.remaining ≤ fuel' ∧ readItems nested fuel d r = readItems nested fuel' d' r' := by
  induction h generalizing fuel r with
  | nil d =>
    rw [← (Reader.Consumes.refl r).unique hc]
    exact ⟨fuel, hf, rfl⟩
  | @cons d e f bs rest first others ih =>
    obtain ⟨s, hc, hc'⟩ := hc.split
    obtain ⟨tag, form', t, hh, hne, hi⟩ := readItem_complete hn ho r s d e bs first hc
    have hpos := first.length_pos ho
    have hrem := hc.remaining
    cases fuel with
    | zero => omega
    | succ fuel =>
      obtain ⟨fuel', hf', he⟩ := ih fuel s hc' (by omega)
      refine ⟨fuel', hf', ?_⟩
      rw [readItems_item fuel d r t tag form' hh hne, hi]
      exact he

end Draft
end Retrace.Wire
