import Retrace.Wire.Decode
import Retrace.Proofs.Wire.Grammar

/-!
What the readers of single items take: exactly the forms of the grammar, and nothing of what follows
them.
-/

set_option autoImplicit false

namespace Retrace.Wire

theorem bind_eq_ok_iff {ε α β : Type} (x : Except ε α) (f : α → Except ε β) (b : β) :
    (x >>= f) = .ok b ↔ ∃ a, x = .ok a ∧ f a = .ok b := by
  cases x with
  | error e =>
    constructor
    · intro h
      cases h
    · rintro ⟨a, h, _⟩
      cases h
  | ok a =>
    constructor
    · intro h
      exact ⟨a, rfl, h⟩
    · rintro ⟨a', ha, h⟩
      cases ha
      exact h

def Takes {α : Type} (read : Reader → Except ParseError (α × Reader)) (form : α → List UInt8 → Prop) :
    Prop :=
  ∀ (r r' : Reader) (a : α), read r = .ok (a, r') ↔ ∃ bs, form a bs ∧ r.Consumes bs r'

namespace Takes

variable {α β : Type} {read : Reader → Except ParseError (α × Reader)} {form : α → List UInt8 → Prop}
  {next : α × Reader → Except ParseError β}

theorem of_bind (h : Takes read form) {r : Reader} {b : β} (hb : (read r >>= next) = .ok b) :
    ∃ a s bs, form a bs ∧ r.Consumes bs s ∧ next (a, s) = .ok b := by
  obtain ⟨⟨a, s⟩, hr, hb⟩ := (bind_eq_ok_iff _ _ _).1 hb
  obtain ⟨bs, hbs, hc⟩ := (h r s a).1 hr
  exact ⟨a, s, bs, hbs, hc, hb⟩

theorem bind (h : Takes read form) {r s : Reader} {a : α} {bs : List UInt8} (hbs : form a bs)
    (hc : r.Consumes bs s) : (read r >>= next) = next (a, s) := by
  rw [(h r s a).2 ⟨bs, hbs, hc⟩]
  rfl

end Takes

theorem find?_code_iff {α : Type} {all : List α} {code : α → Nat}
    (h : ∀ a, all.find? (code · == code a) = some a) (n : Nat) (a : α) :
    all.find? (code · == n) = some a ↔ code a = n := by
  constructor
  · intro hfound
    simpa using List.find?_some hfound
  · rintro rfl
    exact h a

theorem Tag.ofCode?_eq_some_iff (code : Nat) (tag : Tag) : Tag.ofCode? code = some tag ↔ tag.code = code :=
  find?_code_iff (fun tag => by cases tag <;> rfl) code tag

theorem Form.ofCode?_eq_some_iff (code : Nat) (form : Form) :
    Form.ofCode? code = some form ↔ form.code = code :=
  find?_code_iff (fun form => by cases form <;> rfl) code form

theorem Kind.ofCode?_eq_some_iff (code : Nat) (kind : Kind) :
    Kind.ofCode? code = some kind ↔ kind.code = code :=
  find?_code_iff (fun kind => by cases kind <;> rfl) code kind

theorem Name.ofNat?_eq_some_iff (n : Nat) (name : Name) : Name.ofNat? n = some name ↔ name.index = n := by
  constructor
  · intro h
    rw [Name.ofNat?] at h
    split at h
    · cases h
      rfl
    · cases h
  · rintro rfl
    rw [Name.ofNat?, dif_pos ⟨name.positive, name.bounded⟩]

theorem headerCode_div (tag : Tag) (form : Form) : headerCode tag form / 8 = tag.code := by
  cases form <;> simp only [headerCode, Form.code] <;> omega

theorem headerCode_mod (tag : Tag) (form : Form) : headerCode tag form % 8 = form.code := by
  cases form <;> simp only [headerCode, Form.code] <;> omega

namespace Reader

theorem varint_takes : Takes varint VarintOf := fun r r' n => varint_eq_ok_iff r r' n

theorem header_takes : Takes header fun h => HeaderOf h.1 h.2 := by
  rintro r r' ⟨tag, form⟩
  constructor
  · intro h
    obtain ⟨code, s, bs, hbs, hc, h⟩ := varint_takes.of_bind h
    cases ht : Tag.ofCode? (code / 8) with
    | none => simp [ht] at h
    | some t =>
      cases hf : Form.ofCode? (code % 8) with
      | none => simp [ht, hf] at h
      | some f =>
        simp only [ht, hf, Except.ok.injEq, Prod.mk.injEq] at h
        obtain ⟨⟨rfl, rfl⟩, rfl⟩ := h
        have hcode : headerCode t f = code := by
          have h8 := (Tag.ofCode?_eq_some_iff _ _).1 ht
          have hm := (Form.ofCode?_eq_some_iff _ _).1 hf
          rw [headerCode]
          omega
        refine ⟨bs, ?_, hc⟩
        change VarintOf (headerCode t f) bs
        rwa [hcode]
  · rintro ⟨bs, hbs, hc⟩
    have ht := (Tag.ofCode?_eq_some_iff _ tag).2 (headerCode_div tag form).symm
    have hf := (Form.ofCode?_eq_some_iff _ form).2 (headerCode_mod tag form).symm
    rw [header, varint_takes.bind hbs hc]
    simp only [ht, hf]

theorem header_of_append {tag : Tag} {form : Form} {head rest : List UInt8} {r r' : Reader}
    (h : HeaderOf tag form head) (hc : r.Consumes (head ++ rest) r') :
    ∃ s, r.header = .ok ((tag, form), s) := by
  obtain ⟨s, hc, _⟩ := hc.split
  exact ⟨s, (header_takes r s (tag, form)).2 ⟨head, h, hc⟩⟩

theorem header_of_number {tag : Tag} {n : Nat} {bs : List UInt8} {r r' : Reader} (h : NumberOf tag n bs)
    (hc : r.Consumes bs r') : ∃ s, r.header = .ok ((tag, .number), s) := by
  obtain ⟨hh, _⟩ := h
  exact header_of_append hh hc

theorem header_of_bytes {tag : Tag} {content bs : List UInt8} {r r' : Reader} (h : BytesOf tag content bs)
    (hc : r.Consumes bs r') : ∃ s, r.header = .ok ((tag, .bytes), s) := by
  obtain ⟨hh, _⟩ := h
  rw [List.append_assoc] at hc
  exact header_of_append hh hc

theorem expect_eq_ok_iff (tag : Tag) (form : Form) (r r' : Reader) :
    r.expect tag form = .ok r' ↔ ∃ bs, HeaderOf tag form bs ∧ r.Consumes bs r' := by
  constructor
  · intro h
    obtain ⟨⟨t, f⟩, s, bs, hbs, hc, hs⟩ := header_takes.of_bind h
    by_cases he : t = tag ∧ f = form
    · simp only [he, and_self, ↓reduceIte, Except.ok.injEq] at hs
      obtain ⟨rfl, rfl⟩ := he
      exact ⟨bs, hbs, hs ▸ hc⟩
    · simp [he] at hs
  · rintro ⟨bs, hbs, hc⟩
    have hh : (fun h : Tag × Form => HeaderOf h.1 h.2) (tag, form) bs := hbs
    rw [expect, header_takes.bind hh hc]
    simp

theorem of_expect_bind {β : Type} {tag : Tag} {form : Form} {r : Reader}
    {next : Reader → Except ParseError β} {b : β} (h : (r.expect tag form >>= next) = .ok b) :
    ∃ s bs, HeaderOf tag form bs ∧ r.Consumes bs s ∧ next s = .ok b := by
  obtain ⟨s, hr, hb⟩ := (bind_eq_ok_iff _ _ _).1 h
  obtain ⟨bs, hbs, hc⟩ := (expect_eq_ok_iff tag form r s).1 hr
  exact ⟨s, bs, hbs, hc, hb⟩

theorem expect_bind {β : Type} {tag : Tag} {form : Form} {r s : Reader} {bs : List UInt8}
    {next : Reader → Except ParseError β} (h : HeaderOf tag form bs) (hc : r.Consumes bs s) :
    (r.expect tag form >>= next) = next s := by
  rw [(expect_eq_ok_iff tag form r s).2 ⟨bs, h, hc⟩]
  rfl

theorem number_takes (tag : Tag) : Takes (fun r => r.number tag) (NumberOf tag) := by
  intro r r' n
  constructor
  · intro h
    obtain ⟨s, head, hh, hc, h⟩ := of_expect_bind h
    obtain ⟨digits, hd, hc'⟩ := (varint_takes s r' n).1 h
    exact ⟨_, .intro hh hd, hc.append hc'⟩
  · rintro ⟨_, ⟨hh, hd⟩, hc⟩
    obtain ⟨s, hc, hc'⟩ := hc.split
    simp only [number]
    rw [expect_bind hh hc]
    exact (varint_takes s r' n).2 ⟨_, hd, hc'⟩

theorem bytes_takes (tag : Tag) : Takes (fun r => r.bytes tag) (BytesOf tag) := by
  intro r r' content
  constructor
  · intro h
    obtain ⟨s, head, hh, hc, hs⟩ := of_expect_bind h
    obtain ⟨length, t, digits, hd, hc', ht⟩ := varint_takes.of_bind hs
    simp only at ht
    split at ht
    · cases ht
    · rename_i enough
      simp only [Except.ok.injEq, Prod.mk.injEq] at ht
      obtain ⟨rfl, rfl⟩ := ht
      have hle : length ≤ t.rest.length := Nat.le_of_not_lt enough
      have hlen : (t.rest.take length).length = length := List.length_take_of_le hle
      refine ⟨_, .intro hh (hlen.symm ▸ hd), (hc.append hc').append ⟨?_, ?_⟩⟩
      · simp
      · simp only [hlen]
  · rintro ⟨_, ⟨hh, hd⟩, hc⟩
    obtain ⟨t, hc, hc''⟩ := hc.split
    obtain ⟨s, hc, hc'⟩ := hc.split
    simp only [bytes]
    rw [expect_bind hh hc, varint_takes.bind hd hc']
    have enough : ¬ t.remaining < content.length := by
      rw [hc''.remaining]
      omega
    obtain ⟨q, rest⟩ := r'
    have hp : q = t.position + content.length := hc''.position
    simp [enough, hc''.rest, hp]

end Reader
end Retrace.Wire
