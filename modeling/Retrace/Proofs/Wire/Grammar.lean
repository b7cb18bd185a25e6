import Retrace.Wire.Encode
import Retrace.Proofs.Wire.Varint

/-!
The grammar of encoded operands. An operand is enclosed between an opening and a closing header; its kind
comes first, then the payload that belongs to the kind. Numbers may be written longer than needed, so
one operand has many forms, of which the encoder writes the shortest.
-/

set_option autoImplicit false

namespace Retrace.Wire

def HeaderOf (tag : Tag) (form : Form) (bs : List UInt8) : Prop := VarintOf (headerCode tag form) bs

inductive NumberOf (tag : Tag) (n : Nat) : List UInt8 → Prop
  | intro {head digits : List UInt8} (header : HeaderOf tag .number head) (number : VarintOf n digits) :
    NumberOf tag n (head ++ digits)

inductive BytesOf (tag : Tag) (content : List UInt8) : List UInt8 → Prop
  | intro {head digits : List UInt8} (header : HeaderOf tag .bytes head)
    (length : VarintOf content.length digits) : BytesOf tag content (head ++ digits ++ content)

def flagTag : Bool → Tag
  | true => .yes
  | false => .no

mutual
inductive Encodes : Operand → List UInt8 → Prop
  | intro {o : Operand} {opening kind payload closing : List UInt8}
    (opens : HeaderOf .operand .opening opening) (isKind : NumberOf .kind o.kind.code kind)
    (carries : Payload o payload) (closes : HeaderOf .operand .closing closing) :
    Encodes o (opening ++ kind ++ payload ++ closing)
/-- The bytes are a form of what an operand holds: a single item, or for a list the forms of its
elements. -/
inductive Payload : Operand → List UInt8 → Prop
  | variable {name : Name} {bs : List UInt8} (item : NumberOf .index name.index bs) :
    Payload (.variable name) bs
  | flag {b : Bool} {bs : List UInt8} (item : HeaderOf (flagTag b) .empty bs) :
    Payload (.value (.flag b)) bs
  | text {content bs : List UInt8} (item : BytesOf .text content bs) :
    Payload (.value (.text content)) bs
  | stamp {time : UInt64} {bs : List UInt8} (item : NumberOf .stamp time.toNat bs) :
    Payload (.value (.stamp time)) bs
  | nil : Payload (.value (.list [])) []
  | cons {v : Value} {vs : List Value} {bs rest : List UInt8} (first : Encodes (.value v) bs)
    (others : Payload (.value (.list vs)) rest) : Payload (.value (.list (v :: vs))) (bs ++ rest)
end

def EqOrLonger (bs written : List UInt8) : Prop := bs = written ∨ written.length < bs.length

theorem EqOrLonger.append {as bs as' bs' : List UInt8} (h : EqOrLonger as as')
    (h' : EqOrLonger bs bs') : EqOrLonger (as ++ bs) (as' ++ bs') := by
  rcases h with rfl | h
  · rcases h' with rfl | h'
    · exact .inl rfl
    · right
      simp only [List.length_append]
      omega
  · right
    have hb : bs'.length ≤ bs.length := by
      rcases h' with rfl | h'
      · exact Nat.le_refl _
      · exact Nat.le_of_lt h'
    simp only [List.length_append]
    omega

theorem HeaderOf.eqOrLonger {tag : Tag} {form : Form} {bs : List UInt8} (h : HeaderOf tag form bs) :
    EqOrLonger bs (header tag form) := h.digits.eq_or_longer

theorem NumberOf.eqOrLonger {tag : Tag} {n : Nat} {bs : List UInt8} (h : NumberOf tag n bs) :
    EqOrLonger bs (numberItem tag n) := by
  obtain ⟨hh, hn⟩ := h
  exact hh.eqOrLonger.append hn.digits.eq_or_longer

theorem BytesOf.eqOrLonger {tag : Tag} {content bs : List UInt8} (h : BytesOf tag content bs) :
    EqOrLonger bs (bytesItem tag content) := by
  obtain ⟨hh, hn⟩ := h
  exact (hh.eqOrLonger.append hn.digits.eq_or_longer).append (.inl rfl)

def Operand.payload : Operand → List UInt8
  | .variable name => numberItem .index name.index
  | .value (.list vs) => Value.encodeAll vs
  | .value (.text bs) => bytesItem .text bs
  | .value (.stamp t) => numberItem .stamp t.toNat
  | .value (.flag b) => header (flagTag b) .empty

theorem Operand.encode_eq (o : Operand) : o.encode = enclose o.kind o.payload := by
  cases o with
  | «variable» name => rfl
  | value v =>
    cases v with
    | flag b => cases b <;> rfl
    | list vs => rfl
    | text bs => rfl
    | stamp t => rfl

mutual
theorem Encodes.eqOrLonger {o : Operand} {bs : List UInt8} : Encodes o bs → EqOrLonger bs o.encode
  | .intro opens isKind carries closes => by
    rw [Operand.encode_eq, enclose]
    exact ((opens.eqOrLonger.append isKind.eqOrLonger).append carries.eqOrLonger).append
      closes.eqOrLonger
theorem Payload.eqOrLonger {o : Operand} {bs : List UInt8} : Payload o bs → EqOrLonger bs o.payload
  | .variable item => item.eqOrLonger
  | .flag item => item.eqOrLonger
  | .text item => item.eqOrLonger
  | .stamp item => item.eqOrLonger
  | .nil => .inl rfl
  | .cons first others => first.eqOrLonger.append others.eqOrLonger
end

namespace Value

mutual
def texts : Value → List (List UInt8)
  | list vs => textsAll vs
  | text bs => [bs]
  | stamp _ | flag _ => []
def textsAll : List Value → List (List UInt8)
  | [] => []
  | v :: vs => v.texts ++ textsAll vs
end

end Value

def Operand.texts : Operand → List (List UInt8)
  | .variable _ => []
  | .value v => v.texts

theorem headerOf_header (tag : Tag) (form : Form) : HeaderOf tag form (header tag form) := by
  apply varintOf_varint
  cases tag <;> cases form <;> decide

theorem numberOf_numberItem (tag : Tag) (n : Nat) (h : n < 2 ^ 64) :
    NumberOf tag n (numberItem tag n) :=
  .intro (headerOf_header tag .number) (varintOf_varint n h)

theorem bytesOf_bytesItem (tag : Tag) (content : List UInt8) (h : content.length < 2 ^ 64) :
    BytesOf tag content (bytesItem tag content) :=
  .intro (headerOf_header tag .bytes) (varintOf_varint content.length h)

theorem encodes_enclose (o : Operand) (bs : List UInt8) (h : Payload o bs) :
    Encodes o (enclose o.kind bs) := by
  have hk : o.kind.code < 2 ^ 64 := by
    generalize o.kind = k
    cases k <;> decide
  exact .intro (headerOf_header _ _) (numberOf_numberItem .kind _ hk) h (headerOf_header _ _)

mutual
theorem Value.payload_payload (v : Value) (h : ∀ bs ∈ v.texts, bs.length < 2 ^ 64) :
    Payload (.value v) (Operand.value v).payload :=
  match v with
  | .list vs => Value.payload_encodeAll vs h
  | .text bs => .text (bytesOf_bytesItem .text bs (h bs (by simp [Value.texts])))
  | .stamp t => .stamp (numberOf_numberItem .stamp t.toNat t.toNat_lt)
  | .flag b => .flag (headerOf_header (flagTag b) .empty)
theorem Value.payload_encodeAll (vs : List Value) (h : ∀ bs ∈ textsAll vs, bs.length < 2 ^ 64) :
    Payload (.value (.list vs)) (encodeAll vs) :=
  match vs with
  | [] => .nil
  | v :: vs => by
    have hv := Value.payload_payload v fun bs hbs => h bs (by simp [textsAll, hbs])
    have hvs := Value.payload_encodeAll vs fun bs hbs => h bs (by simp [textsAll, hbs])
    have he := encodes_enclose _ _ hv
    rw [← Operand.encode_eq] at he
    exact .cons he hvs
end

/-- What the encoder writes is in the grammar, if no text is too long to give its length. -/
theorem encodes_encode (o : Operand) (h : ∀ bs ∈ o.texts, bs.length < 2 ^ 64) :
    Encodes o o.encode := by
  rw [Operand.encode_eq]
  apply encodes_enclose
  cases o with
  | «variable» name =>
    have hname : name.index < 2 ^ 64 := Nat.lt_trans name.bounded (by decide)
    exact .variable (numberOf_numberItem .index name.index hname)
  | value v => exact Value.payload_payload v h

mutual
/-- Lengths are numbers of 64 bits, so every text that is written down is short enough. -/
theorem Encodes.length_texts {o : Operand} {bs : List UInt8} :
    Encodes o bs → ∀ t ∈ o.texts, t.length < 2 ^ 64
  | .intro _ _ carries _ => carries.length_texts
theorem Payload.length_texts {o : Operand} {bs : List UInt8} :
    Payload o bs → ∀ t ∈ o.texts, t.length < 2 ^ 64
  | .variable _ => by simp [Operand.texts]
  | .flag _ => by simp [Operand.texts, Value.texts]
  | .text (.intro _ length) => by simpa [Operand.texts, Value.texts] using length.bounded
  | .stamp _ => by simp [Operand.texts, Value.texts]
  | .nil => by simp [Operand.texts, Value.texts, Value.textsAll]
  | .cons first others => by
    intro t ht
    simp only [Operand.texts, Value.texts, Value.textsAll, List.mem_append] at ht
    rcases ht with ht | ht
    · exact first.length_texts t ht
    · exact others.length_texts t (by simpa only [Operand.texts, Value.texts] using ht)
end

end Retrace.Wire
