import Retrace.Proofs.Wire.Files

/-!
The reader of operands with a record of what it does to its input: every byte that it looks at, every digit that
it shifts, every piece that it cuts out and every operand that it enters. The loops count their rounds and
note it if they run out of them. Apart from the record, this reader gives what the reader gives.
-/

set_option autoImplicit false

namespace Retrace.Wire.Traced

inductive Act where
  | byte
  /-- The digit in a byte is shifted past the digits of the `count` bytes before it. -/
  | shift (digit count : Nat)
  | measure
  | slice (length : Nat)
  /-- An operand is entered that stands in `depth` others. -/
  | enter (depth : Nat)
  /-- A loop has no rounds left. -/
  | spent

structure Event where
  act : Act
  reader : Reader
  /-- It happens to a copy of the reader, which is then dropped. -/
  ahead : Bool

structure Run (α : Type) where
  events : List Event
  result : Except ParseError (α × Reader)

def Recorded (α : Type) : Type := Reader → Run α

namespace Recorded

variable {α β : Type}

protected def pure (a : α) : Recorded α := fun r => ⟨[], .ok (a, r)⟩

protected def bind (x : Recorded α) (f : α → Recorded β) : Recorded β := fun r =>
  match (x r).result with
  | .error e => ⟨(x r).events, .error e⟩
  | .ok (a, s) => ⟨(x r).events ++ (f a s).events, (f a s).result⟩

instance : Monad Recorded where
  pure := Recorded.pure
  bind := Recorded.bind

def fail (e : ParseError) : Recorded α := fun _ => ⟨[], .error e⟩

def here : Recorded Reader := fun r => ⟨[], .ok (r, r)⟩

def note (act : Act) : Recorded Unit := fun r => ⟨[⟨act, r, false⟩], .ok ((), r)⟩

def peek (x : Recorded α) : Recorded α := fun r =>
  ⟨(x r).events.map fun e => { e with ahead := true }, (x r).result.map fun found => (found.1, r)⟩

def takeByte : Recorded UInt8 := fun r =>
  match r.rest with
  | [] => ⟨[], .error (.unexpectedEnd r.position)⟩
  | b :: rest => ⟨[⟨.byte, r, false⟩], .ok (b, ⟨r.position + 1, rest⟩)⟩

def takeSlice (announced length : Nat) : Recorded (List UInt8) := fun r =>
  if r.remaining < length then ⟨[⟨.measure, r, false⟩], .error (.unexpectedEnd announced)⟩
  else ⟨[⟨.measure, r, false⟩, ⟨.slice length, r, false⟩],
    .ok (r.rest.take length, ⟨r.position + length, r.rest.drop length⟩)⟩

end Recorded

open Recorded

def digits (start : Nat) : (room count value : Nat) → Recorded Nat
  | 0, _, _ => fail (.malformedVarint start)
  | room + 1, count, value => do
    let b ← takeByte
    if room = 0 ∧ 1 < b.toNat % 128 then fail (.malformedVarint start)
    else
      note (.shift (b.toNat % 128) count)
      let value := value + b.toNat % 128 * 2 ^ (7 * count)
      if b.toNat < 128 then pure value else digits start room (count + 1) value

def varint : Recorded Nat := do
  let r ← here
  digits r.position Reader.maxVarintBytes 0 0

def header : Recorded (Tag × Form) := do
  let r ← here
  let code ← varint
  match Tag.ofCode? (code / 8), Form.ofCode? (code % 8) with
  | none, _ => fail (.unknownTag (code / 8) r.position)
  | some _, none => fail (.unknownForm (code % 8) r.position)
  | some tag, some form => pure (tag, form)

def expect (tag : Tag) (form : Form) : Recorded Unit := do
  let r ← here
  let (foundTag, foundForm) ← header
  if foundTag = tag ∧ foundForm = form then pure ()
  else fail (.unexpectedItem tag form foundTag foundForm r.position)

def tryClose (tag : Tag) : Recorded Bool := do
  if (← peek header) = (tag, .closing) then
    let _ ← header
    pure true
  else pure false

def number (tag : Tag) : Recorded Nat := do
  expect tag .number
  varint

def bytes (tag : Tag) : Recorded (List UInt8) := do
  expect tag .bytes
  let r ← here
  let length ← varint
  takeSlice r.position length

def item (nested : Recorded Operand) (tag : Tag) (d : Draft) : Recorded Draft := do
  let r ← here
  match tag, d with
  | .kind, .blank => do
    let code ← number .kind
    match Kind.ofCode? code with
    | some k => pure (.ofKind k)
    | none => fail (.unknownKind code r.position)
  | .kind, _ => fail (.duplicateTag .kind r.position)
  | .index, .variable none => do
    let n ← number .index
    match Name.ofNat? n with
    | some name => pure (.variable (some name))
    | none => fail (.outOfRange n r.position)
  | .index, .variable (some _) => fail (.duplicateTag .index r.position)
  | .yes, .flag none => do
    expect .yes .empty
    pure (.flag (some true))
  | .no, .flag none => do
    expect .no .empty
    pure (.flag (some false))
  | .yes, .flag (some _) => fail (.duplicateTag .yes r.position)
  | .no, .flag (some _) => fail (.duplicateTag .no r.position)
  | .text, .text none => do
    let bs ← bytes .text
    pure (.text (some bs))
  | .text, .text (some _) => fail (.duplicateTag .text r.position)
  | .stamp, .stamp none => do
    let n ← number .stamp
    pure (.stamp (some n.toUInt64))
  | .stamp, .stamp (some _) => fail (.duplicateTag .stamp r.position)
  | .operand, .list vs => do
    match ← nested with
    | .value v => pure (.list (vs ++ [v]))
    | .variable _ => fail (.variableInList r.position)
  | _, _ => fail (.misplacedTag tag d.kind? r.position)

def items (nested : Recorded Operand) : (rounds : Nat) → Draft → Recorded Draft
  | 0, _ => do
    note .spent
    let r ← here
    fail (.unexpectedEnd r.position)
  | rounds + 1, d => do
    if ← tryClose .operand then pure d
    else
      let (tag, _) ← peek header
      let d ← item nested tag d
      items nested rounds d

def operandWithin : (levels depth : Nat) → Recorded Operand
  | 0, depth => do
    note (.enter depth)
    let r ← here
    fail (.tooDeep maxOperandDepth r.position)
  | levels + 1, depth => do
    note (.enter depth)
    expect .operand .opening
    let r ← here
    let d ← items (operandWithin levels (depth + 1)) (r.remaining + 1) .blank
    let r ← here
    match d.finish r.position with
    | .ok o => pure o
    | .error e => fail e

def operand : Recorded Operand := operandWithin maxOperandDepth 0

def single : Recorded Operand := do
  let o ← operand
  note .measure
  let r ← here
  if r.isEmpty then pure o else fail (.trailingBytes r.remaining r.position)

def several : (rounds : Nat) → Recorded (List Operand)
  | 0 => do
    note .spent
    pure []
  | rounds + 1 => do
    note .measure
    let r ← here
    if r.isEmpty then pure []
    else
      let o ← operand
      let os ← several rounds
      pure (o :: os)

section Results

variable {α β : Type}

theorem result_bind (x : Recorded α) (f : α → Recorded β) (r : Reader) :
    ((x >>= f) r).result = ((x r).result >>= fun found => (f found.1 found.2).result) := by
  change (Recorded.bind x f r).result = _
  unfold Recorded.bind
  cases (x r).result <;> rfl

theorem result_here_bind (f : Reader → Recorded β) (r : Reader) : ((here >>= f) r).result = (f r r).result := rfl

theorem result_note_bind (act : Act) (f : Unit → Recorded β) (r : Reader) :
    ((note act >>= f) r).result = (f () r).result := rfl

theorem result_takeByte_bind (f : UInt8 → Recorded β) (p : Nat) (b : UInt8) (rest : List UInt8) :
    ((takeByte >>= f) ⟨p, b :: rest⟩).result = (f b ⟨p + 1, rest⟩).result := rfl

theorem result_digits (start room count value : Nat) (r : Reader) :
    (digits start room count value r).result =
      (Reader.varintFrom start room r).map fun found => (value + found.1 * 2 ^ (7 * count), found.2) := by
  induction room generalizing count value r with
  | zero => rfl
  | succ room ih =>
    obtain ⟨p, _ | ⟨b, rest⟩⟩ := r
    · rfl
    · rw [digits, result_takeByte_bind, Reader.varintFrom]
      by_cases hlast : room = 0 ∧ 1 < b.toNat % 128
      · rw [if_pos hlast, if_pos hlast]
        rfl
      · rw [if_neg hlast, if_neg hlast, result_note_bind]
        by_cases hsmall : b.toNat < 128
        · rw [if_pos hsmall, if_pos hsmall, Nat.mod_eq_of_lt hsmall]
          rfl
        · rw [if_neg hsmall, if_neg hsmall, ih]
          cases Reader.varintFrom start room ⟨p + 1, rest⟩ with
          | error e => rfl
          | ok found =>
            have hshift : found.1 * 2 ^ (7 * (count + 1)) = 128 * found.1 * 2 ^ (7 * count) := by ring
            simp only [Except.map, hshift]
            congr 2
            ring

theorem result_varint (r : Reader) : (varint r).result = r.varint := by
  rw [varint, result_here_bind, result_digits, Reader.varint]
  cases Reader.varintFrom r.position Reader.maxVarintBytes r with
  | error e => rfl
  | ok found => simp [Except.map]

theorem result_header (r : Reader) : (header r).result = r.header := by
  rw [header, result_here_bind, result_bind, result_varint, Reader.header]
  congr 1
  funext found
  obtain ⟨code, s⟩ := found
  dsimp only
  cases Tag.ofCode? (code / 8) with
  | none => rfl
  | some tag => cases Form.ofCode? (code % 8) <;> rfl

theorem result_expect (tag : Tag) (form : Form) (r : Reader) :
    (expect tag form r).result = (r.expect tag form).map fun s => ((), s) := by
  rw [expect, result_here_bind, result_bind, result_header, Reader.expect]
  cases r.header with
  | error e => rfl
  | ok found =>
    obtain ⟨⟨foundTag, foundForm⟩, s⟩ := found
    change ((if foundTag = tag ∧ foundForm = form then pure () else fail _ : Recorded Unit) s).result =
      Except.map _ (if foundTag = tag ∧ foundForm = form then .ok s else .error _)
    split <;> rfl

theorem result_expect_bind (tag : Tag) (form : Form) (f : Unit → Recorded β) (r : Reader) :
    ((expect tag form >>= f) r).result = (r.expect tag form >>= fun s => (f () s).result) := by
  rw [result_bind, result_expect]
  cases r.expect tag form <;> rfl

theorem result_number (tag : Tag) (r : Reader) : (number tag r).result = r.number tag := by
  rw [number, result_expect_bind, Reader.number]
  congr 1
  funext s
  exact result_varint s

theorem result_bytes (tag : Tag) (r : Reader) : (bytes tag r).result = r.bytes tag := by
  rw [bytes, result_expect_bind, Reader.bytes]
  congr 1
  funext s
  rw [result_here_bind, result_bind, result_varint]
  congr 1
  funext found
  obtain ⟨length, t⟩ := found
  by_cases hshort : t.remaining < length
  · simp only [takeSlice, if_pos hshort]
  · simp only [takeSlice, if_neg hshort]

theorem result_peek_header_bind (f : Tag × Form → Recorded β) (r : Reader) :
    ((peek header >>= f) r).result = (r.header >>= fun found => (f found.1 r).result) := by
  have hpeek : (peek header r).result = r.header.map fun found => (found.1, r) := by
    rw [← result_header]
    rfl
  rw [result_bind, hpeek]
  cases r.header <;> rfl

theorem result_tryClose_bind (tag : Tag) (f : Bool → Recorded β) (r : Reader) :
    ((tryClose tag >>= f) r).result = (r.tryClose tag >>= fun found => (f found.1 found.2).result) := by
  have hclose : (tryClose tag r).result = r.tryClose tag := by
    rw [tryClose, result_peek_header_bind, Reader.tryClose]
    cases hheader : r.header with
    | error e => rfl
    | ok found =>
      obtain ⟨found, s⟩ := found
      change ((if found = (tag, .closing) then _ else _ : Recorded Bool) r).result =
        if found = (tag, .closing) then _ else _
      by_cases heq : found = (tag, .closing)
      · rw [if_pos heq, if_pos heq, result_bind, result_header, hheader]
        rfl
      · rw [if_neg heq, if_neg heq]
        rfl
  rw [result_bind, hclose]

theorem result_item (nested : Recorded Operand) (tag : Tag) (d : Draft) (r : Reader) :
    (item nested tag d r).result = Draft.readItem (fun s => (nested s).result) r tag d := by
  rw [item, result_here_bind]
  cases tag with
  | kind =>
    cases d with
    | blank =>
      change ((number .kind >>= _) r).result = (r.number .kind >>= _)
      rw [result_bind, result_number]
      congr 1
      funext found
      dsimp only
      cases Kind.ofCode? found.1 <;> rfl
    | _ => rfl
  | index =>
    cases d with
    | «variable» name =>
      cases name with
      | none =>
        change ((number .index >>= _) r).result = (r.number .index >>= _)
        rw [result_bind, result_number]
        congr 1
        funext found
        dsimp only
        cases Name.ofNat? found.1 <;> rfl
      | some name => rfl
    | _ => rfl
  | yes =>
    cases d with
    | flag value =>
      cases value with
      | none => exact result_expect_bind .yes .empty _ r
      | some value => rfl
    | _ => rfl
  | no =>
    cases d with
    | flag value =>
      cases value with
      | none => exact result_expect_bind .no .empty _ r
      | some value => rfl
    | _ => rfl
  | text =>
    cases d with
    | text content =>
      cases content with
      | none =>
        change ((bytes .text >>= _) r).result = (r.bytes .text >>= _)
        rw [result_bind, result_bytes]
        rfl
      | some content => rfl
    | _ => rfl
  | stamp =>
    cases d with
    | stamp time =>
      cases time with
      | none =>
        change ((number .stamp >>= _) r).result = (r.number .stamp >>= _)
        rw [result_bind, result_number]
        rfl
      | some time => rfl
    | _ => rfl
  | operand =>
    cases d with
    | list vs =>
      change ((nested >>= _) r).result = ((nested r).result >>= _)
      rw [result_bind]
      congr 1
      funext found
      obtain ⟨o, s⟩ := found
      cases o <;> rfl
    | _ => rfl

theorem tryClose_of_header {tag : Tag} {found : Tag × Form} {r s : Reader} (h : r.header = .ok (found, s)) :
    r.tryClose tag = if found = (tag, .closing) then .ok (true, s) else .ok (false, r) := by
  rw [Reader.tryClose, h]
  rfl

theorem result_items_closing (nested : Recorded Operand) (rounds : Nat) (d : Draft) {r s : Reader}
    (h : r.header = .ok ((.operand, .closing), s)) :
    (items nested (rounds + 1) d r).result = .ok (d, s) := by
  rw [items, result_tryClose_bind, tryClose_of_header h, if_pos rfl]
  rfl

theorem result_items_item (nested : Recorded Operand) (rounds : Nat) (d : Draft) {r s : Reader} {tag : Tag}
    {f : Form} (h : r.header = .ok ((tag, f), s)) (hne : (tag, f) ≠ (.operand, .closing)) :
    (items nested (rounds + 1) d r).result =
      (Draft.readItem (fun s => (nested s).result) r tag d >>= fun x => (items nested rounds x.1 x.2).result) := by
  rw [items, result_tryClose_bind, tryClose_of_header h, if_neg hne]
  change ((peek header >>= _) r).result = _
  rw [result_peek_header_bind, h]
  change ((item nested tag d >>= _) r).result = _
  rw [result_bind, result_item]

/-- The loop ends by itself if it has more rounds than there are bytes. -/
theorem result_items {nested : Recorded Operand} {form : Operand → List UInt8 → Prop}
    (takes : Takes (fun s => (nested s).result) form) (ho : Draft.Opens form) (rounds bytes : Nat) (d : Draft)
    (r : Reader) (hrounds : r.remaining < rounds) (hbytes : r.remaining ≤ bytes) :
    (items nested rounds d r).result = Draft.readItems (fun s => (nested s).result) bytes d r := by
  induction rounds generalizing bytes d r with
  | zero => omega
  | succ rounds ih =>
    cases bytes with
    | zero =>
      obtain ⟨p, rest⟩ := r
      cases List.length_eq_zero_iff.1 (Nat.le_zero.1 hbytes)
      rw [items, result_tryClose_bind]
      rfl
    | succ bytes =>
      cases hheader : r.header with
      | error e =>
        rw [items, result_tryClose_bind, Draft.readItems, Reader.tryClose, hheader]
        rfl
      | ok found =>
        obtain ⟨⟨tag, f⟩, s⟩ := found
        obtain ⟨head, hhead, hc⟩ := (Reader.header_takes r s (tag, f)).1 hheader
        by_cases hclosing : (tag, f) = (.operand, .closing)
        · cases hclosing
          rw [result_items_closing nested rounds d hheader, Draft.readItems_closing bytes d r s head hhead hc]
        · rw [result_items_item nested rounds d hheader hclosing,
            Draft.readItems_item bytes d r s tag f hheader hclosing]
          cases hitem : Draft.readItem (fun s => (nested s).result) r tag d with
          | error e => rfl
          | ok found =>
            obtain ⟨d', t⟩ := found
            obtain ⟨bs, hbs, hc⟩ := Draft.readItem_sound takes r t tag d d' hitem
            have hpos := hbs.length_pos ho
            have hrem := hc.remaining
            exact ih bytes d' t (by omega) (by omega)

theorem result_operandWithin (levels depth : Nat) (r : Reader) :
    (operandWithin levels depth r).result = Operand.readWithin levels r := by
  induction levels generalizing depth r with
  | zero => rfl
  | succ levels ih =>
    have hnested : (fun s => (operandWithin levels (depth + 1) s).result) = Operand.readWithin levels :=
      funext (ih (depth + 1))
    rw [operandWithin, result_note_bind, result_expect_bind, Operand.readWithin]
    congr 1
    funext s
    rw [result_here_bind, result_bind, result_items (hnested ▸ readWithin_takes levels) (opens_encodesWithin levels)
      _ s.remaining _ s (Nat.lt_succ_self _) (Nat.le_refl _), hnested]
    congr 1
    funext found
    obtain ⟨d, t⟩ := found
    rw [result_here_bind]
    dsimp only
    cases d.finish t.position <;> rfl

theorem result_operand (r : Reader) : (operand r).result = Operand.read r :=
  result_operandWithin maxOperandDepth 0 r

theorem result_single (bytes : List UInt8) :
    (single (.ofBytes bytes)).result.map Prod.fst = Operand.decode bytes := by
  rw [single, result_bind, result_operand, Operand.decode]
  cases Operand.read (.ofBytes bytes) with
  | error e => rfl
  | ok found =>
    obtain ⟨o, s⟩ := found
    change Except.map Prod.fst ((if s.isEmpty then pure o else fail _ : Recorded Operand) s).result =
      if s.isEmpty then .ok o else .error _
    split <;> rfl

theorem result_several (rounds bytes : Nat) (r : Reader) (hrounds : r.remaining < rounds)
    (hbytes : r.remaining ≤ bytes) :
    (several rounds r).result.map Prod.fst = Operand.readAll bytes r := by
  induction rounds generalizing bytes r with
  | zero => omega
  | succ rounds ih =>
    rw [several, result_note_bind, result_here_bind]
    by_cases hnil : r.rest = []
    · have hempty : r.isEmpty = true := List.isEmpty_iff.2 hnil
      rw [readAll_of_nil bytes hnil, if_pos hempty]
      rfl
    cases bytes with
    | zero => exact absurd (List.length_eq_zero_iff.1 (Nat.le_zero.1 hbytes)) hnil
    | succ bytes =>
      have hfull : ¬ r.isEmpty = true := fun h => hnil (List.isEmpty_iff.1 h)
      rw [readAll_of_ne_nil bytes hnil, if_neg hfull, result_bind, result_operand]
      cases hread : Operand.read r with
      | error e => rfl
      | ok found =>
        obtain ⟨o, s⟩ := found
        obtain ⟨bs, hbs, hc⟩ := (readWithin_takes maxOperandDepth r s o).1 hread
        have hpos := hbs.1.length_pos
        have hrem := hc.remaining
        change Except.map Prod.fst ((several rounds >>= fun os => pure (o :: os)) s).result =
          (Operand.readAll bytes s >>= _)
        rw [result_bind, ← ih bytes s (by omega) (by omega)]
        cases (several rounds s).result <;> rfl

end Results
end Retrace.Wire.Traced
