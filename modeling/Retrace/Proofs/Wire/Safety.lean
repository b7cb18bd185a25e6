import Retrace.Proofs.Wire.Trace

/-!
The reader is safe on every input. What it does, step by step, is followed through a run: it stays within the
input, goes forward only, shifts no bit out of a word of 64 bits, enters no operand deeper than the limit, and
leaves its loops because of what it reads and not because their rounds are counted.
-/

set_option autoImplicit false

namespace Retrace.Wire

/-- The reader stands in the input: what is left is what follows its position. -/
structure Reader.Within (r : Reader) (input : List UInt8) : Prop where
  position_le : r.position ≤ input.length
  rest : r.rest = input.drop r.position

namespace Reader.Within

variable {r : Reader} {input : List UInt8}

theorem ofBytes (input : List UInt8) : (Reader.ofBytes input).Within input := ⟨Nat.zero_le _, rfl⟩

theorem position_add (h : r.Within input) : r.position + r.remaining = input.length := by
  rw [remaining, h.rest, List.length_drop]
  exact Nat.add_sub_of_le h.position_le

theorem drop (h : r.Within input) {n : Nat} (hn : n ≤ r.remaining) :
    Within ⟨r.position + n, r.rest.drop n⟩ input := by
  have hposition := h.position_add
  refine ⟨?_, ?_⟩
  · change r.position + n ≤ input.length
    omega
  · change r.rest.drop n = input.drop (r.position + n)
    rw [h.rest, List.drop_drop]

end Reader.Within

namespace Traced

open Recorded

/-- What may be done at a position of the input. -/
def Act.Safe (input : List UInt8) (position : Nat) : Act → Prop
  | byte => position < input.length
  | shift digit count => digit * 2 ^ (7 * count) < 2 ^ 64
  | measure => True
  | slice length => position + length ≤ input.length
  | enter depth => depth ≤ 64
  | spent => False

structure Event.Safe (input : List UInt8) (e : Event) : Prop where
  within : e.reader.Within input
  act : e.act.Safe input e.reader.position

/-- A safe run from a reader. It only goes forward, where what is read ahead is read from a copy; if it succeeds
it has taken at least so many bytes, and if it fails it names a position in the input. -/
structure SafeRun {α : Type} (input : List UInt8) (least : Nat) (r : Reader) (run : Run α) : Prop where
  safe : ∀ e ∈ run.events, e.Safe input
  forward : ∀ e ∈ run.events, r.position ≤ e.reader.position
  ordered : run.events.Pairwise fun e e' => e.ahead = false → e.reader.position ≤ e'.reader.position
  finished : ∀ a s, run.result = .ok (a, s) → s.Within input ∧ r.position + least ≤ s.position ∧
    ∀ e ∈ run.events, e.ahead = false → e.reader.position ≤ s.position
  failed : ∀ e, run.result = .error e → e.position ≤ input.length

def Safe {α : Type} (input : List UInt8) (least : Nat) (x : Recorded α) : Prop :=
  ∀ r : Reader, r.Within input → SafeRun input least r (x r)

section Rules

variable {α β : Type} {input : List UInt8} {least m n : Nat} {r : Reader} {x : Recorded α} {f : α → Recorded β}

theorem SafeRun.weaken {run : Run α} (h : SafeRun input m r run) (hn : n ≤ m) : SafeRun input n r run where
  safe := h.safe
  forward := h.forward
  ordered := h.ordered
  finished a s hs := by
    obtain ⟨hwithin, hle, hbefore⟩ := h.finished a s hs
    exact ⟨hwithin, by omega, hbefore⟩
  failed := h.failed

theorem SafeRun.outcome {run : Run α} (h : SafeRun input n r run) :
    (∃ a s, run.result = .ok (a, s) ∧ r.position + n ≤ s.position ∧ s.Within input) ∨
      ∃ e, run.result = .error e ∧ e.position ≤ input.length := by
  cases hresult : run.result with
  | error e => exact .inr ⟨e, rfl, h.failed e hresult⟩
  | ok found =>
    obtain ⟨hwithin, hle, -⟩ := h.finished found.1 found.2 hresult
    exact .inl ⟨found.1, found.2, rfl, hle, hwithin⟩

theorem bind_of_error {e : ParseError} (h : (x r).result = .error e) :
    (x >>= f) r = ⟨(x r).events, .error e⟩ := by
  change Recorded.bind x f r = _
  rw [Recorded.bind, h]

theorem bind_of_ok {a : α} {s : Reader} (h : (x r).result = .ok (a, s)) :
    (x >>= f) r = ⟨(x r).events ++ (f a s).events, (f a s).result⟩ := by
  change Recorded.bind x f r = _
  rw [Recorded.bind, h]

/-- One action after the other, where the second may rely on where the first one stopped. -/
theorem SafeRun.bind (hx : SafeRun input m r (x r))
    (hf : ∀ a s, s.Within input → r.position + m ≤ s.position → SafeRun input n s (f a s))
    (hleast : least ≤ m + n) : SafeRun input least r ((x >>= f) r) := by
  cases hresult : (x r).result with
  | error e =>
    rw [bind_of_error hresult]
    refine ⟨hx.safe, hx.forward, hx.ordered, fun a s hs => ?_, fun e' he' => ?_⟩
    · cases hs
    · cases he'
      exact hx.failed e hresult
  | ok found =>
    obtain ⟨a, s⟩ := found
    obtain ⟨hs, hle, hbefore⟩ := hx.finished a s hresult
    have hfs := hf a s hs hle
    rw [bind_of_ok hresult]
    refine ⟨?_, ?_, ?_, ?_, hfs.failed⟩
    · exact List.forall_mem_append.2 ⟨hx.safe, hfs.safe⟩
    · refine List.forall_mem_append.2 ⟨hx.forward, fun e he => ?_⟩
      have hforward := hfs.forward e he
      omega
    · refine List.pairwise_append.2 ⟨hx.ordered, hfs.ordered, fun e he e' he' hahead => ?_⟩
      exact Nat.le_trans (hbefore e he hahead) (hfs.forward e' he')
    · intro b t ht
      obtain ⟨hwithin, hle', hbefore'⟩ := hfs.finished b t ht
      refine ⟨hwithin, by omega, List.forall_mem_append.2 ⟨fun e he hahead => ?_, hbefore'⟩⟩
      have := hbefore e he hahead
      omega

theorem SafeRun.followed (hx : SafeRun input n r (x r))
    (hf : ∀ a s, s.Within input → r.position + n ≤ s.position → SafeRun input 0 s (f a s)) :
    SafeRun input n r ((x >>= f) r) := hx.bind hf (Nat.le_refl _)

theorem Safe.weaken (h : Safe input m x) (hn : n ≤ m) : Safe input n x := fun r hr => (h r hr).weaken hn

theorem Safe.bind (hx : Safe input n x) (hf : ∀ a, Safe input 0 (f a)) : Safe input n (x >>= f) :=
  fun r hr => (hx r hr).followed fun a s hs _ => hf a s hs

theorem Safe.then (hx : Safe input 0 x) (hf : ∀ a, Safe input n (f a)) : Safe input n (x >>= f) :=
  fun r hr => (hx r hr).bind (fun a s hs _ => hf a s hs) (Nat.zero_add n).ge

theorem safeRun_single {act : Act} (hr : r.Within input) (hact : act.Safe input r.position) {a : α} :
    SafeRun input 0 r ⟨[⟨act, r, false⟩], .ok (a, r)⟩ where
  safe := List.forall_mem_singleton.2 ⟨hr, hact⟩
  forward := List.forall_mem_singleton.2 (Nat.le_refl _)
  ordered := List.pairwise_singleton _ _
  finished _ _ hs := by
    cases hs
    exact ⟨hr, Nat.le_refl _, List.forall_mem_singleton.2 fun _ => Nat.le_refl _⟩
  failed _ he := by cases he

theorem safe_pure (a : α) : Safe input 0 (pure a : Recorded α) := fun r hr =>
  { safe := List.forall_mem_nil _
    forward := List.forall_mem_nil _
    ordered := .nil
    finished := fun _ _ hs => by
      cases hs
      exact ⟨hr, Nat.le_refl _, List.forall_mem_nil _⟩
    failed := fun _ he => by cases he }

theorem safe_fail {e : ParseError} (h : e.position ≤ input.length) :
    Safe input n (fail e : Recorded α) := fun r _ =>
  { safe := List.forall_mem_nil _
    forward := List.forall_mem_nil _
    ordered := .nil
    finished := fun _ _ hs => by cases hs
    failed := fun _ he => by
      cases he
      exact h }

theorem safe_note {act : Act} (h : ∀ r : Reader, r.Within input → act.Safe input r.position) :
    Safe input 0 (note act) := fun r hr => safeRun_single hr (h r hr)

theorem safe_here_bind {f : Reader → Recorded β} (h : ∀ s : Reader, s.Within input → Safe input n (f s)) :
    Safe input n (here >>= f) := fun r hr => h r hr r hr

theorem safe_peek (h : Safe input m x) : Safe input 0 (peek x) := by
  intro r hr
  have hx := h r hr
  refine ⟨?_, List.forall_mem_map.2 hx.forward, ?_, fun a s hs => ?_, fun e he => ?_⟩
  · exact List.forall_mem_map.2 fun e he => ⟨(hx.safe e he).within, (hx.safe e he).act⟩
  · exact List.pairwise_map.2 (hx.ordered.imp fun _ hahead => by cases hahead)
  · change (x r).result.map _ = _ at hs
    cases hresult : (x r).result with
    | error e =>
      rw [hresult] at hs
      cases hs
    | ok found =>
      rw [hresult] at hs
      cases hs
      exact ⟨hr, Nat.le_refl _, List.forall_mem_map.2 fun _ _ hahead => by cases hahead⟩
  · change (x r).result.map _ = _ at he
    cases hresult : (x r).result with
    | error e' =>
      rw [hresult] at he
      cases he
      exact hx.failed _ hresult
    | ok found =>
      rw [hresult] at he
      cases he

theorem safe_takeByte : Safe input 1 takeByte := by
  rintro ⟨p, _ | ⟨b, rest⟩⟩ hr
  · have hfail : Safe input 1 (fail (.unexpectedEnd p) : Recorded UInt8) := safe_fail hr.position_le
    exact hfail _ hr
  · have hrest := hr.drop (show 1 ≤ Reader.remaining ⟨p, b :: rest⟩ by simp [Reader.remaining])
    have hlt : p < input.length := hrest.position_le
    refine ⟨List.forall_mem_singleton.2 ⟨hr, hlt⟩, List.forall_mem_singleton.2 (Nat.le_refl _),
      List.pairwise_singleton _ _, fun a s hs => ?_, fun e he => ?_⟩
    · cases hs
      exact ⟨hrest, Nat.le_refl _, List.forall_mem_singleton.2 fun _ => Nat.le_succ p⟩
    · cases he

theorem safe_takeSlice {announced length : Nat} (h : announced ≤ input.length) :
    Safe input 0 (takeSlice announced length) := by
  intro r hr
  have hmeasure : Event.Safe input ⟨.measure, r, false⟩ := ⟨hr, trivial⟩
  unfold takeSlice
  split
  · refine ⟨List.forall_mem_singleton.2 hmeasure, List.forall_mem_singleton.2 (Nat.le_refl _),
      List.pairwise_singleton _ _, fun a s hs => ?_, fun e he => ?_⟩
    · cases hs
    · cases he
      exact h
  · rename_i henough
    have hrest := hr.drop (Nat.le_of_not_lt henough)
    have hslice : Event.Safe input ⟨.slice length, r, false⟩ := ⟨hr, hrest.position_le⟩
    refine ⟨?_, ?_, ?_, fun a s hs => ?_, fun e he => ?_⟩
    · simp [hmeasure, hslice]
    · simp
    · simp
    · cases hs
      exact ⟨hrest, Nat.le_add_right _ _, by simp⟩
    · cases he

end Rules

section Readers

variable {input : List UInt8}

/-- A digit has seven bits, and the tenth digit of a number has a single one. -/
theorem shift_safe {digit count : Nat} (hdigit : digit < 128) (hcount : count ≤ 9)
    (hlast : count = 9 → digit ≤ 1) (position : Nat) : (Act.shift digit count).Safe input position := by
  change digit * 2 ^ (7 * count) < 2 ^ 64
  rcases Nat.lt_or_eq_of_le hcount with hlt | rfl
  · calc digit * 2 ^ (7 * count)
        ≤ 127 * 2 ^ (7 * 8) :=
          Nat.mul_le_mul (Nat.le_of_lt_succ hdigit) (Nat.pow_le_pow_right (by decide) (by omega))
      _ < 2 ^ 64 := by decide
  · calc digit * 2 ^ (7 * 9)
        ≤ 1 * 2 ^ (7 * 9) := Nat.mul_le_mul_right _ (hlast rfl)
      _ < 2 ^ 64 := by decide

theorem safe_digits {start : Nat} (hstart : start ≤ input.length) (room count value : Nat)
    (hroom : room + count = Reader.maxVarintBytes) : Safe input 1 (digits start room count value) := by
  induction room generalizing count value with
  | zero => exact safe_fail hstart
  | succ room ih =>
    refine safe_takeByte.bind fun b => ?_
    split
    · exact safe_fail hstart
    · rename_i hfits
      have hten : room + 1 + count = 10 := hroom
      have hshift (position : Nat) : (Act.shift (b.toNat % 128) count).Safe input position :=
        shift_safe (Nat.mod_lt b.toNat (by decide)) (by omega) (fun hlast => by omega) position
      refine (safe_note fun r _ => hshift r.position).bind fun _ => ?_
      split
      · exact safe_pure _
      · exact (ih (count + 1) _ (by omega)).weaken (Nat.zero_le 1)

theorem safe_varint : Safe input 1 varint :=
  safe_here_bind fun _ hs => safe_digits hs.position_le _ 0 0 rfl

theorem safe_header : Safe input 1 header := by
  refine safe_here_bind fun s hs => safe_varint.bind fun code => ?_
  split
  · exact safe_fail hs.position_le
  · exact safe_fail hs.position_le
  · exact safe_pure _

theorem safe_expect (tag : Tag) (form : Form) : Safe input 1 (expect tag form) := by
  refine safe_here_bind fun s hs => safe_header.bind fun found => ?_
  dsimp only
  split
  · exact safe_pure _
  · exact safe_fail hs.position_le

theorem safe_tryClose (tag : Tag) : Safe input 0 (tryClose tag) := by
  refine (safe_peek safe_header).bind fun found => ?_
  split
  · exact (safe_header.bind fun _ => safe_pure true).weaken (Nat.zero_le 1)
  · exact safe_pure false

theorem safe_number (tag : Tag) : Safe input 1 (number tag) :=
  (safe_expect tag .number).bind fun _ => safe_varint.weaken (Nat.zero_le 1)

theorem safe_bytes (tag : Tag) : Safe input 1 (bytes tag) :=
  (safe_expect tag .bytes).bind fun _ => safe_here_bind fun _ hs =>
    (safe_varint.weaken (Nat.zero_le 1)).bind fun _ => safe_takeSlice hs.position_le

variable {nested : Recorded Operand}

/-- Every item takes a byte, or fails. -/
theorem safe_item (hn : Safe input 1 nested) (tag : Tag) (d : Draft) : Safe input 1 (item nested tag d) := by
  refine safe_here_bind fun s hs => ?_
  split
  · refine (safe_number .kind).bind fun code => ?_
    split
    · exact safe_pure _
    · exact safe_fail hs.position_le
  · exact safe_fail hs.position_le
  · refine (safe_number .index).bind fun code => ?_
    split
    · exact safe_pure _
    · exact safe_fail hs.position_le
  · exact safe_fail hs.position_le
  · exact (safe_expect .yes .empty).bind fun _ => safe_pure _
  · exact (safe_expect .no .empty).bind fun _ => safe_pure _
  · exact safe_fail hs.position_le
  · exact safe_fail hs.position_le
  · exact (safe_bytes .text).bind fun _ => safe_pure _
  · exact safe_fail hs.position_le
  · exact (safe_number .stamp).bind fun _ => safe_pure _
  · exact safe_fail hs.position_le
  · refine hn.bind fun o => ?_
    split
    · exact safe_pure _
    · exact safe_fail hs.position_le
  · exact safe_fail hs.position_le

/-- The rounds of the loop outlast the bytes, as every round but the last takes one. -/
theorem safeRun_items (hn : Safe input 1 nested) (rounds : Nat) (d : Draft) (r : Reader) (hr : r.Within input)
    (hrounds : r.remaining < rounds) : SafeRun input 0 r (items nested rounds d r) := by
  induction rounds generalizing d r with
  | zero => omega
  | succ rounds ih =>
    refine (safe_tryClose .operand r hr).followed fun closed s hs hrs => ?_
    split
    · exact safe_pure d s hs
    · refine (safe_peek safe_header s hs).followed fun found t ht hst => ?_
      refine ((safe_item hn found.1 d t ht).followed fun d' u hu htu => ih d' u hu ?_).weaken (Nat.zero_le 1)
      have := hr.position_add
      have := hu.position_add
      omega

theorem safe_enter {depth : Nat} (h : depth ≤ maxOperandDepth) : Safe input 0 (note (.enter depth)) :=
  safe_note fun _ _ => h

theorem safe_measure : Safe input 0 (note .measure) := safe_note fun _ _ => trivial

theorem position_of_finish {d : Draft} {p : Nat} {e : ParseError} (h : d.finish p = .error e) :
    e.position = p := by
  unfold Draft.finish at h
  split at h <;> cases h <;> rfl

theorem safe_operandWithin (levels depth : Nat) (h : levels + depth = maxOperandDepth) :
    Safe input 1 (operandWithin levels depth) := by
  induction levels generalizing depth with
  | zero => exact (safe_enter (by omega)).then fun _ => safe_here_bind fun s hs => safe_fail hs.position_le
  | succ levels ih =>
    have hnested := ih (depth + 1) (by omega)
    refine (safe_enter (by omega)).then fun _ => (safe_expect .operand .opening).bind fun _ r hr => ?_
    -- The rounds of the loop are counted where the opening header ends.
    change SafeRun input 0 r ((items _ (r.remaining + 1) .blank >>= _) r)
    refine (safeRun_items hnested _ .blank r hr (Nat.lt_succ_self _)).followed fun d s hs _ => ?_
    refine safe_here_bind (fun t ht => ?_) s hs
    split
    · exact safe_pure _
    · rename_i e herror
      exact safe_fail (position_of_finish herror ▸ ht.position_le)

theorem safe_operand : Safe input 1 operand := safe_operandWithin maxOperandDepth 0 rfl

theorem safe_single : Safe input 1 single := by
  refine safe_operand.bind fun o => safe_measure.bind fun _ => safe_here_bind fun s hs => ?_
  split
  · exact safe_pure o
  · exact safe_fail hs.position_le

theorem safeRun_several (rounds : Nat) (r : Reader) (hr : r.Within input) (hrounds : r.remaining < rounds) :
    SafeRun input 0 r (several rounds r) := by
  induction rounds generalizing r with
  | zero => omega
  | succ rounds ih =>
    refine (safe_measure r hr).followed fun _ s hs hrs => ?_
    change SafeRun input 0 s ((if s.isEmpty then pure [] else _ : Recorded (List Operand)) s)
    split
    · exact safe_pure [] s hs
    · refine ((safe_operand s hs).followed fun o t ht hst => ?_).weaken (Nat.zero_le 1)
      refine (ih t ht ?_).followed fun os u hu _ => safe_pure (o :: os) u hu
      have := hr.position_add
      have := ht.position_add
      omega

end Readers

/-- The reader of operands is safe from every position of every input. It does what is on record, and that is
safe; so it ends with an operand, after at least a byte, or with an error at a position of the input. The
same holds where an operand has to span the input, and where the input is read to its end. -/
theorem reading_safe (input : List UInt8) (r : Reader) (hr : r.Within input) :
    ((operand r).result = Operand.read r ∧ SafeRun input 1 r (operand r)) ∧
    ((∃ o s, Operand.read r = .ok (o, s) ∧ r.position < s.position ∧ s.Within input) ∨
      ∃ e, Operand.read r = .error e ∧ e.position ≤ input.length) ∧
    ((single (.ofBytes input)).result.map Prod.fst = Operand.decode input ∧
      SafeRun input 1 (.ofBytes input) (single (.ofBytes input))) ∧
    ((∃ o, Operand.decode input = .ok o) ∨
      ∃ e, Operand.decode input = .error e ∧ e.position ≤ input.length) ∧
    ((several (input.length + 1) (.ofBytes input)).result.map Prod.fst = Operand.decodeAll input ∧
      SafeRun input 0 (.ofBytes input) (several (input.length + 1) (.ofBytes input))) := by
  have hread : SafeRun input 1 r (operand r) := safe_operand r hr
  have hsingle : SafeRun input 1 (.ofBytes input) (single (.ofBytes input)) := safe_single _ (.ofBytes input)
  refine ⟨⟨result_operand r, hread⟩, ?_, ⟨result_single input, hsingle⟩, ?_, ?_, ?_⟩
  · rw [← result_operand]
    exact hread.outcome
  · rw [← result_single]
    obtain ⟨o, s, hok, -⟩ | ⟨e, herror, hposition⟩ := hsingle.outcome
    · exact .inl ⟨o, by rw [hok]; rfl⟩
    · exact .inr ⟨e, by rw [herror]; rfl, hposition⟩
  · exact result_several _ _ _ (Nat.lt_succ_self _) (Nat.le_refl _)
  · exact safeRun_several _ _ (.ofBytes input) (Nat.lt_succ_self _)

/-- A number that does not end in ten bytes is refused where it starts, although more bytes follow. -/
theorem reading_safe_of_overlong :
    Operand.read ⟨1, List.replicate 11 0xff⟩ = .error (.malformedVarint 1) ∧
    SafeRun (7 :: List.replicate 11 0xff) 1 ⟨1, List.replicate 11 0xff⟩
      (operand ⟨1, List.replicate 11 0xff⟩) := by
  have hsafe := reading_safe (7 :: List.replicate 11 0xff) ⟨1, List.replicate 11 0xff⟩ ⟨by decide, rfl⟩
  exact ⟨by decide, hsafe.1.2⟩

end Traced
end Retrace.Wire
