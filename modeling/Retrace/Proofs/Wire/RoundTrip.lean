import Retrace.Wire.Encode
import Retrace.Proofs.Wire.Drafts

/-!
The reader of operands takes exactly the forms of the grammar that are not nested too deep, whatever
follows them, and refuses what is nested deeper for that reason. Hence what the encoder writes is read
back, and it is the shortest of all bytes that are read as the same operand.
-/

set_option autoImplicit false

namespace Retrace.Wire

open Draft

def EncodesWithin (levels : Nat) (o : Operand) (bs : List UInt8) : Prop :=
  Encodes o bs ∧ o.depth ≤ levels

theorem Encodes.opening {o : Operand} {bs : List UInt8} (h : Encodes o bs) :
    ∃ head rest, bs = head ++ rest ∧ HeaderOf .operand .opening head := by
  obtain ⟨opens, _, _, _⟩ := h
  exact ⟨_, _, by rw [List.append_assoc, List.append_assoc], opens⟩

theorem opens_encodesWithin (levels : Nat) : Opens (EncodesWithin levels) :=
  fun _ _ h => h.1.opening

theorem Value.depth_pos (v : Value) : 0 < v.depth := by
  cases v <;> simp [Value.depth]

theorem Operand.depth_pos (o : Operand) : 0 < o.depth := by
  cases o with
  | «variable» name => exact Nat.one_pos
  | value v => exact v.depth_pos

theorem items_list_sound {levels : Nat} {vs : List Value} {bs : List UInt8} {d : Draft}
    (h : Items (EncodesWithin levels) (.list vs) bs d) :
    ∃ ws, d = .list (vs ++ ws) ∧ Payload (.value (.list ws)) bs ∧ Value.depthAll ws ≤ levels := by
  generalize hd : Draft.list vs = start at h
  induction h generalizing vs with
  | nil d =>
    subst hd
    exact ⟨[], by simp, .nil, Nat.zero_le _⟩
  | @cons d e f bs rest first others ih =>
    subst hd
    cases first with
    | @element _ v _ item =>
      obtain ⟨ws, rfl, hp, hw⟩ := ih rfl
      refine ⟨v :: ws, by simp, .cons item.1 hp, ?_⟩
      exact Nat.max_le.2 ⟨item.2, hw⟩

theorem items_list_complete {levels : Nat} (vs ws : List Value) {bs : List UInt8}
    (h : Payload (.value (.list ws)) bs) (hw : Value.depthAll ws ≤ levels) :
    Items (EncodesWithin levels) (.list vs) bs (.list (vs ++ ws)) := by
  induction ws generalizing vs bs with
  | nil =>
    cases h
    rw [List.append_nil]
    exact .nil _
  | cons w ws ih =>
    cases h with
    | cons first others =>
      have hmax := Nat.max_le.1 hw
      have hrest := ih (vs ++ [w]) others hmax.2
      rw [List.append_assoc, List.singleton_append] at hrest
      exact .cons (.element ⟨first, hmax.1⟩) hrest

/-- A draft that is not complete, and is complete after any item, takes a single item. -/
theorem item_of_items {form : Operand → List UInt8 → Prop} {d e : Draft} {bs : List UInt8}
    {o : Operand} {p : Nat} (hopen : ∀ o : Operand, d.finish p ≠ .ok o)
    (hfull : ∀ (as : List UInt8) (e : Draft), Item form d as e → ∀ cs f, ¬ Item form e cs f)
    (h : Items form d bs e) (hf : e.finish p = .ok o) : Item form d bs e := by
  cases h with
  | nil => exact absurd hf (hopen o)
  | cons first others =>
    cases others with
    | nil =>
      rw [List.append_nil]
      exact first
    | cons second _ => exact absurd second (hfull _ _ first _ _)

theorem items_ofKind_sound {levels : Nat} {k : Kind} {bs : List UInt8} {d : Draft} {o : Operand}
    {p : Nat} (h : Items (EncodesWithin levels) (ofKind k) bs d) (hf : d.finish p = .ok o) :
    o.kind = k ∧ Payload o bs ∧ o.depth ≤ levels + 1 := by
  have hdepth : 1 ≤ levels + 1 := Nat.le_add_left 1 levels
  cases k with
  | list =>
    obtain ⟨ws, rfl, hp, hw⟩ := items_list_sound h
    cases hf
    exact ⟨rfl, hp, Nat.add_le_add_right hw 1⟩
  | «variable» =>
    cases item_of_items (by rintro o ⟨⟩) (by rintro _ _ ⟨⟩ _ _ ⟨⟩) h hf with
    | index item =>
      cases hf
      exact ⟨rfl, .variable item, hdepth⟩
  | text =>
    cases item_of_items (by rintro o ⟨⟩) (by rintro _ _ ⟨⟩ _ _ ⟨⟩) h hf with
    | text item =>
      cases hf
      exact ⟨rfl, .text item, hdepth⟩
  | stamp =>
    cases item_of_items (by rintro o ⟨⟩) (by rintro _ _ ⟨⟩ _ _ ⟨⟩) h hf with
    | stamp item =>
      cases hf
      exact ⟨rfl, .stamp item, hdepth⟩
  | flag =>
    cases item_of_items (by rintro o ⟨⟩) (by rintro _ _ ⟨⟩ _ _ ⟨⟩) h hf with
    | flag item =>
      cases hf
      exact ⟨rfl, .flag item, hdepth⟩

theorem items_ofKind_complete {levels : Nat} {o : Operand} {bs : List UInt8} (h : Payload o bs)
    (ho : o.depth ≤ levels + 1) :
    ∃ d, Items (EncodesWithin levels) (ofKind o.kind) bs d ∧ ∀ p, d.finish p = .ok o := by
  have single {d e : Draft} (item : Item (EncodesWithin levels) d bs e) :
      Items (EncodesWithin levels) d bs e := by
    have hone := Items.cons item (.nil e)
    rwa [List.append_nil] at hone
  cases o with
  | «variable» name =>
    cases h with
    | «variable» item => exact ⟨_, single (.index item), fun _ => rfl⟩
  | value v =>
    cases v with
    | list vs =>
      have hvs : Value.depthAll vs ≤ levels := Nat.le_of_succ_le_succ ho
      exact ⟨.list vs, items_list_complete [] vs h hvs, fun _ => rfl⟩
    | text content =>
      cases h with
      | text item => exact ⟨_, single (.text item), fun _ => rfl⟩
    | stamp time =>
      cases h with
      | stamp item => exact ⟨_, single (.stamp item), fun _ => rfl⟩
    | flag b =>
      cases h with
      | flag item => exact ⟨_, single (.flag item), fun _ => rfl⟩

theorem items_blank_sound {levels : Nat} {bs : List UInt8} {d : Draft} {o : Operand} {p : Nat}
    (h : Items (EncodesWithin levels) .blank bs d) (hf : d.finish p = .ok o) :
    ∃ kind payload, bs = kind ++ payload ∧ NumberOf .kind o.kind.code kind ∧ Payload o payload ∧
      o.depth ≤ levels + 1 := by
  cases h with
  | nil => cases hf
  | cons first others =>
    cases first with
    | kind item =>
      obtain ⟨rfl, hp, ho⟩ := items_ofKind_sound others hf
      exact ⟨_, _, rfl, item, hp, ho⟩

theorem readWithin_takes (levels : Nat) :
    Takes (Operand.readWithin levels) (EncodesWithin levels) := by
  induction levels with
  | zero =>
    intro r r' o
    constructor
    · intro h
      cases h
    · rintro ⟨bs, ⟨_, ho⟩, _⟩
      have := o.depth_pos
      omega
  | succ levels ih =>
    intro r r' o
    constructor
    · intro h
      obtain ⟨s, opening, hopen, hc, hs⟩ := Reader.of_expect_bind h
      obtain ⟨⟨d, t⟩, hi, ht⟩ := (bind_eq_ok_iff _ _ _).1 hs
      obtain ⟨o', hf, ho'⟩ := (bind_eq_ok_iff _ _ _).1 ht
      cases ho'
      obtain ⟨bs, closing, hbs, hclose, hc'⟩ := readItems_sound ih _ _ _ _ _ hi
      obtain ⟨kind, payload, rfl, hk, hp, ho⟩ := items_blank_sound hbs hf
      refine ⟨_, ⟨.intro hopen hk hp hclose, ho⟩, ?_⟩
      have hall := hc.append hc'
      simpa only [List.append_assoc] using hall
    · rintro ⟨_, ⟨⟨hopen, hk, hp, hclose⟩, ho⟩, hc⟩
      obtain ⟨d, hd, hf⟩ := items_ofKind_complete hp ho
      obtain ⟨t, hc, hclosing⟩ := hc.split
      rw [List.append_assoc] at hc
      obtain ⟨s, hopening, hitems⟩ := hc.split
      obtain ⟨fuel, hfuel, hloop⟩ := readItems_items ih (opens_encodesWithin levels)
        (.cons (.kind hk) hd) s.remaining s t hitems (Nat.le_refl _)
      have hpos := hclose.digits.length_pos
      have hrem := hclosing.remaining
      cases fuel with
      | zero => omega
      | succ fuel =>
        rw [readItems_closing fuel d t r' _ hclose hclosing] at hloop
        rw [Operand.readWithin, Reader.expect_bind hopen hopening, hloop]
        change (d.finish r'.position >>= fun o => Except.ok (o, r')) = .ok (o, r')
        rw [hf]
        rfl

theorem payload_first_deep {levels : Nat} {vs : List Value} {bs : List UInt8}
    (h : Payload (.value (.list vs)) bs) (hd : levels < Value.depthAll vs) :
    ∃ (ws : List Value) (w : Value) (before first after : List UInt8),
      bs = before ++ (first ++ after) ∧ Payload (.value (.list ws)) before ∧
      Value.depthAll ws ≤ levels ∧ Encodes (.value w) first ∧ levels < w.depth := by
  induction vs generalizing bs with
  | nil => simp [Value.depthAll] at hd
  | cons v vs ih =>
    cases h with
    | @cons _ _ bs rest first others =>
      by_cases hv : levels < v.depth
      · exact ⟨[], v, [], bs, rest, rfl, .nil, Nat.zero_le _, first, hv⟩
      · have hvs : levels < Value.depthAll vs := by
          rw [Value.depthAll] at hd
          omega
        obtain ⟨ws, w, before, deep, after, rfl, hb, hw, hdeep, hlt⟩ := ih others hvs
        refine ⟨v :: ws, w, bs ++ before, deep, after, ?_, .cons first hb, ?_, hdeep, hlt⟩
        · rw [List.append_assoc]
        · exact Nat.max_le.2 ⟨Nat.le_of_not_lt hv, hw⟩

/-- A form with more levels than there is room for is refused as too deep. -/
theorem readWithin_tooDeep (levels : Nat) {o : Operand} {bs : List UInt8} (h : Encodes o bs)
    (hd : levels < o.depth) (r r' : Reader) (hc : r.Consumes bs r') :
    ∃ p, Operand.readWithin levels r = .error (.tooDeep maxOperandDepth p) := by
  induction levels generalizing o bs r r' with
  | zero => exact ⟨r.position, rfl⟩
  | succ levels ih =>
    -- only lists have more than one level
    match o, h, hd with
    | .value (.list vs), .intro hopen hk hp hclose, hd =>
      have hvs : levels < Value.depthAll vs := Nat.lt_of_succ_lt_succ hd
      obtain ⟨ws, w, before, deep, after, rfl, hb, hw, hdeep, hlt⟩ := payload_first_deep hp hvs
      simp only [List.append_assoc] at hc
      obtain ⟨s, hopening, hc⟩ := hc.split
      rw [← List.append_assoc] at hc
      obtain ⟨t, hitems, hc⟩ := hc.split
      obtain ⟨u, hc, _⟩ := hc.split
      obtain ⟨fuel, hfuel, hloop⟩ := readItems_items (readWithin_takes levels)
        (opens_encodesWithin levels) (.cons (.kind hk) (items_list_complete [] ws hb hw))
        s.remaining s t hitems (Nat.le_refl _)
      obtain ⟨p, hnested⟩ := ih hdeep hlt t u hc
      obtain ⟨head, rest, rfl, hhead⟩ := hdeep.opening
      obtain ⟨v, hheader⟩ := Reader.header_of_append hhead hc
      have hpos := hhead.digits.length_pos
      have hrem := hc.remaining
      rw [List.length_append] at hrem
      cases fuel with
      | zero => omega
      | succ fuel =>
        rw [readItems_item fuel _ t v .operand .opening hheader (by decide)] at hloop
        simp only [List.nil_append, readItem, hnested] at hloop
        refine ⟨p, ?_⟩
        rw [Operand.readWithin, Reader.expect_bind hopen hopening, hloop]
        rfl

theorem decode_iff_encodesWithin (bs : List UInt8) (o : Operand) :
    Operand.decode bs = .ok o ↔ EncodesWithin maxOperandDepth o bs := by
  constructor
  · intro h
    obtain ⟨o', s, bs', hbs, hc, hs⟩ := (readWithin_takes maxOperandDepth).of_bind h
    have hrest := hc.rest
    simp only at hs
    by_cases hempty : s.isEmpty = true
    · rw [if_pos hempty] at hs
      cases hs
      rw [List.isEmpty_iff.1 hempty, List.append_nil] at hrest
      have hbs' : bs = bs' := hrest
      rwa [hbs']
    · rw [if_neg hempty] at hs
      cases hs
  · intro h
    rw [Operand.decode, Operand.read, (readWithin_takes maxOperandDepth).bind h (.all bs)]
    rfl

theorem Encodes.unique {o o' : Operand} {bs : List UInt8} (h : Encodes o bs) (h' : Encodes o' bs) :
    o = o' := by
  -- a reader with room for both operands gives each of them
  have take := readWithin_takes (max o.depth o'.depth) (Reader.ofBytes bs) ⟨bs.length, []⟩
  have ho := (take o).2 ⟨bs, ⟨h, Nat.le_max_left _ _⟩, .all bs⟩
  have ho' := (take o').2 ⟨bs, ⟨h', Nat.le_max_right _ _⟩, .all bs⟩
  rw [ho] at ho'
  cases ho'
  rfl

def Operand.elements : Operand → List Operand
  | .value (.list vs) => vs.map .value
  | _ => []

inductive Operand.Holds : Operand → Operand → Prop
  | element {o e : Operand} (h : e ∈ o.elements) : Holds o e
  | deeper {o e f : Operand} (h : e ∈ o.elements) (inside : Holds e f) : Holds o f

theorem Operand.isVariable_of_mem_elements {o e : Operand} (h : e ∈ o.elements) :
    e.isVariable = false := by
  match o, h with
  | .value (.list vs), h =>
    obtain ⟨v, _, rfl⟩ := List.mem_map.1 h
    rfl

theorem Operand.Holds.isVariable {o e : Operand} (h : o.Holds e) : e.isVariable = false := by
  induction h with
  | element h => exact isVariable_of_mem_elements h
  | deeper _ _ ih => exact ih

/-- An operand is read back from what the encoder writes, whatever follows, if at most 64 operands are
nested in each other; else it is refused as too deep. -/
theorem read_encode_append (o : Operand) (rest : List UInt8)
    (short : ∀ bs ∈ o.texts, bs.length < 2 ^ 64) :
    (o.depth ≤ 64 →
      Operand.read (.ofBytes (o.encode ++ rest)) = .ok (o, ⟨o.encode.length, rest⟩) ∧
      Operand.decode o.encode = .ok o) ∧
    (64 < o.depth → ∃ p, Operand.decode o.encode = .error (.tooDeep 64 p)) := by
  have h := encodes_encode o short
  refine ⟨fun hd => ⟨?_, ?_⟩, fun hd => ?_⟩
  · have hc : (Reader.ofBytes (o.encode ++ rest)).Consumes o.encode ⟨o.encode.length, rest⟩ :=
      ⟨rfl, (Nat.zero_add _).symm⟩
    exact (readWithin_takes maxOperandDepth _ _ _).2 ⟨o.encode, ⟨h, hd⟩, hc⟩
  · exact (decode_iff_encodesWithin _ _).2 ⟨h, hd⟩
  · obtain ⟨p, hp⟩ := readWithin_tooDeep maxOperandDepth h hd _ _ (.all o.encode)
    refine ⟨p, ?_⟩
    rw [Operand.decode, Operand.read, hp]
    rfl

/-- A list of every kind of value is read back in front of a further byte, and 65 levels are refused. -/
theorem read_encode_append_at_limit :
    (let o := Operand.value (.list [.list [], .text [1, 200], .stamp 300, .flag true])
     Operand.read (.ofBytes (o.encode ++ [7])) = .ok (o, ⟨o.encode.length, [7]⟩) ∧
     Operand.decode o.encode = .ok o) ∧
    ∃ p, Operand.decode (Operand.value ((fun v => .list [v])^[64] (.flag true))).encode =
      .error (.tooDeep 64 p) :=
  ⟨(read_encode_append _ [7] (by decide)).1 (by decide),
    (read_encode_append _ [] (by decide +kernel)).2 (by decide +kernel)⟩

/-- The decoder accepts exactly the grammar, up to 64 levels. The bytes determine the operand, no list in
it holds a variable, and all bytes but those of the encoder are longer than they have to be. -/
theorem decode_eq_ok_iff (bs : List UInt8) (o : Operand) :
    (Operand.decode bs = .ok o ↔ Encodes o bs ∧ o.depth ≤ 64) ∧
    (∀ o', Encodes o bs → Encodes o' bs → o = o') ∧
    (Operand.decode bs = .ok o → (∀ e, o.Holds e → e.isVariable = false) ∧
      Operand.decode o.encode = .ok o ∧ (bs ≠ o.encode → o.encode.length < bs.length)) := by
  refine ⟨decode_iff_encodesWithin bs o, fun o' => Encodes.unique, fun h => ?_⟩
  obtain ⟨he, hd⟩ := (decode_iff_encodesWithin bs o).1 h
  refine ⟨fun e => Operand.Holds.isVariable, ?_, fun hne => ?_⟩
  · exact (decode_iff_encodesWithin _ _).2 ⟨encodes_encode o he.length_texts, hd⟩
  · exact he.eqOrLonger.resolve_left hne

theorem decode_eq_ok_iff_of_padding :
    Encodes (.value (.flag true)) [0xc1, 2, 0x8c, 0, 5, 0x1b, 0xc2, 2] ∧
    (Operand.value (.flag true)).encode.length < 8 := by
  have h := decode_eq_ok_iff [0xc1, 2, 0x8c, 0, 5, 0x1b, 0xc2, 2] (.value (.flag true))
  have hd : Operand.decode [0xc1, 2, 0x8c, 0, 5, 0x1b, 0xc2, 2] = .ok (.value (.flag true)) := by decide
  exact ⟨(h.1.1 hd).1, (h.2.2 hd).2.2 (by decide +kernel)⟩

end Retrace.Wire
