import Retrace.Proofs.Formula.Normal
import Retrace.Proofs.Walk.Reach
import Retrace.Search.Invariant

/-!
What the formula of an invariant can be about. It is looked through for what is not on the heap, and the
dereferences of what it reads are counted. Neither is done everywhere: the location of a modifier and the test
of a terminator are not looked at, and a pointer that is computed ends the chain along which is counted.
-/

set_option autoImplicit false

namespace Retrace

namespace Expr

inductive Occurs (a : Expr) : Expr → Prop
  | self : Occurs a a
  | part {e c : Expr} (mem : c ∈ e.parts) (occurs : Occurs a c) : Occurs a e

def isTerminator (e : Expr) : Bool :=
  match e.shape with
  | .terminator .. => true
  | _ => false

/-- Only modifiers, placeholders and terminators have parts that are no children. -/
theorem mem_children_of_mem_parts {c e : Expr} (h : c ∈ e.parts) :
    c ∈ e.children ∨ e.group = .modifier ∨ e.isTerminator = true ∨ e.group = .placeholder := by
  obtain ⟨d, s⟩ := e
  cases s with
  | clobber | moment => exact .inr (.inl rfl)
  | terminator => exact .inr (.inr (.inl rfl))
  | value | frame => exact .inr (.inr (.inr rfl))
  | _ => exact .inl h

def pointer? (e : Expr) : Option Expr :=
  match e.shape with
  | .binary .pointerAdd _ _ p _ => some p
  | .binary .pointerSub _ _ p _ => some p
  | .unary .coerce _ p => some p
  | s => s.target?

def pointerPath : Expr → List Expr
  | e@(node _ (.access _ t)) => e :: t.pointerPath
  | e@(node _ (.index t _ _)) => e :: t.pointerPath
  | e@(node _ (.clobber _ _ o _)) => e :: o.pointerPath
  | e@(node _ (.moment _ t _)) => e :: t.pointerPath
  | e@(node _ (.bound _ (some t) _)) => e :: t.pointerPath
  | e@(node _ (.terminator (some t) _ _ _)) => e :: t.pointerPath
  | e@(node _ (.binary .pointerAdd _ _ p _)) => e :: p.pointerPath
  | e@(node _ (.binary .pointerSub _ _ p _)) => e :: p.pointerPath
  | e@(node _ (.unary .coerce _ p)) => e :: p.pointerPath
  | e => [e]

theorem pointerPath_eq (e : Expr) : e.pointerPath = e :: (e.pointer?.map pointerPath).getD [] := by
  obtain ⟨d, s⟩ := e
  cases s with
  | bound _ t _ => cases t <;> rfl
  | terminator t _ _ _ => cases t <;> rfl
  | binary op _ _ _ _ => cases op <;> rfl
  | unary op _ _ => cases op <;> rfl
  | _ => rfl

def pointerDerefs (e : Expr) : Nat := e.pointerPath.countP fun c => c.dereferenced?.isSome

def detours (e : Expr) : Nat := e.pointerPath.countP fun c => c.isRvalue && c.pointer?.isSome

theorem derefCount_eq (e : Expr) :
    e.derefCount = (e.target?.map derefCount).getD 0 + if e.dereferenced?.isSome then 1 else 0 := by
  rw [derefCount, chain_eq, List.countP_cons]
  obtain ⟨d, s⟩ := e
  cases s with
  | access step t => cases step <;> rfl
  | bound _ t _ => cases t <;> rfl
  | terminator t _ _ _ => cases t <;> rfl
  | _ => rfl

theorem pointerDerefs_eq (e : Expr) :
    e.pointerDerefs = (e.pointer?.map pointerDerefs).getD 0 + if e.dereferenced?.isSome then 1 else 0 := by
  rw [pointerDerefs, pointerPath_eq, List.countP_cons]
  cases e.pointer? <;> rfl

theorem detours_eq (e : Expr) :
    e.detours = (e.pointer?.map detours).getD 0 + if e.isRvalue && e.pointer?.isSome then 1 else 0 := by
  rw [detours, pointerPath_eq, List.countP_cons]
  cases e.pointer? <;> rfl

theorem mem_inward_of_target? {e t : Expr} (h : e.target? = some t) : t ∈ e.inward := by
  obtain ⟨d, s⟩ := e
  cases s <;> simp_all [target?, inward, children, hidden, Shape.target?, Shape.children, Shape.hidden]

theorem mem_inward_of_read? {e t : Expr} (h : e.read? = some t) : t ∈ e.inward := by
  obtain ⟨d, s⟩ := e
  cases s with
  | access step x =>
    cases step with
    | deref =>
      cases h
      exact List.mem_cons_self
    | _ => cases h
  | clobber | moment | value =>
    cases h
    exact List.mem_cons_self
  | _ => cases h

theorem read?_of_isSome_dereferenced? {e : Expr} (h : e.dereferenced?.isSome = true) : e.read? = e.target? := by
  obtain ⟨d, s⟩ := e
  cases s with
  | access step x =>
    cases step with
    | deref => rfl
    | _ => cases h
  | _ => cases h

theorem pointer?_cases (e : Expr) :
    e.pointer? = e.target? ∧ e.isRvalue = false ∨
      e.isRvalue = true ∧ e.target? = none ∧ e.dereferenced? = none ∧ ∀ p ∈ e.pointer?, p ∈ e.inward := by
  obtain ⟨d, s⟩ := e
  cases s with
  | int | float => exact .inr ⟨rfl, rfl, rfl, fun _ hp => by cases hp⟩
  | unary op w x =>
    refine .inr ⟨rfl, rfl, rfl, fun p hp => ?_⟩
    cases op <;> cases hp
    exact List.mem_cons_self
  | binary op w stride l r =>
    refine .inr ⟨rfl, rfl, rfl, fun p hp => ?_⟩
    cases op <;> cases hp <;> exact List.mem_cons_self
  | _ => exact .inl ⟨rfl, rfl⟩

end Expr

namespace Search

/-- A variable of one activation of a function, or a placeholder. -/
def OffHeap (e : Expr) : Prop :=
  (∃ v, e.shape = .var v ∧
    (v.storage = .argument ∨ v.storage = .local ∨ v.storage = .temporary ∨ v.storage = .result)) ∨
  (∃ lval kind point relative, e.shape = .value lval kind point relative) ∨
  (∃ point, e.shape = .guard point) ∨
  ∃ inner id, e.shape = .frame inner id

theorem isOffHeap_iff (e : Expr) : isOffHeap e = true ↔ OffHeap e := by
  obtain ⟨d, s⟩ := e
  cases s with
  | var v =>
    have hstorage : isOffHeap (.node d (.var v)) = true ↔
        v.storage = .argument ∨ v.storage = .local ∨ v.storage = .temporary ∨ v.storage = .result := by
      unfold isOffHeap
      cases hs : v.storage <;> simp [hs]
    simp [hstorage, OffHeap]
  | _ => simp [isOffHeap, OffHeap, Expr.group, Shape.group]

theorem offHeap_of_placeholder {e : Expr} (h : e.group = .placeholder) : OffHeap e := by
  obtain ⟨d, s⟩ := e
  cases s <;> simp_all [OffHeap, Expr.group, Shape.group]

namespace Invariant

variable {type : Option String} {object : Option Expr} {f : Formula} {i : Invariant}

def stated (type : Option String) (object : Option Expr) (f : Formula) : Except Fault Formula :=
  match type with
  | some _ => relocate object (some Expr.receiverObject) f
  | none => .ok f

def Shallow (e : Expr) : Prop :=
  ∀ a, Walk.Scope.lvalues.Leads e a → ∀ t, a.read? = some t → t.derefCount ≤ 1

theorem readsDeep_eq_false_iff (f : Formula) : readsDeep f = false ↔ ∀ e ∈ f.terms, Shallow e := by
  rw [readsDeep, List.any_eq_false]
  simp only [decide_eq_true_eq, Nat.not_lt, Walk.mem_locations_iff]
  constructor
  · exact fun h e he a ha t ht => h t ⟨e, he, a, ha, ht⟩
  · rintro h t ⟨e, he, a, ha, ht⟩
    exact h e he a ha t ht

theorem make?_eq (type : Option String) (object : Option Expr) (f : Formula) :
    make? type object f = (stated type object f).map fun g =>
      if Walk.mentions isOffHeap g || readsDeep g then none else some ⟨type, g⟩ := by
  cases type with
  | none =>
    simp only [make?, heapFormula?, relocate, stated, bind, Except.bind, pure, Except.pure, Except.map]
    cases Walk.mentions isOffHeap f <;> simp
  | some owner =>
    simp only [make?, heapFormula?, stated, bind, Except.bind, pure, Except.pure, Except.map]
    cases relocate object (some Expr.receiverObject) f with
    | error fault => rfl
    | ok g => cases hg : Walk.mentions isOffHeap g <;> simp [hg]

theorem make?_eq_some_iff : make? type object f = .ok (some i) ↔
    i.type = type ∧ stated type object f = .ok i.formula ∧
      (∀ e ∈ i.formula.terms, ∀ a, e.Reaches a → isOffHeap a = false) ∧ ∀ e ∈ i.formula.terms, Shallow e := by
  rw [make?_eq, ← Walk.mentions_eq_false_iff, ← readsDeep_eq_false_iff]
  obtain ⟨owner, g⟩ := i
  cases stated type object f with
  | error fault => simp [Except.map]
  | ok h =>
    simp only [Except.map, Except.ok.injEq]
    constructor
    · intro hmade
      split at hmade
      · cases hmade
      · rename_i hclean
        cases hmade
        simpa using hclean
    · rintro ⟨rfl, rfl, hheap, hdeep⟩
      simp [hheap, hdeep]

theorem terms_nonzero (e : Expr) : (Formula.of (.nonzero e)).terms = [e] := by rw [Formula.of, Formula.terms]

theorem mem_terms_nonzero (e : Expr) : e ∈ (Formula.of (.nonzero e)).terms := by
  rw [terms_nonzero]
  exact List.mem_singleton_self e

theorem make?_nonzero {e : Expr} (hheap : ∀ a, Walk.Scope.all.Leads e a → isOffHeap a = false)
    (hshallow : Shallow e) :
    make? type none (.of (.nonzero e)) = .ok (some ⟨type, .of (.nonzero e)⟩) := by
  have hstated : stated type none (.of (.nonzero e)) = .ok (.of (.nonzero e)) := by cases type <;> rfl
  rw [make?_eq_some_iff, terms_nonzero]
  refine ⟨rfl, hstated, List.forall_mem_singleton.2 fun a ha => hheap a (Walk.leads_all_iff.2 ha), ?_⟩
  exact List.forall_mem_singleton.2 hshallow

section Concealment

variable {a e : Expr}

/-- A node that is off the heap although none in reach is: it stands below a part that is not walked. -/
theorem exists_concealing (hreach : ∀ b, e.Reaches b → isOffHeap b = false) (ha : a.Occurs e)
    (hoff : OffHeap a) :
    ∃ m, e.Reaches m ∧ (m.group = .modifier ∨ m.isTerminator = true) ∧
      ∃ c ∈ m.parts, c ∉ m.children ∧ a.Occurs c := by
  induction ha with
  | self => exact absurd ((isOffHeap_iff a).2 hoff) (ne_true_of_eq_false (hreach a (.refl a)))
  | @part e c mem occurs ih =>
    by_cases hc : c ∈ e.children
    · obtain ⟨m, hm, hconcealing⟩ := ih fun b hb => hreach b (.child hc hb)
      exact ⟨m, .child hc hm, hconcealing⟩
    · refine ⟨e, .refl e, ?_, c, mem, hc, occurs⟩
      rcases Expr.mem_children_of_mem_parts mem with hchild | hmodifier | hterminator | hplaceholder
      · exact absurd hchild hc
      · exact .inl hmodifier
      · exact .inr hterminator
      · have hhere := (isOffHeap_iff e).2 (offHeap_of_placeholder hplaceholder)
        exact absurd hhere (ne_true_of_eq_false (hreach e (.refl e)))

/-- What an invariant mentions is on the heap, except below a modifier or in the test of a terminator. -/
theorem offHeap_only_concealed (made : make? type object f = .ok (some i)) (he : e ∈ i.formula.terms)
    (ha : a.Occurs e) (hoff : OffHeap a) :
    ∃ m, e.Reaches m ∧ (m.group = .modifier ∨ m.isTerminator = true) ∧
      ∃ c ∈ m.parts, c ∉ m.children ∧ a.Occurs c := by
  obtain ⟨-, -, hheap, -⟩ := make?_eq_some_iff.1 made
  exact exists_concealing (hheap e he) ha hoff

def offsetTest : Expr :=
  .of (.index (.of .empty) (.int 1 true) (.of (.access .deref (.var (.ofLocal "x")))))

def terminatedBuffer : Expr := .of (.terminator (some (.var (.ofGlobal "g"))) (.int 1 true) offsetTest (.int 0))

theorem offHeap_local (name : String) : OffHeap (.var (.ofLocal name)) := .inl ⟨_, rfl, .inr (.inl rfl)⟩

theorem offHeap_only_concealed_of_terminator :
    Expr.terminator (some (.var (.ofGlobal "g"))) (.int 1 true) offsetTest (.int 0) = .ok terminatedBuffer ∧
    make? none none (.of (.nonzero terminatedBuffer)) = .ok (some ⟨none, .of (.nonzero terminatedBuffer)⟩) ∧
    (Expr.var (.ofLocal "x")).Occurs terminatedBuffer ∧ OffHeap (.var (.ofLocal "x")) ∧
    ∃ m, terminatedBuffer.Reaches m ∧ (m.group = .modifier ∨ m.isTerminator = true) ∧
      ∃ c ∈ m.parts, c ∉ m.children ∧ (Expr.var (.ofLocal "x")).Occurs c := by
  have made : make? none none (.of (.nonzero terminatedBuffer)) =
      .ok (some ⟨none, .of (.nonzero terminatedBuffer)⟩) := by
    refine make?_nonzero ?_ ?_
    · refine Walk.forall_leads rfl (List.forall_mem_singleton.2 ?_)
      exact Walk.forall_leads rfl (List.forall_mem_nil _)
    · refine Walk.forall_leads (fun t ht => by cases ht) (List.forall_mem_singleton.2 ?_)
      exact Walk.forall_leads (fun t ht => by cases ht) (List.forall_mem_nil _)
  have hoccurs : (Expr.var (.ofLocal "x")).Occurs terminatedBuffer := by
    have hread : (Expr.var (.ofLocal "x")).Occurs (.of (.access .deref (.var (.ofLocal "x")))) :=
      .part (List.mem_singleton_self _) .self
    have htest : (Expr.var (.ofLocal "x")).Occurs offsetTest :=
      .part (List.mem_cons_of_mem _ (List.mem_singleton_self _)) hread
    exact .part (List.mem_cons_of_mem _ List.mem_cons_self) htest
  refine ⟨rfl, made, hoccurs, offHeap_local "x", ?_⟩
  exact offHeap_only_concealed made (mem_terms_nonzero _) hoccurs (offHeap_local "x")

/-- The value that a local variable has at the exit is accepted, as nothing looks below it. -/
theorem local_occurs_in_exit_invariant :
    ∃ e, Expr.exit (.var (.ofLocal "x")) none = .ok e ∧
      make? none none (Formula.nonzero e) = .ok (some ⟨none, Formula.nonzero e⟩) ∧
      e ∈ (Formula.nonzero e).terms ∧ (Expr.var (.ofLocal "x")).Occurs e ∧ OffHeap (.var (.ofLocal "x")) := by
  refine ⟨.of (.moment .exit (.var (.ofLocal "x")) none), rfl, ?_⟩
  rw [Formula.nonzero_of (by simp) (by simp)]
  refine ⟨make?_nonzero ?_ ?_, mem_terms_nonzero _, .part List.mem_cons_self .self, offHeap_local "x"⟩
  · exact Walk.forall_leads rfl (List.forall_mem_nil _)
  · refine Walk.forall_leads (fun t ht => ?_) (List.forall_mem_singleton.2 ?_)
    · cases ht
      exact Nat.zero_le 1
    · exact Walk.forall_leads (fun t ht => by cases ht) (List.forall_mem_nil _)

end Concealment

section Depth

variable {e a t : Expr}

theorem Shallow.next {c : Expr} (h : Shallow e) (hc : c ∈ e.inward) : Shallow c :=
  fun a ha t ht => h a (.next hc ha) t ht

theorem Shallow.leads (h : Shallow e) (ha : Walk.Scope.lvalues.Leads e a) : Shallow a := by
  induction ha with
  | refl => exact h
  | next mem _ ih => exact ih (h.next mem)

theorem Shallow.derefCount_le (h : Shallow e) : e.derefCount ≤ 2 := by
  induction e using Expr.inductionOnParts with
  | step e ih =>
    rw [Expr.derefCount_eq]
    cases ht : e.target? with
    | none => simp; split <;> omega
    | some t =>
      rw [Option.map_some, Option.getD_some]
      split
      · rename_i hderef
        have hle := h e (.refl e) t ((Expr.read?_of_isSome_dereferenced? hderef).trans ht)
        omega
      · exact ih t (Expr.mem_parts_of_target? ht) (h.next (Expr.mem_inward_of_target? ht))

/-- Each pointer that is computed may hide two dereferences. -/
theorem Shallow.pointerDerefs_le (h : Shallow e) : e.pointerDerefs ≤ e.derefCount + 2 * e.detours := by
  induction e using Expr.inductionOnParts with
  | step e ih =>
    rw [Expr.pointerDerefs_eq, Expr.derefCount_eq, Expr.detours_eq]
    rcases e.pointer?_cases with ⟨hsame, hlocation⟩ | ⟨hcomputed, hend, hderef, hinward⟩
    · rw [hsame, hlocation]
      cases ht : e.target? with
      | none => simp
      | some t =>
        have hle := ih t (Expr.mem_parts_of_target? ht) (h.next (Expr.mem_inward_of_target? ht))
        simp only [Option.map_some, Option.getD_some, Bool.false_and, Bool.false_eq_true, if_false]
        omega
    · rw [hend, hcomputed, hderef]
      cases hp : e.pointer? with
      | none => simp
      | some p =>
        have hmem := hinward p hp
        have hle := ih p (@Walk.mem_parts_of_mem_next .lvalues _ _ hmem) (h.next hmem)
        have htwo := (h.next hmem).derefCount_le
        simp only [Option.map_some, Option.map_none, Option.getD_some, Option.getD_none, Option.isSome_none,
          Option.isSome_some, Bool.and_self, Bool.false_eq_true, if_true, if_false]
        omega

/-- The locations that an invariant reads are one dereference away, as far as pointers that are not computed
go: each one that is may add two. -/
theorem reads_near_of_accepted (made : make? type object f = .ok (some i)) (he : e ∈ i.formula.terms)
    (ha : Walk.Scope.lvalues.Leads e a) (ht : a.read? = some t) :
    t.derefCount ≤ 1 ∧ t.pointerDerefs ≤ t.derefCount + 2 * t.detours := by
  obtain ⟨-, -, -, hshallow⟩ := make?_eq_some_iff.1 made
  refine ⟨hshallow e he a ha t ht, ?_⟩
  have hnear : Shallow a := Shallow.leads (hshallow e he) ha
  exact (hnear.next (Expr.mem_inward_of_read? ht)).pointerDerefs_le

def globalPointee : Expr := .of (.access .deref (.var (.ofGlobal "g")))

def nextField : Field := ⟨"next", "node", .pointer (.aggregate "node")⟩

def globalMember : Expr := .of (.access (.field nextField) globalPointee)

def globalSuccessor : Expr :=
  .of (.binary .pointerAdd .unbounded (some (.aggregate "node")) (.of (.access .deref globalPointee)) (.int 1))

theorem forall_leads_globalPointee {p : Expr → Prop} (hpointee : p globalPointee)
    (hvar : p (.var (.ofGlobal "g"))) {scope : Walk.Scope} : ∀ a, scope.Leads globalPointee a → p a := by
  refine Walk.forall_leads hpointee ?_
  cases scope <;>
    exact List.forall_mem_singleton.2 (Walk.forall_leads hvar (List.forall_mem_nil _))

theorem reads_near_of_member :
    ∃ e i, Expr.deref globalMember = .ok e ∧ make? none none (Formula.nonzero e) = .ok (some i) ∧
      e ∈ i.formula.terms ∧ e.read? = some globalMember ∧
      globalMember.derefCount ≤ 1 ∧
      globalMember.pointerDerefs ≤ globalMember.derefCount + 2 * globalMember.detours := by
  have made : make? none none (Formula.of (.nonzero (.of (.access .deref globalMember)))) =
      .ok (some ⟨none, .of (.nonzero (.of (.access .deref globalMember)))⟩) := by
    refine make?_nonzero ?_ ?_
    · refine Walk.forall_leads rfl (List.forall_mem_singleton.2 ?_)
      refine Walk.forall_leads rfl (List.forall_mem_singleton.2 ?_)
      exact forall_leads_globalPointee (p := (isOffHeap · = false)) rfl rfl
    · refine Walk.forall_leads (fun t ht => by cases ht; exact Nat.le_refl 1) (List.forall_mem_singleton.2 ?_)
      refine Walk.forall_leads (fun t ht => by cases ht) (List.forall_mem_singleton.2 ?_)
      exact forall_leads_globalPointee (fun t ht => by cases ht; exact Nat.zero_le 1) (fun t ht => by cases ht)
  refine ⟨_, ⟨none, _⟩, rfl, ?_, mem_terms_nonzero _, rfl,
    reads_near_of_accepted made (mem_terms_nonzero _) (.refl _) rfl⟩
  rw [Formula.nonzero_of (by simp) (by simp)]
  exact made

/-- A pointer that is computed from what is two dereferences away is read through. -/
theorem reads_far_of_computed_pointer :
    ∃ e i, Expr.deref globalSuccessor = .ok e ∧ make? none none (Formula.nonzero e) = .ok (some i) ∧
      e ∈ i.formula.terms ∧ e.read? = some globalSuccessor ∧ globalSuccessor.pointerDerefs = 2 := by
  refine ⟨.of (.access .deref globalSuccessor), ⟨none, .of (.nonzero (.of (.access .deref globalSuccessor)))⟩,
    rfl, ?_, mem_terms_nonzero _, rfl, rfl⟩
  · rw [Formula.nonzero_of (by simp) (by simp)]
    refine make?_nonzero ?_ ?_
    · refine Walk.forall_leads rfl (List.forall_mem_singleton.2 ?_)
      refine Walk.forall_leads rfl (List.forall_mem_cons.2 ⟨?_, List.forall_mem_singleton.2 ?_⟩)
      · refine Walk.forall_leads rfl (List.forall_mem_singleton.2 ?_)
        exact forall_leads_globalPointee (p := (isOffHeap · = false)) rfl rfl
      · exact Walk.forall_leads rfl (List.forall_mem_nil _)
    · refine Walk.forall_leads (fun t ht => by cases ht; exact Nat.zero_le 1) (List.forall_mem_singleton.2 ?_)
      refine Walk.forall_leads (fun t ht => by cases ht)
        (List.forall_mem_cons.2 ⟨?_, List.forall_mem_singleton.2 ?_⟩)
      · refine Walk.forall_leads (fun t ht => by cases ht; exact Nat.le_refl 1) (List.forall_mem_singleton.2 ?_)
        exact forall_leads_globalPointee (fun t ht => by cases ht; exact Nat.zero_le 1) (fun t ht => by cases ht)
      · exact Walk.forall_leads (fun t ht => by cases ht) (List.forall_mem_nil _)

end Depth

end Invariant
end Search
end Retrace
