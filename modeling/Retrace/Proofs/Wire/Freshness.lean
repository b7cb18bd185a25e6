import Retrace.Wire.Transaction
import Mathlib.Data.List.Nodup

/-!
Transactions under any sequence of requests. Variables are named by counting, and a value can be assigned to any name,
whether a variable of that name has been handed out or not. So a new variable differs from all earlier ones, but it is
without a value only if nothing has been assigned to its name ahead of time.
-/

set_option autoImplicit false

namespace Retrace.Wire

inductive Request where
  | make
  | assign (name : Name) (o : Operand)
deriving DecidableEq

namespace Transaction

/-- The transaction after a request, and the variables that it has handed out. An assignment that is refused changes
nothing. -/
def serve? : Transaction × List Operand → Request → Option (Transaction × List Operand)
  | (t, made), .make => t.fresh?.map fun fresh => (fresh.2, made ++ [fresh.1])
  | (t, made), .assign name o => some ((t.assign name o).toOption.getD t, made)

def run? (rs : List Request) : Option (Transaction × List Operand) := rs.foldlM serve? ({}, [])

structure Served (rs : List Request) (t : Transaction) (made : List Operand) : Prop where
  created : t.created = rs.count .make
  named : ∀ x ∈ made, ∃ name, x = .variable name ∧ name.index ≤ t.created
  nodup : made.Nodup
  assigned : ∀ name v, (name, v) ∈ t.assignments ↔ .assign name (.value v) ∈ rs

variable {rs : List Request} {t : Transaction} {made : List Operand}

theorem fresh?_eq (h : t.created + 1 < UInt32.size) :
    t.fresh? = some (.variable ⟨t.created + 1, Nat.succ_pos _, h⟩, { t with created := t.created + 1 }) := by
  rw [fresh?, Name.ofNat?, dif_pos ⟨Nat.succ_pos _, h⟩, Option.map_some]

theorem lookup?_eq_none_iff {name : Name} : t.lookup? name = none ↔ ∀ v, (name, v) ∉ t.assignments := by
  rw [lookup?, List.lookup_eq_none_iff]
  constructor
  · intro h v hmem
    exact bne_iff_ne.1 (h (name, v) hmem) rfl
  · intro h p hp
    refine bne_iff_ne.2 fun heq => h p.2 ?_
    rw [heq]
    exact hp

theorem isVariable_of_instantiate? {o o' : Operand} (h : t.instantiate? o = some o') : o'.isVariable = false := by
  cases o with
  | «variable» name =>
    obtain ⟨v, -, rfl⟩ := Option.map_eq_some_iff.1 h
    rfl
  | value v =>
    cases h
    rfl

/-- The counter has passed the names of all variables that were handed out. -/
theorem Served.notMem (h : Served rs t made) {name : Name} (hname : t.created < name.index) :
    Operand.variable name ∉ made := by
  intro hmem
  obtain ⟨_, heq, hle⟩ := h.named _ hmem
  cases heq
  omega

theorem Served.instantiate?_eq_none_iff (h : Served rs t made) (name : Name) :
    t.instantiate? (.variable name) = none ↔ ∀ v, .assign name (.value v) ∉ rs := by
  rw [instantiate?, Option.map_eq_none_iff, lookup?_eq_none_iff]
  exact forall_congr' fun v => not_congr (h.assigned name v)

theorem Served.make (h : Served rs t made) (hnext : t.created + 1 < UInt32.size) :
    Served (rs ++ [.make]) { t with created := t.created + 1 }
      (made ++ [.variable ⟨t.created + 1, Nat.succ_pos _, hnext⟩]) where
  created := by rw [List.count_append, List.count_singleton_self, ← h.created]
  named := by
    intro x hx
    rcases List.mem_append.1 hx with hearlier | hnew
    · obtain ⟨name, hx, hle⟩ := h.named x hearlier
      exact ⟨name, hx, Nat.le_succ_of_le hle⟩
    · exact ⟨_, List.mem_singleton.1 hnew, Nat.le_refl _⟩
  nodup := by
    rw [← List.concat_eq_append]
    exact List.Nodup.concat (h.notMem (Nat.lt_succ_self _)) h.nodup
  assigned := by
    intro name v
    simp [h.assigned name v]

theorem Served.assign (h : Served rs t made) (name : Name) (o : Operand) :
    Served (rs ++ [.assign name o]) ((t.assign name o).toOption.getD t) made := by
  have hcount : (rs ++ [Request.assign name o]).count .make = rs.count .make := by simp
  cases o with
  | «variable» name' =>
    refine ⟨h.created.trans hcount.symm, h.named, h.nodup, fun n v => ?_⟩
    rw [List.mem_append, List.mem_singleton, ← h.assigned n v]
    simp [Transaction.assign, Except.toOption]
  | value w =>
    refine ⟨h.created.trans hcount.symm, h.named, h.nodup, fun n v => ?_⟩
    rw [List.mem_append, List.mem_singleton, ← h.assigned n v]
    simp [Transaction.assign, Except.toOption, or_comm]

theorem Served.foldlM (h : Served rs t made) {more : List Request} (hcount : (rs ++ more).count .make < UInt32.size) :
    ∃ t' made', more.foldlM serve? (t, made) = some (t', made') ∧ Served (rs ++ more) t' made' := by
  induction more generalizing rs t made with
  | nil => exact ⟨t, made, rfl, (List.append_nil rs).symm ▸ h⟩
  | cons r more ih =>
    rw [List.append_cons] at hcount ⊢
    cases r with
    | make =>
      have hnext : t.created + 1 < UInt32.size := by
        rw [List.count_append, List.count_append, List.count_singleton_self, ← h.created] at hcount
        omega
      rw [List.foldlM_cons, serve?, fresh?_eq hnext]
      exact ih (h.make hnext) hcount
    | assign name o =>
      rw [List.foldlM_cons, serve?]
      exact ih (h.assign name o) hcount

theorem served_nil : Served [] {} [] :=
  ⟨rfl, List.forall_mem_nil _, List.nodup_nil, fun _ _ => iff_of_false List.not_mem_nil List.not_mem_nil⟩

theorem exists_run? (hcount : rs.count .make < UInt32.size) : ∃ t made, run? rs = some (t, made) ∧ Served rs t made :=
  served_nil.foldlM hcount

/-- As long as there are names, a request for a variable is met with one that was not handed out before. It is without a
value exactly if none of the assignments so far named it, as is the case if they all named variables that had been
handed out. Values are never variables. -/
theorem variables_fresh (rs : List Request) (hcount : rs.count .make < UInt32.size) :
    (∃ t made, run? rs = some (t, made) ∧ made.Nodup ∧ ∀ o o', t.instantiate? o = some o' → o'.isVariable = false) ∧
    ∀ before after, rs = before ++ .make :: after →
      ∃ t made name t', run? before = some (t, made) ∧ t.fresh? = some (.variable name, t') ∧
        .variable name ∉ made ∧
        (t'.instantiate? (.variable name) = none ↔ ∀ v, .assign name (.value v) ∉ before) ∧
        ((∀ n v, .assign n (.value v) ∈ before → .variable n ∈ made) → t'.instantiate? (.variable name) = none) := by
  refine ⟨?_, fun before after hrs => ?_⟩
  · obtain ⟨t, made, hrun, hserved⟩ := exists_run? hcount
    exact ⟨t, made, hrun, hserved.nodup, fun _ _ => isVariable_of_instantiate?⟩
  · rw [hrs, List.count_append, List.count_cons_self] at hcount
    have hbefore : before.count .make < UInt32.size := by omega
    obtain ⟨t, made, hrun, hserved⟩ := exists_run? hbefore
    have hnext : t.created + 1 < UInt32.size := by
      rw [hserved.created]
      omega
    have hnew : .variable ⟨t.created + 1, Nat.succ_pos _, hnext⟩ ∉ made := hserved.notMem (Nat.lt_succ_self _)
    -- Handing out a variable leaves the assignments as they are.
    have hvalue := hserved.instantiate?_eq_none_iff ⟨t.created + 1, Nat.succ_pos _, hnext⟩
    refine ⟨t, made, _, _, hrun, fresh?_eq hnext, hnew, hvalue, fun hmade => ?_⟩
    exact hvalue.2 fun v hassign => hnew (hmade _ v hassign)

def firstName : Name := ⟨1, by decide, by decide⟩

theorem variables_fresh_of_second :
    ∃ t made name t', run? [.make, .assign firstName (.value (.flag true))] = some (t, made) ∧
      made = [.variable firstName] ∧ t.fresh? = some (.variable name, t') ∧ .variable name ∉ made ∧
      t'.instantiate? (.variable name) = none := by
  obtain ⟨t, made, name, t', hrun, hfresh, hnew, -, hvalue⟩ :=
    (variables_fresh [.make, .assign firstName (.value (.flag true)), .make] (by decide)).2
      [.make, .assign firstName (.value (.flag true))] [] rfl
  have hmade : made = [.variable firstName] := by
    cases hrun
    rfl
  refine ⟨t, made, name, t', hrun, hmade, hfresh, hnew, hvalue fun n v hassign => ?_⟩
  simp only [List.mem_cons, List.not_mem_nil, reduceCtorEq, Request.assign.injEq, false_or, or_false] at hassign
  rw [hmade, hassign.1]
  exact List.mem_singleton_self _

/-- A value that was assigned to the first name before any variable was handed out is the value of the first variable
from the start. -/
theorem assigned_ahead :
    ∃ t t', run? [.assign firstName (.value (.stamp 5))] = some (t, []) ∧
      t.fresh? = some (.variable firstName, t') ∧
      t'.instantiate? (.variable firstName) = some (.value (.stamp 5)) := ⟨_, _, rfl, rfl, rfl⟩

end Transaction
end Retrace.Wire
