import Retrace.Table.Basic
import Mathlib.Tactic.Common

/-!
Live nodes. A node is live if a handle refers to it or a live node has it as a part. Parts are made
before the node they belong to, so one pass over the ids, from the last one down, finds all live nodes.
-/

set_option autoImplicit false

namespace Retrace.Table

/-- Nodes that can be reached from a handle, going from a node to its parts. -/
inductive Live (t : Table) : Nat → Prop
  | handle {i : Nat} (held : i ∈ t.handles) : Live t i
  | part {i p : Nat} (whole : Live t i) (part : p ∈ t.partsOf i) : Live t p

def PartsFirst (t : Table) : Prop := ∀ i, ∀ p ∈ t.partsOf i, p < i

/-- Liveness carries over to a table that keeps the parts of all nodes and in which what was held is
live. -/
theorem Live.carry {t u : Table} (hh : ∀ i ∈ t.handles, u.Live i)
    (hp : ∀ i, t.partsOf i ⊆ u.partsOf i) {i : Nat} (h : t.Live i) : u.Live i := by
  induction h with
  | handle held => exact hh _ held
  | part _ part ih => exact .part ih (hp _ part)

theorem partsOf_of_size_le {t : Table} {i : Nat} (h : t.cells.size ≤ i) : t.partsOf i = [] := by
  rw [partsOf, Array.getElem?_eq_none h]
  rfl

theorem PartsFirst.live_lt {t : Table} (hp : t.PartsFirst) (hh : ∀ i ∈ t.handles, i < t.cells.size)
    {i : Nat} (h : t.Live i) : i < t.cells.size := by
  induction h with
  | handle held => exact hh _ held
  | part _ part ih => exact Nat.lt_trans (hp _ _ part) ih

theorem mem_insertId {ids : List Nat} {i j : Nat} : j ∈ insertId ids i ↔ j = i ∨ j ∈ ids := by
  unfold insertId
  split
  · exact ⟨.inr, fun h => h.elim (fun e => e ▸ ‹i ∈ ids›) id⟩
  · exact List.mem_cons

theorem mem_foldl_insertId {ps ids : List Nat} {j : Nat} :
    j ∈ ps.foldl insertId ids ↔ j ∈ ps ∨ j ∈ ids := by
  induction ps generalizing ids with
  | nil => simp
  | cons p ps ih => rw [List.foldl_cons, ih, mem_insertId, List.mem_cons, or_assoc, or_left_comm]

theorem mem_spread_step {t : Table} {n j : Nat} {ids : List Nat} :
    j ∈ (if n ∈ ids then (t.partsOf n).foldl insertId ids else ids) ↔
      n ∈ ids ∧ j ∈ t.partsOf n ∨ j ∈ ids := by
  split
  · simp [mem_foldl_insertId, *]
  · simp [*]

theorem mem_spread_of_mem {t : Table} {bound j : Nat} {ids : List Nat} (h : j ∈ ids) :
    j ∈ t.spread bound ids := by
  induction bound generalizing ids with
  | zero => exact h
  | succ n ih => exact ih (mem_spread_step.2 (.inr h))

theorem live_of_mem_spread {t : Table} {bound j : Nat} {ids : List Nat} (hids : ∀ i ∈ ids, t.Live i)
    (h : j ∈ t.spread bound ids) : t.Live j := by
  induction bound generalizing ids with
  | zero => exact hids j h
  | succ n ih =>
    refine ih (fun i hi => ?_) h
    rcases mem_spread_step.1 hi with ⟨hn, hpart⟩ | hi
    · exact .part (hids n hn) hpart
    · exact hids i hi

namespace PartsFirst

variable {t : Table}

/-- Ids from the bound on are not added any more: only parts of smaller ids are. -/
theorem mem_of_mem_spread (hp : t.PartsFirst) {bound j : Nat} {ids : List Nat} (hj : bound ≤ j)
    (h : j ∈ t.spread bound ids) : j ∈ ids := by
  induction bound generalizing ids with
  | zero => exact h
  | succ n ih =>
    rcases mem_spread_step.1 (ih (Nat.le_of_succ_le hj) h) with ⟨_, hpart⟩ | hj'
    · exact absurd (hp n j hpart) (by omega)
    · exact hj'

/-- The pass leaves nothing out: what it finds below the bound has its parts found. -/
theorem mem_spread_of_part (hp : t.PartsFirst) {bound i p : Nat} {ids : List Nat} (hi : i < bound)
    (h : i ∈ t.spread bound ids) (hpart : p ∈ t.partsOf i) : p ∈ t.spread bound ids := by
  induction bound generalizing ids with
  | zero => omega
  | succ n ih =>
    rcases Nat.lt_succ_iff_lt_or_eq.1 hi with hlt | rfl
    · exact ih hlt h
    · -- the step for `i` itself adds its parts, since later steps cannot add `i`
      have hmem : i ∈ ids := by
        rcases mem_spread_step.1 (hp.mem_of_mem_spread (Nat.le_refl i) h) with ⟨hi, _⟩ | hi <;> exact hi
      rw [spread]
      exact mem_spread_of_mem (mem_spread_step.2 (.inl ⟨hmem, hpart⟩))

theorem mem_live_iff (hp : t.PartsFirst) {i : Nat} : i ∈ t.live ↔ t.Live i := by
  constructor
  · refine live_of_mem_spread fun j hj => ?_
    rcases mem_foldl_insertId.1 hj with held | hj
    · exact .handle held
    · exact absurd hj List.not_mem_nil
  · intro h
    induction h with
    | handle held => exact mem_spread_of_mem (mem_foldl_insertId.2 (.inl held))
    | @part i p _ part ih =>
      rcases Nat.lt_or_ge i t.cells.size with hi | hi
      · exact hp.mem_spread_of_part hi ih part
      · rw [partsOf_of_size_le hi] at part
        exact absurd part List.not_mem_nil

end PartsFirst

theorem not_live_of_handles_eq_nil {t : Table} (h : t.handles = []) {i : Nat} : ¬ t.Live i := by
  intro hi
  induction hi with
  | handle held =>
    rw [h] at held
    exact absurd held List.not_mem_nil
  | part _ _ ih => exact ih

end Retrace.Table
