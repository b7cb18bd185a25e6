import Retrace.Proofs.Table.Consing
import Mathlib.Data.Set.Card

/-!
Whole runs of a table: any sequence of interning, holding, releasing and purging that starts with the
empty table. Hash consing is an invariant of every run, so the number of live entries is the number of
live nodes at any time.
-/

set_option autoImplicit false

namespace Retrace.Table

inductive Action where
  | intern (label : Label) (parts : List Nat)
  | hold (i : Nat)
  | release (i : Nat)
  | purge

/-- The table after an action. Only live nodes are at hand as parts and for a further handle, and a
label goes with parts of the right number and kind. -/
def perform? (t : Table) : Action → Option Table
  | .intern label parts =>
    if (∀ p ∈ parts, p ∈ t.live) ∧ (t.described? label parts).isSome
    then some (t.intern label parts).2 else none
  | .hold i => if i ∈ t.live then some (t.hold i) else none
  | .release i => some (t.release i)
  | .purge => some t.purge

def run? (actions : List Action) : Option Table := actions.foldlM perform? {}

theorem Consed.perform? {t u : Table} (h : t.Consed) {a : Action} (ha : t.perform? a = some u) :
    u.Consed := by
  cases a with
  | intern label parts =>
    obtain ⟨⟨hlive, hdescr⟩, hu⟩ := Option.ite_none_right_eq_some.1 ha
    cases hu
    obtain ⟨n, hn⟩ := Option.isSome_iff_exists.1 hdescr
    exact (h.intern (fun p hp => h.partsFirst.mem_live_iff.1 (hlive p hp)) hn).1
  | hold i =>
    obtain ⟨hi, hu⟩ := Option.ite_none_right_eq_some.1 ha
    cases hu
    exact h.hold (h.partsFirst.mem_live_iff.1 hi)
  | release i =>
    cases ha
    exact h.release i
  | purge =>
    cases ha
    exact h.purge

theorem Consed.foldlM {t u : Table} (h : t.Consed) {actions : List Action}
    (hu : actions.foldlM Table.perform? t = some u) : u.Consed := by
  induction actions generalizing t with
  | nil =>
    cases hu
    exact h
  | cons a actions ih =>
    rw [List.foldlM_cons] at hu
    obtain ⟨v, hv, hrest⟩ := Option.bind_eq_some_iff.1 hu
    exact ih (h.perform? hv) hrest

theorem consed_of_run {actions : List Action} {t : Table} (h : run? actions = some t) : t.Consed :=
  consed_empty.foldlM h

section Counting

variable {t : Table}

theorem liveCount_eq (t : Table) : t.liveCount = ((entries t.buckets).filter (· ∈ t.live)).length :=
  List.countP_eq_length_filter

namespace Consed

theorem mem_entries (h : t.Consed) {i : Nat} (hi : t.Live i) : i ∈ entries t.buckets :=
  mem_entries_of_mem_bucket h.filed.keys (h.mem_bucket i hi)

/-- Every live node has one entry, so counting live entries counts live nodes. -/
theorem encard_live (h : t.Consed) : {i | t.Live i}.encard = t.liveCount := by
  have hset : {i | t.Live i} = (((entries t.buckets).filter (· ∈ t.live)).toFinset : Set Nat) := by
    ext i
    simp only [Set.mem_ofPred_eq, List.coe_toFinset, List.mem_filter, decide_eq_true_iff,
      h.partsFirst.mem_live_iff]
    exact ⟨fun hi => ⟨h.mem_entries hi, hi⟩, And.right⟩
  rw [hset, Set.encard_coe_eq_coe_finsetCard, liveCount_eq,
    List.toFinset_card_of_nodup (h.filed.nodup_entries.filter _)]

theorem liveCount_eq_of_live_iff {u : Table} (h : t.Consed) (hu : u.Consed)
    (hlive : ∀ i, u.Live i ↔ t.Live i) : u.liveCount = t.liveCount := by
  have hsets : {i | u.Live i} = {i | t.Live i} := Set.ext hlive
  have hcards : (u.liveCount : ℕ∞) = t.liveCount := by rw [← hu.encard_live, ← h.encard_live, hsets]
  exact Nat.cast_inj.1 hcards

theorem liveCount_of_handles_eq_nil (h : t.Consed) (hh : t.handles = []) : t.liveCount = 0 := by
  have hnone : {i | t.Live i} = ∅ := Set.eq_empty_of_forall_notMem fun _ => not_live_of_handles_eq_nil hh
  have hcard := h.encard_live
  rw [hnone, Set.encard_empty] at hcard
  exact (Nat.cast_inj.1 hcard).symm

theorem mem_entries_purge_iff (h : t.Consed) {i : Nat} : i ∈ entries t.purge.buckets ↔ t.Live i := by
  constructor
  · intro hi
    obtain ⟨b, hb, hi⟩ := List.mem_flatMap.1 hi
    obtain ⟨c, _, rfl⟩ := List.mem_map.1 (List.mem_filter.1 hb).1
    exact h.partsFirst.mem_live_iff.1 (of_decide_eq_true (List.mem_filter.1 hi).2)
  · exact fun hi => h.purge.mem_entries (live_purge_iff.2 hi)

theorem releaseAll (h : t.Consed) (ids : List Nat) : (ids.foldl Table.release t).Consed := by
  induction ids generalizing t with
  | nil => exact h
  | cons i ids ih => exact ih (h.release i)

end Consed

theorem handles_releaseAll {ids : List Nat} (h : t.handles = ids) : (ids.foldl release t).handles = [] := by
  induction ids generalizing t with
  | nil => exact h
  | cons i ids ih =>
    refine ih ?_
    change t.handles.erase i = ids
    rw [h, List.erase_cons_head]

end Counting

/-- Hash consing, after any run. Live nodes of one structure are one node. Each live node has one entry,
filed under its digest. Interning returns a node of the structure that is asked for: the live one, if
there is one; it brings no other node to life and takes none away. The live count is the number of live
nodes. Purging leaves entries of exactly the live nodes, and changes neither which nodes are live nor
their number, which is zero when all handles have been released. -/
theorem hashConsing_of_run {actions : List Action} {t : Table} (h : run? actions = some t) :
    (∀ i j, t.Live i → t.Live j → t.node? i = t.node? j → i = j) ∧
    (∀ i, t.Live i → (entries t.buckets).count i = 1 ∧
      ∃ n, t.node? i = some n ∧ i ∈ t.bucket n.digest) ∧
    (∀ label parts n, (∀ p ∈ parts, t.Live p) → t.described? label parts = some n →
      let i := (t.intern label parts).1
      let u := (t.intern label parts).2
      u.node? i = some n ∧ (∀ j, t.Live j → t.node? j = some n → j = i) ∧
      (∀ j, u.Live j ↔ j = i ∨ t.Live j) ∧ ∀ j, t.Live j → u.node? j = t.node? j) ∧
    {i | t.Live i}.encard = t.liveCount ∧
    (∀ i, i ∈ entries t.purge.buckets ↔ t.Live i) ∧
    (∀ i, (t.purge.Live i ↔ t.Live i) ∧ t.purge.node? i = t.node? i) ∧
    t.purge.liveCount = t.liveCount ∧
    (t.handles.foldl release t).liveCount = 0 := by
  have hc := consed_of_run h
  refine ⟨hc.node?_inj, fun i hi => ?_, fun label parts n hp hn => ?_, hc.encard_live,
    fun _ => hc.mem_entries_purge_iff, fun _ => ⟨live_purge_iff, rfl⟩,
    hc.liveCount_eq_of_live_iff hc.purge fun _ => live_purge_iff, ?_⟩
  · obtain ⟨n, hn, hd⟩ := hc.exists_node hi
    refine ⟨List.count_eq_one_of_mem hc.filed.nodup_entries (hc.mem_entries hi), n, hn, ?_⟩
    rw [hd]
    exact hc.mem_bucket i hi
  · obtain ⟨hu, hnode, hlive, hkeep⟩ := hc.intern hp hn
    refine ⟨hnode, fun j hj hjn => ?_, hlive, hkeep⟩
    -- both are live now, and of one structure
    refine hu.node?_inj j _ ((hlive j).2 (.inr hj)) ((hlive _).2 (.inl rfl)) ?_
    rw [hkeep j hj, hjn, hnode]
  · exact (hc.releaseAll t.handles).liveCount_of_handles_eq_nil (handles_releaseAll rfl)

def collidingRun : List Action :=
  [.intern (.expr (.int 30467907)) [], .intern (.expr (.int 146050599)) [], .intern .nonzero [1],
    .release 0, .release 1]

/-- Neither the stale entry of the first constant nor the live one of the second gets in the way. -/
theorem hashConsing_of_run_of_collision :
    ∃ t, run? collidingRun = some t ∧ t.bucket (Expr.of (.int 30467907)).digest = [0, 1] ∧
      (entries t.buckets).count 1 = 1 ∧
      (t.intern (.expr (.int 30467907)) []).2.node? (t.intern (.expr (.int 30467907)) []).1 =
        some (.expr (.of (.int 30467907))) ∧
      (t.intern (.expr (.int 146050599)) []).1 = 1 ∧ {i | t.Live i}.encard = 2 := by
  obtain ⟨t, ht⟩ : ∃ t, run? collidingRun = some t := Option.isSome_iff_exists.1 (by decide +kernel)
  have hfacts : ∀ t ∈ run? collidingRun,
      t.bucket (Expr.of (.int 30467907)).digest = [0, 1] ∧ 2 ∈ t.handles ∧ 1 ∈ t.partsOf 2 ∧
      t.described? (.expr (.int 30467907)) [] = some (.expr (.of (.int 30467907))) ∧
      t.described? (.expr (.int 146050599)) [] = some (.expr (.of (.int 146050599))) ∧
      t.node? 1 = some (.expr (.of (.int 146050599))) ∧ t.liveCount = 2 := by decide +kernel
  obtain ⟨hbucket, hheld, hpart, hfirst, hsecond, hnode, hcount⟩ := hfacts t ht
  obtain ⟨_, hentry, hintern, hencard, _⟩ := hashConsing_of_run ht
  have hlive : t.Live 1 := .part (.handle hheld) hpart
  have hnone : ∀ p ∈ ([] : List Nat), t.Live p := fun p hp => absurd hp List.not_mem_nil
  refine ⟨t, ht, hbucket, (hentry 1 hlive).1, (hintern _ _ _ hnone hfirst).1,
    ((hintern _ _ _ hnone hsecond).2.1 1 hlive hnode).symm, ?_⟩
  rw [hencard, hcount]
  rfl

end Retrace.Table
