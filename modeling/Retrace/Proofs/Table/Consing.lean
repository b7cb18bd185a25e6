import Retrace.Proofs.Table.Buckets
import Retrace.Proofs.Table.Structure
import Mathlib.Data.Option.Basic

/-!
Hash consing. Whatever is interned, held, released and purged, live nodes of one structure are one node,
and each live node is filed once, under its digest. So interning finds a live node by comparing labels
and ids of parts only, and the filed live nodes are all the live nodes.
-/

set_option autoImplicit false

namespace Retrace.Table

structure Consed (t : Table) : Prop where
  partsFirst : t.PartsFirst
  handles_lt : ∀ i ∈ t.handles, i < t.cells.size
  formed : ∀ i < t.cells.size, (t.node? i).map Node.digest = some (t.digestOf i)
  filed : Filed t.cells t.buckets
  mem_bucket : ∀ i, t.Live i → i ∈ t.bucket (t.digestOf i)
  node?_inj : ∀ i j, t.Live i → t.Live j → t.node? i = t.node? j → i = j

theorem consed_empty : Consed {} where
  partsFirst _ _ hp := absurd hp List.not_mem_nil
  handles_lt _ hi := absurd hi List.not_mem_nil
  formed i hi := absurd hi (Nat.not_lt_zero i)
  filed := ⟨List.nodup_nil, nofun, nofun⟩
  mem_bucket _ hi := absurd hi (not_live_of_handles_eq_nil rfl)
  node?_inj _ _ hi := absurd hi (not_live_of_handles_eq_nil rfl)

def request (t : Table) (label : Label) (parts : List Nat) : Cell :=
  ⟨label, parts, label.digest (parts.map t.digestOf)⟩

namespace Consed

variable {t : Table}

theorem live_lt (h : t.Consed) {i : Nat} (hi : t.Live i) : i < t.cells.size :=
  h.partsFirst.live_lt h.handles_lt hi

theorem exists_node (h : t.Consed) {i : Nat} (hi : t.Live i) :
    ∃ n, t.node? i = some n ∧ n.digest = t.digestOf i :=
  Option.map_eq_some_iff.1 (h.formed i (h.live_lt hi))

theorem digestOf_eq (h : t.Consed) {i : Nat} {n : Node} (hi : t.Live i) (hn : t.node? i = some n) :
    t.digestOf i = n.digest := by
  obtain ⟨n', hn', hd⟩ := h.exists_node hi
  cases hn'.symm.trans hn
  exact hd.symm

theorem map_node?_inj (h : t.Consed) {ps qs : List Nat} (hps : ∀ p ∈ ps, t.Live p)
    (hqs : ∀ q ∈ qs, t.Live q) (he : ps.map t.node? = qs.map t.node?) : ps = qs := by
  induction ps generalizing qs with
  | nil => exact (List.map_eq_nil_iff.1 he.symm).symm
  | cons p ps ih =>
    cases qs with
    | nil => cases he
    | cons q qs =>
      rw [List.forall_mem_cons] at hps hqs
      obtain ⟨hfirst, hrest⟩ := List.cons.inj he
      rw [h.node?_inj p q hps.1 hqs.1 hfirst, ih hps.2 hqs.2 hrest]

theorem digest_request (h : t.Consed) {label : Label} {parts : List Nat} {n : Node}
    (hp : ∀ p ∈ parts, t.Live p) (hn : t.described? label parts = some n) :
    (t.request label parts).digest = n.digest := by
  obtain ⟨_, hparts, hdigest⟩ := described?_eq_some hn
  have hsome : (parts.map t.digestOf).map some = (n.parts.map Node.digest).map some := by
    calc (parts.map t.digestOf).map some
        = parts.map fun p => (t.node? p).map Node.digest := by
          rw [List.map_map]
          exact List.map_congr_left fun p hmem => (h.formed p (h.live_lt (hp p hmem))).symm
      _ = (parts.map t.node?).map (Option.map Node.digest) := by rw [List.map_map]; rfl
      _ = (n.parts.map Node.digest).map some := by rw [hparts, List.map_map, List.map_map]; rfl
  rw [request, hdigest, List.map_injective_iff.2 (Option.some_injective _) hsome]

/-- Nothing is lost by comparing the ids of parts: a live node of the structure that is asked for has the
cell that is asked for. -/
theorem cell_eq_request (h : t.Consed) {label : Label} {parts : List Nat} {n : Node} {j : Nat}
    (hp : ∀ p ∈ parts, t.Live p) (hn : t.described? label parts = some n) (hj : t.Live j)
    (hnode : t.node? j = some n) : t.cells[j]? = some (t.request label parts) := by
  obtain ⟨c, hc⟩ : ∃ c, t.cells[j]? = some c := ⟨_, Array.getElem?_eq_getElem (h.live_lt hj)⟩
  have hdescr := (h.partsFirst.node?_eq hc).symm.trans hnode
  obtain ⟨hlabel, hparts, _⟩ := described?_eq_some hn
  obtain ⟨hlabel', hparts', _⟩ := described?_eq_some hdescr
  have hlive : ∀ p ∈ c.parts, t.Live p := by
    intro p hmem
    refine .part hj ?_
    rw [partsOf, hc]
    exact hmem
  have hids : c.parts = parts := h.map_node?_inj hlive hp (hparts'.trans hparts.symm)
  have hdigest : c.digest = (t.request label parts).digest := by
    rw [h.digest_request hp hn, ← h.digestOf_eq hj hnode, digestOf, hc]
    rfl
  calc t.cells[j]?
      = some ⟨c.label, c.parts, c.digest⟩ := hc
    _ = some (t.request label parts) := by
      rw [hlabel'.symm.trans hlabel, hids, hdigest]
      rfl

end Consed

section Actions

variable {t u : Table}

theorem Live.of_cells_eq {i : Nat} (h : t.Live i) (hcells : t.cells = u.cells)
    (hh : ∀ i ∈ t.handles, u.Live i) : u.Live i := by
  refine h.carry hh fun j => ?_
  rw [partsOf, partsOf, hcells]
  exact List.Subset.refl _

theorem live_held_iff (hcells : u.cells = t.cells) {i : Nat} (hhandles : u.handles = i :: t.handles)
    (hi : t.Live i) {j : Nat} : u.Live j ↔ t.Live j := by
  constructor
  · refine fun hj => hj.of_cells_eq hcells fun k hk => ?_
    rw [hhandles, List.mem_cons] at hk
    rcases hk with rfl | hk
    · exact hi
    · exact .handle hk
  · refine fun hj => hj.of_cells_eq hcells.symm fun k hk => .handle ?_
    rw [hhandles]
    exact List.mem_cons_of_mem i hk

theorem live_release {i j : Nat} (h : (t.release i).Live j) : t.Live j :=
  h.of_cells_eq rfl fun _ hk => .handle (List.mem_of_mem_erase hk)

theorem live_purge_iff {j : Nat} : t.purge.Live j ↔ t.Live j :=
  ⟨fun h => h.of_cells_eq rfl fun _ hk => .handle hk, fun h => h.of_cells_eq rfl fun _ hk => .handle hk⟩

/-- As long as no cell is added and no node comes to life, only the buckets have to be looked at. -/
theorem Consed.of_cells_eq (h : t.Consed) (hcells : u.cells = t.cells) (hlive : ∀ i, u.Live i → t.Live i)
    (hfiled : Filed u.cells u.buckets) (hmem : ∀ i, u.Live i → i ∈ u.bucket (t.digestOf i)) :
    u.Consed := by
  obtain ⟨cells, buckets, handles⟩ := u
  cases hcells
  exact {
    partsFirst := h.partsFirst
    handles_lt := fun i hi => h.live_lt (hlive i (.handle hi))
    formed := h.formed
    filed := hfiled
    mem_bucket := hmem
    node?_inj := fun i j hi hj => h.node?_inj i j (hlive i hi) (hlive j hj) }

theorem Consed.hold (h : t.Consed) {i : Nat} (hi : t.Live i) : (t.hold i).Consed := by
  have hlive {j : Nat} : (t.hold i).Live j ↔ t.Live j :=
    live_held_iff (t := t) (u := t.hold i) rfl rfl hi
  exact h.of_cells_eq rfl (fun _ => hlive.1) h.filed fun j hj => h.mem_bucket j (hlive.1 hj)

theorem Consed.release (h : t.Consed) (i : Nat) : (t.release i).Consed :=
  h.of_cells_eq rfl (fun _ => live_release) h.filed fun j hj => h.mem_bucket j (live_release hj)

theorem Consed.purge (h : t.Consed) : t.purge.Consed := by
  refine h.of_cells_eq rfl (fun _ => live_purge_iff.1) (h.filed.filter _) fun i hi => ?_
  have hi := live_purge_iff.1 hi
  exact (mem_bucket_purge h.filed).2 ⟨h.mem_bucket i hi, h.partsFirst.mem_live_iff.2 hi⟩

end Actions

section Interning

variable {t : Table}

def kept (t : Table) (d : Digest) : List Nat := (t.bucket d).filter (· ∈ t.live)

def reuse (t : Table) (d : Digest) (i : Nat) : Table :=
  { t with buckets := setBucket d (t.kept d) t.buckets, handles := i :: t.handles }

def extend (t : Table) (c : Cell) : Table :=
  ⟨t.cells.push c, setBucket c.digest (t.kept c.digest ++ [t.cells.size]) t.buckets,
    t.cells.size :: t.handles⟩

/-- Interning returns a kept node with the cell that is asked for, or there is none and one is made. -/
theorem intern_cases (t : Table) (label : Label) (parts : List Nat) :
    let c := t.request label parts
    (∃ i ∈ t.kept c.digest, t.cells[i]? = some c ∧ t.intern label parts = (i, t.reuse c.digest i)) ∨
    (∀ i ∈ t.kept c.digest, t.cells[i]? ≠ some c) ∧
      t.intern label parts = (t.cells.size, t.extend c) := by
  intro c
  generalize hr : t.intern label parts = r
  simp only [intern] at hr
  split at hr
  · rename_i i hfound
    have hcell := List.find?_some hfound
    exact .inl ⟨i, List.mem_of_find?_eq_some hfound, of_decide_eq_true hcell, hr.symm⟩
  · rename_i hnone
    refine .inr ⟨fun i hi hcell => ?_, hr.symm⟩
    exact List.find?_eq_none.1 hnone i hi (decide_eq_true hcell)

theorem Consed.mem_kept_iff (h : t.Consed) {d : Digest} {i : Nat} :
    i ∈ t.kept d ↔ i ∈ t.bucket d ∧ t.Live i := by
  rw [kept, List.mem_filter, decide_eq_true_iff, h.partsFirst.mem_live_iff]

theorem Consed.filed_kept (h : t.Consed) (d : Digest) :
    (t.kept d).Nodup ∧ ∀ i ∈ t.kept d, t.cells[i]?.map Cell.digest = some d := by
  obtain ⟨hnodup, hdigest⟩ := h.filed.bucket d
  exact ⟨hnodup.filter _, fun i hi => hdigest i (List.mem_filter.1 hi).1⟩

theorem live_reuse_iff {d : Digest} {i j : Nat} (hi : t.Live i) : (t.reuse d i).Live j ↔ t.Live j :=
  live_held_iff (t := t) (u := t.reuse d i) rfl rfl hi

theorem Consed.reuse (h : t.Consed) (d : Digest) {i : Nat} (hi : t.Live i) : (t.reuse d i).Consed := by
  obtain ⟨hnodup, hdigest⟩ := h.filed_kept d
  refine h.of_cells_eq rfl (fun _ => (live_reuse_iff hi).1) (h.filed.setBucket hnodup hdigest) ?_
  intro j hj
  have hj := (live_reuse_iff hi).1 hj
  refine (mem_bucket_setBucket h.filed.keys rfl).2 ?_
  by_cases hd : t.digestOf j = d
  · exact .inl ⟨hd, h.mem_kept_iff.2 ⟨hd ▸ h.mem_bucket j hj, hj⟩⟩
  · exact .inr ⟨hd, h.mem_bucket j hj⟩

theorem getElem?_extend (c : Cell) (i : Nat) :
    (t.extend c).cells[i]? = if i = t.cells.size then some c else t.cells[i]? :=
  Array.getElem?_push

theorem partsOf_extend (c : Cell) (i : Nat) :
    (t.extend c).partsOf i = if i = t.cells.size then c.parts else t.partsOf i := by
  rw [partsOf, getElem?_extend]
  split <;> rfl

theorem digestOf_extend (c : Cell) (i : Nat) :
    (t.extend c).digestOf i = if i = t.cells.size then c.digest else t.digestOf i := by
  rw [digestOf, getElem?_extend]
  split <;> rfl

theorem size_extend (t : Table) (c : Cell) : (t.extend c).cells.size = t.cells.size + 1 := Array.size_push c

theorem node?_extend (c : Cell) {i : Nat} (hi : i < t.cells.size) : (t.extend c).node? i = t.node? i :=
  nodeAt?_push c hi

theorem live_extend_iff {c : Cell} (hp : ∀ p ∈ c.parts, t.Live p) {i : Nat} :
    (t.extend c).Live i ↔ i = t.cells.size ∨ t.Live i := by
  constructor
  · intro hi
    induction hi with
    | handle held => exact (List.mem_cons.1 held).imp_right .handle
    | @part i p _ part ih =>
      rw [partsOf_extend] at part
      split at part
      · exact .inr (hp p part)
      · exact .inr (.part (ih.resolve_left ‹_›) part)
  · rintro (rfl | hi)
    · exact .handle List.mem_cons_self
    · refine hi.carry (fun j hj => .handle (List.mem_cons_of_mem _ hj)) fun j => ?_
      rw [partsOf_extend]
      split
      · rw [partsOf_of_size_le (Nat.le_of_eq ‹j = t.cells.size›.symm)]
        exact List.nil_subset _
      · exact List.Subset.refl _

namespace Consed

variable {c : Cell}

theorem partsFirst_extend (h : t.Consed) (hp : ∀ p ∈ c.parts, t.Live p) : (t.extend c).PartsFirst := by
  intro i p hpart
  rw [partsOf_extend] at hpart
  split at hpart
  · rename_i hi
    rw [hi]
    exact h.live_lt (hp p hpart)
  · exact h.partsFirst i p hpart

theorem node?_extend_size (h : t.Consed) (hp : ∀ p ∈ c.parts, t.Live p) :
    (t.extend c).node? t.cells.size = t.described? c.label c.parts := by
  have hcell : (t.extend c).cells[t.cells.size]? = some c := by rw [getElem?_extend, if_pos rfl]
  rw [(h.partsFirst_extend hp).node?_eq hcell, described?, described?,
    mapM_congr fun p hmem => node?_extend c (h.live_lt (hp p hmem))]

theorem filed_extend (h : t.Consed) (c : Cell) : Filed (t.extend c).cells (t.extend c).buckets := by
  obtain ⟨hnodup, hdigest⟩ := h.filed_kept c.digest
  have hlt : ∀ i ∈ t.kept c.digest, i < t.cells.size := fun i hi => h.live_lt (h.mem_kept_iff.1 hi).2
  refine (h.filed.push c).setBucket ?_ fun i hi => ?_
  · rw [List.nodup_append]
    refine ⟨hnodup, List.nodup_singleton _, fun i hi j hj => ?_⟩
    rw [List.mem_singleton.1 hj]
    exact Nat.ne_of_lt (hlt i hi)
  · rw [Array.getElem?_push]
    rcases List.mem_append.1 hi with hi | hi
    · rw [if_neg (Nat.ne_of_lt (hlt i hi))]
      exact hdigest i hi
    · rw [if_pos (List.mem_singleton.1 hi)]
      rfl

theorem mem_bucket_extend (h : t.Consed) {i : Nat} (hi : i = t.cells.size ∨ t.Live i) :
    i ∈ (t.extend c).bucket ((t.extend c).digestOf i) := by
  rw [digestOf_extend]
  refine (mem_bucket_setBucket h.filed.keys rfl).2 ?_
  rcases hi with rfl | hi
  · rw [if_pos rfl]
    exact .inl ⟨rfl, List.mem_append_right _ (List.mem_singleton_self _)⟩
  · rw [if_neg (Nat.ne_of_lt (h.live_lt hi))]
    by_cases he : t.digestOf i = c.digest
    · refine .inl ⟨he, List.mem_append_left _ (h.mem_kept_iff.2 ⟨?_, hi⟩)⟩
      exact he ▸ h.mem_bucket i hi
    · exact .inr ⟨he, h.mem_bucket i hi⟩

theorem extend (h : t.Consed) (hp : ∀ p ∈ c.parts, t.Live p) {n : Node}
    (hn : t.described? c.label c.parts = some n) (hd : c.digest = n.digest)
    (hnew : ∀ j, t.Live j → t.node? j ≠ some n) : (t.extend c).Consed where
  partsFirst := h.partsFirst_extend hp
  handles_lt i hi := by
    rw [size_extend]
    rcases List.mem_cons.1 hi with rfl | hi
    · exact Nat.lt_succ_self _
    · exact Nat.lt_succ_of_lt (h.handles_lt i hi)
  formed i hi := by
    rw [size_extend] at hi
    rw [digestOf_extend]
    rcases Nat.lt_succ_iff_lt_or_eq.1 hi with hi | rfl
    · rw [node?_extend c hi, if_neg (Nat.ne_of_lt hi)]
      exact h.formed i hi
    · rw [h.node?_extend_size hp, hn, if_pos rfl, Option.map_some, hd]
  filed := h.filed_extend c
  mem_bucket i hi := h.mem_bucket_extend ((live_extend_iff hp).1 hi)
  node?_inj i j hi hj he := by
    -- an old and the new node cannot have one structure, so both are old or both are new
    have hnode : (t.extend c).node? t.cells.size = some n := (h.node?_extend_size hp).trans hn
    rcases (live_extend_iff hp).1 hi with rfl | hi
    · rcases (live_extend_iff hp).1 hj with rfl | hj
      · rfl
      · rw [hnode, node?_extend c (h.live_lt hj)] at he
        exact absurd he.symm (hnew j hj)
    · rcases (live_extend_iff hp).1 hj with rfl | hj
      · rw [hnode, node?_extend c (h.live_lt hi)] at he
        exact absurd he (hnew i hi)
      · rw [node?_extend c (h.live_lt hi), node?_extend c (h.live_lt hj)] at he
        exact h.node?_inj i j hi hj he

/-- What interning does in a table of this kind, stale and colliding entries or not. -/
theorem intern (h : t.Consed) {label : Label} {parts : List Nat} {n : Node}
    (hp : ∀ p ∈ parts, t.Live p) (hn : t.described? label parts = some n) :
    let i := (t.intern label parts).1
    let u := (t.intern label parts).2
    u.Consed ∧ u.node? i = some n ∧ (∀ j, u.Live j ↔ j = i ∨ t.Live j) ∧
      ∀ j, t.Live j → u.node? j = t.node? j := by
  intro i u
  rcases t.intern_cases label parts with ⟨k, hk, hcell, he⟩ | ⟨hnone, he⟩
  · obtain ⟨rfl, hu⟩ : i = k ∧ u = t.reuse _ k :=
      ⟨congrArg Prod.fst he, congrArg Prod.snd he⟩
    have hlive := (h.mem_kept_iff.1 hk).2
    have hnode : t.node? i = some n := (h.partsFirst.node?_eq hcell).trans hn
    rw [hu]
    refine ⟨h.reuse _ hlive, hnode, fun j => ?_, fun j _ => rfl⟩
    rw [live_reuse_iff hlive]
    exact ⟨.inr, fun hj => hj.elim (fun e => e ▸ hlive) id⟩
  · obtain ⟨hi, hu⟩ : i = t.cells.size ∧ u = t.extend _ :=
      ⟨congrArg Prod.fst he, congrArg Prod.snd he⟩
    have hd := h.digest_request hp hn
    rw [hi, hu]
    refine ⟨h.extend hp hn hd fun j hj hnode => ?_, (h.node?_extend_size hp).trans hn,
      fun j => live_extend_iff hp, fun j hj => node?_extend _ (h.live_lt hj)⟩
    -- a live node of this structure would have been found
    have hcell := h.cell_eq_request hp hn hj hnode
    refine hnone j (h.mem_kept_iff.2 ⟨?_, hj⟩) hcell
    rw [hd, ← h.digestOf_eq hj hnode]
    exact h.mem_bucket j hj

end Consed
end Interning
end Retrace.Table
