import Retrace.Proofs.Table.Liveness
import Mathlib.Data.List.Nodup

/-!
The buckets of a table, as a filing of ids under the digests of their cells. An entry may be stale, and
cells with the same digest share a bucket, but no id is filed twice. Writing a bucket and dropping
entries keep this up.
-/

set_option autoImplicit false

namespace Retrace.Table

/-- There is one bucket for a digest. It holds ids of cells with this digest, each once. -/
structure Filed (cells : Array Cell) (bs : List (Digest × List Nat)) : Prop where
  keys : (bs.map Prod.fst).Nodup
  nodup : ∀ b ∈ bs, b.2.Nodup
  digest : ∀ b ∈ bs, ∀ i ∈ b.2, cells[i]?.map Cell.digest = some b.1

def entries (bs : List (Digest × List Nat)) : List Nat := bs.flatMap Prod.snd

section Buckets

variable {cells : Array Cell} {bs : List (Digest × List Nat)} {d : Digest} {ids : List Nat}

theorem lookup_eq_some_iff_mem (h : (bs.map Prod.fst).Nodup) : bs.lookup d = some ids ↔ (d, ids) ∈ bs := by
  rw [List.lookup_eq_some_iff]
  constructor
  · rintro ⟨l, r, rfl, -⟩
    exact List.mem_append_right l List.mem_cons_self
  · intro hmem
    obtain ⟨l, r, rfl⟩ := List.append_of_mem hmem
    refine ⟨l, r, rfl, fun b hb => ?_⟩
    rw [List.map_append, List.nodup_append] at h
    have hne : b.1 ≠ d := h.2.2 b.1 (List.mem_map_of_mem hb) d List.mem_cons_self
    simpa using hne.symm

theorem mem_bucket_iff {t : Table} (h : (t.buckets.map Prod.fst).Nodup) {i : Nat} :
    i ∈ t.bucket d ↔ ∃ ids, (d, ids) ∈ t.buckets ∧ i ∈ ids := by
  simp only [← lookup_eq_some_iff_mem h, bucket]
  cases t.buckets.lookup d <;> simp

theorem mem_setBucket {b : Digest × List Nat} :
    b ∈ setBucket d ids bs ↔ b = (d, ids) ∨ b ∈ bs ∧ b.1 ≠ d := by
  unfold setBucket
  split
  · rename_i hfound
    obtain ⟨b₀, hb₀, hkey⟩ := List.lookup_isSome_iff.1 hfound
    rw [List.mem_map]
    constructor
    · rintro ⟨c, hc, rfl⟩
      split
      · exact .inl rfl
      · exact .inr ⟨hc, ‹c.1 ≠ d›⟩
    · rintro (rfl | ⟨hb, hne⟩)
      · exact ⟨b₀, hb₀, if_pos (eq_of_beq hkey).symm⟩
      · exact ⟨b, hb, if_neg hne⟩
  · rename_i hmissing
    have hnew : ∀ c ∈ bs, c.1 ≠ d := by
      intro c hc hkey
      exact hmissing (List.lookup_isSome_iff.2 ⟨c, hc, beq_iff_eq.2 hkey.symm⟩)
    rw [List.mem_cons]
    exact or_congr_right ⟨fun hb => ⟨hb, hnew b hb⟩, And.left⟩

theorem nodup_keys_setBucket (h : (bs.map Prod.fst).Nodup) : ((setBucket d ids bs).map Prod.fst).Nodup := by
  unfold setBucket
  split
  · have hkeys : (bs.map fun b => if b.1 = d then (d, ids) else b).map Prod.fst = bs.map Prod.fst := by
      rw [List.map_map]
      refine List.map_congr_left fun b _ => ?_
      by_cases hb : b.1 = d
      · simp [hb]
      · simp [hb]
    rw [hkeys]
    exact h
  · rename_i hmissing
    refine List.nodup_cons.2 ⟨fun hmem => ?_, h⟩
    obtain ⟨b, hb, hkey⟩ := List.mem_map.1 hmem
    exact hmissing (List.lookup_isSome_iff.2 ⟨b, hb, beq_iff_eq.2 hkey.symm⟩)

theorem mem_bucket_setBucket {t u : Table} (h : (t.buckets.map Prod.fst).Nodup)
    (hu : u.buckets = setBucket d ids t.buckets) {d' : Digest} {i : Nat} :
    i ∈ u.bucket d' ↔ d' = d ∧ i ∈ ids ∨ d' ≠ d ∧ i ∈ t.bucket d' := by
  rw [mem_bucket_iff (hu ▸ nodup_keys_setBucket h), mem_bucket_iff h, hu]
  simp only [mem_setBucket, Prod.mk.injEq]
  constructor
  · rintro ⟨js, ⟨hd, rfl⟩ | ⟨hmem, hne⟩, hi⟩
    · exact .inl ⟨hd, hi⟩
    · exact .inr ⟨hne, js, hmem, hi⟩
  · rintro (⟨hd, hi⟩ | ⟨hne, js, hmem, hi⟩)
    · exact ⟨ids, .inl ⟨hd, rfl⟩, hi⟩
    · exact ⟨js, .inr ⟨hmem, hne⟩, hi⟩

namespace Filed

theorem setBucket (h : Filed cells bs) (hids : ids.Nodup)
    (hd : ∀ i ∈ ids, cells[i]?.map Cell.digest = some d) : Filed cells (setBucket d ids bs) where
  keys := nodup_keys_setBucket h.keys
  nodup b hb := by
    rcases mem_setBucket.1 hb with rfl | ⟨hb, _⟩
    · exact hids
    · exact h.nodup b hb
  digest b hb := by
    rcases mem_setBucket.1 hb with rfl | ⟨hb, _⟩
    · exact hd
    · exact h.digest b hb

theorem push (h : Filed cells bs) (c : Cell) : Filed (cells.push c) bs where
  keys := h.keys
  nodup := h.nodup
  digest b hb i hi := by
    obtain ⟨c', hc', hdigest⟩ := Option.map_eq_some_iff.1 (h.digest b hb i hi)
    have hlt : i < cells.size := (Array.getElem?_eq_some_iff.1 hc').1
    rw [Array.getElem?_push, if_neg (Nat.ne_of_lt hlt), hc', Option.map_some, hdigest]

theorem filter (h : Filed cells bs) (p : Nat → Bool) :
    Filed cells ((bs.map fun b => (b.1, b.2.filter p)).filter fun b => !b.2.isEmpty) where
  keys := by
    have hkeys : (bs.map fun b => (b.1, b.2.filter p)).map Prod.fst = bs.map Prod.fst := by
      rw [List.map_map]
      rfl
    exact (hkeys ▸ h.keys).sublist (List.filter_sublist.map Prod.fst)
  nodup b hb := by
    obtain ⟨c, hc, rfl⟩ := List.mem_map.1 (List.mem_filter.1 hb).1
    exact (h.nodup c hc).filter p
  digest b hb i hi := by
    obtain ⟨c, hc, rfl⟩ := List.mem_map.1 (List.mem_filter.1 hb).1
    exact h.digest c hc i (List.mem_filter.1 hi).1

/-- An id is filed at most once in the whole table, since its digest tells which bucket it is in. -/
theorem nodup_entries (h : Filed cells bs) : (entries bs).Nodup := by
  refine List.nodup_flatMap.2 ⟨h.nodup, ?_⟩
  refine (List.pairwise_map.1 h.keys).imp_of_mem fun {b c} hb hc hne i hib hic => hne ?_
  have hdigest := (h.digest b hb i hib).symm.trans (h.digest c hc i hic)
  exact Option.some.inj hdigest

end Filed

theorem Filed.bucket {t : Table} (h : Filed t.cells t.buckets) (d : Digest) :
    (t.bucket d).Nodup ∧ ∀ i ∈ t.bucket d, t.cells[i]?.map Cell.digest = some d := by
  unfold Table.bucket
  cases hl : t.buckets.lookup d with
  | none => exact ⟨List.nodup_nil, nofun⟩
  | some ids =>
    have hmem := (lookup_eq_some_iff_mem h.keys).1 hl
    exact ⟨h.nodup _ hmem, h.digest _ hmem⟩

theorem mem_entries_of_mem_bucket {t : Table} {i : Nat} (h : (t.buckets.map Prod.fst).Nodup)
    (hi : i ∈ t.bucket d) : i ∈ entries t.buckets := by
  obtain ⟨ids, hmem, hi⟩ := (mem_bucket_iff h).1 hi
  exact List.mem_flatMap.2 ⟨(d, ids), hmem, hi⟩

theorem mem_bucket_purge {t : Table} (h : Filed t.cells t.buckets) {i : Nat} :
    i ∈ t.purge.bucket d ↔ i ∈ t.bucket d ∧ i ∈ t.live := by
  rw [mem_bucket_iff h.keys, mem_bucket_iff (h.filter (· ∈ t.live)).keys]
  constructor
  · rintro ⟨ids, hmem, hi⟩
    obtain ⟨⟨d, js⟩, hc, he⟩ := List.mem_map.1 (List.mem_filter.1 hmem).1
    cases he
    obtain ⟨hi, hlive⟩ := List.mem_filter.1 hi
    exact ⟨⟨js, hc, hi⟩, of_decide_eq_true hlive⟩
  · rintro ⟨⟨ids, hmem, hi⟩, hlive⟩
    have hkept : i ∈ ids.filter (· ∈ t.live) := List.mem_filter.2 ⟨hi, decide_eq_true hlive⟩
    refine ⟨_, List.mem_filter.2 ⟨List.mem_map.2 ⟨(d, ids), hmem, rfl⟩, ?_⟩, hkept⟩
    rw [List.isEmpty_eq_false_iff_exists_mem.2 ⟨i, hkept⟩]
    rfl

end Buckets
end Retrace.Table
