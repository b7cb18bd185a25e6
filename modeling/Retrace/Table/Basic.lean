import Retrace.Formula.Basic

/-!
The table that keeps structurally equal nodes together. It refers to nodes weakly: a node is live as long
as a handle refers to it, or a live node that it is a part of. Entries of released nodes stay in their
bucket until the bucket is used again or the table is purged.
-/

set_option autoImplicit false

namespace Retrace

/-- What a node says, apart from its parts. -/
inductive Label where
  | expr (layer : Shape Unit)
  | const (value : Bool)
  | nonzero
  | not
  | junction (connective : Connective)
deriving DecidableEq

namespace Label

def digest : Label → List Digest → Digest
  | expr layer, ds => ((layer.fill? ds).map (Shape.feed id .start)).getD .start
  | const b, _ => (Digest.start.choice 0).flag b
  | nonzero, ds => ds.foldl (fun d p => d.word32 p.state.toNat) (Digest.start.choice 1)
  | not, ds => ds.foldl (fun d p => d.word32 p.state.toNat) (Digest.start.choice 2)
  | junction k, ds =>
    let rank := match k with
      | .all => 3
      | .any => 4
    (Digest.start.choice rank).sequence (fun d p => d.word32 p.state.toNat) ds

end Label

/-- A node in the table; parts are given by their ids. -/
structure Cell where
  label : Label
  parts : List Nat
  digest : Digest
deriving DecidableEq

structure Table where
  /-- All nodes that were ever made. The id of a node is its place. -/
  cells : Array Cell := #[]
  /-- The ids of the nodes with a digest, some of which may have been released. -/
  buckets : List (Digest × List Nat) := []
  /-- Outstanding handles; an id occurs as often as it is held. -/
  handles : List Nat := []

namespace Table

def partsOf (t : Table) (i : Nat) : List Nat := (t.cells[i]?.map Cell.parts).getD []

def digestOf (t : Table) (i : Nat) : Digest := (t.cells[i]?.map Cell.digest).getD .start

def insertId (ids : List Nat) (i : Nat) : List Nat := if i ∈ ids then ids else i :: ids

/-- Adds the parts of the ids below `bound`, going down: a node is made after its parts. -/
def spread (t : Table) : (bound : Nat) → List Nat → List Nat
  | 0, ids => ids
  | n + 1, ids => t.spread n (if n ∈ ids then (t.partsOf n).foldl insertId ids else ids)

def live (t : Table) : List Nat := t.spread t.cells.size (t.handles.foldl insertId [])

def bucket (t : Table) (d : Digest) : List Nat := (t.buckets.lookup d).getD []

def setBucket (d : Digest) (ids : List Nat) (bs : List (Digest × List Nat)) :
    List (Digest × List Nat) :=
  if (bs.lookup d).isSome then bs.map fun b => if b.1 = d then (d, ids) else b else (d, ids) :: bs

/-- A handle to the node with the given label and parts, which is made if it is not live. -/
def intern (t : Table) (label : Label) (parts : List Nat) : Nat × Table :=
  let d := label.digest (parts.map t.digestOf)
  let kept := (t.bucket d).filter (· ∈ t.live)
  match kept.find? fun i => t.cells[i]? = some ⟨label, parts, d⟩ with
  | some i => (i, { t with buckets := setBucket d kept t.buckets, handles := i :: t.handles })
  | none =>
    let i := t.cells.size
    (i, ⟨t.cells.push ⟨label, parts, d⟩, setBucket d (kept ++ [i]) t.buckets, i :: t.handles⟩)

def hold (t : Table) (i : Nat) : Table := { t with handles := i :: t.handles }

def release (t : Table) (i : Nat) : Table := { t with handles := t.handles.erase i }

def purge (t : Table) : Table :=
  let live := t.live
  { t with buckets :=
    (t.buckets.map fun b => (b.1, b.2.filter (· ∈ live))).filter fun b => !b.2.isEmpty }

def liveCount (t : Table) : Nat :=
  let live := t.live
  (t.buckets.flatMap Prod.snd).countP (· ∈ live)

end Table
end Retrace
