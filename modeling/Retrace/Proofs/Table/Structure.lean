import Retrace.Proofs.Table.Liveness

/-!
The structure of a node in a table: the expression or formula that its label and the nodes of its parts
make up. Label and parts can be read off the structure again, and so can the digest, so a cell and the
structures of its parts say neither more nor less than the structure of its node.
-/

set_option autoImplicit false

namespace Retrace

section Optional

variable {α β : Type}

theorem mapM_eq_some_iff {f : α → Option β} {as : List α} {bs : List β} :
    as.mapM f = some bs ↔ as.map f = bs.map some := by
  induction as generalizing bs with
  | nil => cases bs <;> simp
  | cons a as ih =>
    rw [List.mapM_cons, List.map_cons]
    cases bs with
    | nil => cases f a <;> cases as.mapM f <;> simp
    | cons b bs =>
      rw [List.map_cons, List.cons.injEq, ← ih]
      cases f a <;> cases as.mapM f <;> simp

theorem mapM_eq_some_iff_eq_map {f : α → Option β} {g : β → α} (h : ∀ a b, f a = some b ↔ a = g b)
    {as : List α} {bs : List β} : as.mapM f = some bs ↔ as = bs.map g := by
  rw [mapM_eq_some_iff]
  induction as generalizing bs with
  | nil => cases bs <;> simp
  | cons a as ih => cases bs <;> simp [h, ih]

theorem mapM_congr {f g : α → Option β} {as : List α} (h : ∀ a ∈ as, f a = g a) :
    as.mapM f = as.mapM g := by
  induction as with
  | nil => rfl
  | cons a as ih =>
    have htail := ih fun b hb => h b (List.mem_cons_of_mem a hb)
    rw [List.mapM_cons, List.mapM_cons, h a List.mem_cons_self, htail]

end Optional

namespace Shape

variable {α : Type}

theorem fill?_eq_some_iff {l : Shape Unit} {ps : List α} {s : Shape α} :
    l.fill? ps = some s ↔ s.label = l ∧ s.parts = ps := by
  constructor
  · intro h
    unfold fill? at h
    split at h <;> cases h <;> exact ⟨rfl, rfl⟩
  · rintro ⟨rfl, rfl⟩
    exact fill?_label_parts s

/-- A layer can be taken apart, its parts replaced by their digests, and the digest formed then. -/
theorem feed_fill? (child : α → Digest) (d : Digest) (s : Shape α) :
    (s.label.fill? (s.parts.map child)).map (feed id d) = some (s.feed child d) := by
  -- both digests are spelled out once the kind of access and each optional part are known
  rcases s with _ | _ | _ | _ | _ | _ | ⟨_ | _ | _ | _, _⟩ | _ | _ | _ | ⟨_, _ | _, _, _⟩ |
    ⟨_ | _, _, _ | _⟩ | ⟨_, _ | _, _, _⟩ | _ | ⟨_, _ | _, _⟩ | ⟨_ | _, _, _, _⟩
  all_goals
    simp only [label, parts, List.map, fill?, feed, rank, width, Option.map, Option.toList, id,
      List.cons_append, List.nil_append, Digest.optional]

end Shape

inductive Node where
  | expr (e : Expr)
  | formula (f : Formula)
deriving DecidableEq

namespace Node

def expr? : Node → Option Expr
  | expr e => some e
  | formula _ => none

def formula? : Node → Option Formula
  | expr _ => none
  | formula f => some f

def digest : Node → Digest
  | expr e => e.digest
  | formula f => f.digest

theorem digest_of (c : Clause Formula) : digest (.formula (.of c)) = c.feed Formula.digest .start := rfl

def label : Node → Label
  | expr e => .expr e.shape.label
  | formula (.node _ (.const b)) => .const b
  | formula (.node _ (.nonzero _)) => .nonzero
  | formula (.node _ (.not _)) => .not
  | formula (.node _ (.junction k _)) => .junction k

def parts : Node → List Node
  | expr e => e.parts.map expr
  | formula (.node _ (.const _)) => []
  | formula (.node _ (.nonzero e)) => [expr e]
  | formula (.node _ (.not f)) => [formula f]
  | formula (.node _ (.junction _ fs)) => fs.map formula

theorem mapM_expr? {ns : List Node} {es : List Expr} : ns.mapM expr? = some es ↔ ns = es.map expr :=
  mapM_eq_some_iff_eq_map fun n e => by cases n <;> simp [expr?]

theorem mapM_formula? {ns : List Node} {fs : List Formula} :
    ns.mapM formula? = some fs ↔ ns = fs.map formula :=
  mapM_eq_some_iff_eq_map fun n f => by cases n <;> simp [formula?]

end Node

namespace Label

def assemble? : Label → List Node → Option Node
  | expr layer, ns => do
    let s ← layer.fill? (← ns.mapM Node.expr?)
    return .expr (.of s)
  | const b, [] => some (.formula (.of (.const b)))
  | nonzero, [.expr e] => some (.formula (.of (.nonzero e)))
  | not, [.formula f] => some (.formula (.of (.not f)))
  | junction k, ns => (ns.mapM Node.formula?).map fun fs => .formula (.of (.junction k fs))
  | _, _ => none

theorem digest_expr (s : Shape Expr) :
    (expr s.label).digest ((s.parts.map Node.expr).map Node.digest) = s.feed Expr.digest .start := by
  have hdigests : (s.parts.map Node.expr).map Node.digest = s.parts.map Expr.digest := List.map_map
  rw [digest, hdigests, Shape.feed_fill?]
  rfl

theorem digest_nonzero (e : Expr) :
    nonzero.digest ([.expr e].map Node.digest) = (Clause.nonzero e).feed Formula.digest .start := by
  simp only [digest, Node.digest, List.map, List.foldl, Clause.feed, Clause.rank]

theorem digest_not (f : Formula) :
    not.digest ([.formula f].map Node.digest) = (Clause.not f).feed Formula.digest .start := by
  simp only [digest, Node.digest, List.map, List.foldl, Clause.feed, Clause.rank]

theorem digest_junction (k : Connective) (fs : List Formula) :
    (junction k).digest ((fs.map Node.formula).map Node.digest) =
      (Clause.junction k fs).feed Formula.digest .start := by
  have hdigests : (fs.map Node.formula).map Node.digest = fs.map Formula.digest := List.map_map
  rw [hdigests]
  cases k <;>
    simp only [digest, Clause.feed, Clause.rank, Digest.sequence, List.foldl_map, List.length_map]

theorem assemble?_eq_some_iff {l : Label} {ns : List Node} {n : Node} :
    l.assemble? ns = some n ↔ n.label = l ∧ n.parts = ns ∧ n.digest = l.digest (ns.map Node.digest) := by
  constructor
  · intro h
    unfold assemble? at h
    split at h
    · obtain ⟨es, hes, h⟩ := Option.bind_eq_some_iff.1 h
      obtain ⟨s, hs, h⟩ := Option.bind_eq_some_iff.1 h
      cases h
      obtain ⟨rfl, rfl⟩ := Shape.fill?_eq_some_iff.1 hs
      rw [Node.mapM_expr?.1 hes]
      exact ⟨rfl, rfl, (digest_expr s).symm⟩
    · cases h
      exact ⟨rfl, rfl, rfl⟩
    · rename_i e
      cases h
      exact ⟨rfl, rfl, (Node.digest_of _).trans (digest_nonzero e).symm⟩
    · rename_i f
      cases h
      exact ⟨rfl, rfl, (Node.digest_of _).trans (digest_not f).symm⟩
    · obtain ⟨fs, hfs, h⟩ := Option.map_eq_some_iff.1 h
      cases h
      rw [Node.mapM_formula?.1 hfs]
      exact ⟨rfl, rfl, (Node.digest_of _).trans (digest_junction _ fs).symm⟩
    · cases h
  · rintro ⟨rfl, rfl, hd⟩
    cases n with
    | expr e =>
      obtain ⟨d, s⟩ := e
      have hd : d = s.feed Expr.digest .start := hd.trans (digest_expr s)
      have hes : (s.parts.map Node.expr).mapM Node.expr? = some s.parts := Node.mapM_expr?.2 rfl
      refine Option.bind_eq_some_iff.2 ⟨s.parts, hes, ?_⟩
      refine Option.bind_eq_some_iff.2 ⟨s, Shape.fill?_label_parts s, ?_⟩
      rw [hd]
      rfl
    | formula f =>
      obtain ⟨d, c⟩ := f
      cases c with
      | const b =>
        cases hd
        rfl
      | nonzero e =>
        cases hd.trans (digest_nonzero e)
        rfl
      | not g =>
        cases hd.trans (digest_not g)
        rfl
      | junction k fs =>
        cases hd.trans (digest_junction k fs)
        exact Option.map_eq_some_iff.2 ⟨fs, Node.mapM_formula?.2 rfl, rfl⟩

end Label

namespace Table

/-- The structure of a node among cells. A cell only has one if its parts are earlier cells. -/
def nodeAt? (cells : Array Cell) (i : Nat) : Option Node :=
  match cells[i]? with
  | none => none
  | some c => (c.parts.mapM fun p => if p < i then nodeAt? cells p else none).bind c.label.assemble?
termination_by i

def node? (t : Table) (i : Nat) : Option Node := nodeAt? t.cells i

def described? (t : Table) (label : Label) (parts : List Nat) : Option Node :=
  (parts.mapM t.node?).bind label.assemble?

theorem nodeAt?_push {cells : Array Cell} {i : Nat} (c : Cell) (hi : i < cells.size) :
    nodeAt? (cells.push c) i = nodeAt? cells i := by
  induction i using Nat.strongRecOn with
  | ind i ih =>
    rw [nodeAt?, nodeAt?, Array.getElem?_push_lt hi, Array.getElem?_eq_getElem hi]
    simp only
    congr 1
    refine mapM_congr fun p _ => ?_
    split
    · exact ih p ‹p < i› (Nat.lt_trans ‹p < i› hi)
    · rfl

theorem PartsFirst.node?_eq {t : Table} (hp : t.PartsFirst) {i : Nat} {c : Cell}
    (h : t.cells[i]? = some c) : t.node? i = t.described? c.label c.parts := by
  have hparts : ∀ p ∈ c.parts, p < i := by
    intro p hmem
    refine hp i p ?_
    rw [partsOf, h]
    exact hmem
  rw [node?, nodeAt?, h, described?]
  simp only
  congr 1
  exact mapM_congr fun p hmem => if_pos (hparts p hmem)

theorem described?_eq_some {t : Table} {label : Label} {parts : List Nat} {n : Node}
    (h : t.described? label parts = some n) :
    n.label = label ∧ parts.map t.node? = n.parts.map some ∧
      n.digest = label.digest (n.parts.map Node.digest) := by
  obtain ⟨ns, hns, hn⟩ := Option.bind_eq_some_iff.1 h
  obtain ⟨hlabel, rfl, hdigest⟩ := Label.assemble?_eq_some_iff.1 hn
  exact ⟨hlabel, mapM_eq_some_iff.1 hns, hdigest⟩

end Table
end Retrace
