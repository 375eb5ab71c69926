/-!
# Identities

Two kinds of things have an identity: the nodes of trees, and the references among values. A copy keeps the identity,
and a newly made thing differs from every one of its kind made before. An identity is a serial number, and `Fresh`
computations draw serial numbers from a supply. Nothing depends on the numbers themselves, only on which of them are
equal.

The two kinds have supplies of their own: evaluators make references and never nodes, so they are given the one supply
and cannot touch the other.
-/

namespace TypedTree

/-- The kinds of things that have an identity. -/
inductive Identified where
  /-- Nodes of trees, and catch clauses. -/
  | node
  /-- Arrays, objects, exceptions and delegates. -/
  | reference
deriving DecidableEq, Repr

/-- The serial numbers of a kind that are not handed out yet: `next` and all above it. -/
structure Supply (kind : Identified) where
  /-- The serial number that is handed out next. -/
  next : Nat
deriving DecidableEq, Repr

/-- Computations that may make things of a kind. -/
abbrev Fresh (kind : Identified) := StateM (Supply kind)

/-- A serial number that was never handed out before. -/
def fresh {kind : Identified} : Fresh kind Nat := fun s => (s.next, ⟨s.next + 1⟩)

@[simp] theorem fresh_run {kind : Identified} (s : Supply kind) : fresh s = (s.next, ⟨s.next + 1⟩) := rfl

/-- Both supplies. -/
structure Supplies where
  /-- The supply for nodes. -/
  nodes : Supply .node
  /-- The supply for references. -/
  references : Supply .reference
deriving DecidableEq, Repr

/-- Computations that may make things of both kinds. -/
abbrev Build := StateM Supplies

instance : MonadLift (Fresh .node) Build :=
  ⟨fun x s => let (a, nodes) := x s.nodes; (a, { s with nodes := nodes })⟩

instance : MonadLift (Fresh .reference) Build :=
  ⟨fun x s => let (a, references) := x s.references; (a, { s with references := references })⟩

end TypedTree
