import TypedTree.Double.Text

/-!
# Tallies

How many reductions of each sort a run did, and by how much the tree shrank.
-/

namespace TypedTree

/-- The sorts of things that are counted. -/
inductive Reduction where
  /-- A node became a constant. -/
  | folded
  /-- A node became a throw of one of its operands, or of what its evaluation raised. -/
  | threw
  /-- A dereference of null became a throw. -/
  | nullDereference
  /-- A choice became one of its branches, or a body lost its handlers. -/
  | branch
  /-- A function literal was inlined. -/
  | inlined
  /-- A catch clause lost its unused binding. -/
  | bindingDropped
  /-- A filter was removed, with or without its clause. -/
  | filterRemoved
  /-- A fold was given up because a member could not be compiled. This is no change of the tree. -/
  | refused
deriving DecidableEq, Repr

/-- Counts of a run. -/
structure Tally where
  /-- The number of nodes before the run. -/
  nodesBefore : Nat
  /-- The number of nodes after it. -/
  nodesAfter : Nat
  /-- Nodes that became constants. -/
  folded : Nat
  /-- Nodes that became throws. -/
  threw : Nat
  /-- Dereferences of null that became throws. -/
  nullDereferences : Nat
  /-- Choices that became one of their branches. -/
  branches : Nat
  /-- Function literals that were inlined. -/
  inlined : Nat
  /-- Bindings that were dropped. -/
  bindingsDropped : Nat
  /-- Filters that were removed. -/
  filtersRemoved : Nat
  /-- Folds that were given up. -/
  refusals : Nat
  /-- The time that was taken, in microseconds. -/
  micros : Nat
deriving DecidableEq, Repr

namespace Tally

/-- Nothing counted. -/
def empty : Tally := ⟨0, 0, 0, 0, 0, 0, 0, 0, 0, 0, 0⟩

/-- The tally with one more reduction. -/
def record (t : Tally) : Reduction → Tally
  | .folded => { t with folded := t.folded + 1 }
  | .threw => { t with threw := t.threw + 1 }
  | .nullDereference => { t with nullDereferences := t.nullDereferences + 1 }
  | .branch => { t with branches := t.branches + 1 }
  | .inlined => { t with inlined := t.inlined + 1 }
  | .bindingDropped => { t with bindingsDropped := t.bindingsDropped + 1 }
  | .filterRemoved => { t with filtersRemoved := t.filtersRemoved + 1 }
  | .refused => { t with refusals := t.refusals + 1 }

/-- The number of changes of the tree. -/
def total (t : Tally) : Nat :=
  t.folded + t.threw + t.nullDereferences + t.branches + t.inlined + t.bindingsDropped + t.filtersRemoved

/-- The counts of two runs together; the numbers of nodes stay those of the first. -/
def merge (t u : Tally) : Tally where
  nodesBefore := t.nodesBefore
  nodesAfter := t.nodesAfter
  folded := t.folded + u.folded
  threw := t.threw + u.threw
  nullDereferences := t.nullDereferences + u.nullDereferences
  branches := t.branches + u.branches
  inlined := t.inlined + u.inlined
  bindingsDropped := t.bindingsDropped + u.bindingsDropped
  filtersRemoved := t.filtersRemoved + u.filtersRemoved
  refusals := t.refusals + u.refusals
  micros := t.micros + u.micros

/-! ### Reports -/

/-- The quotient of two counts in double precision. -/
def quotient (n d : Nat) : Float := (UInt64.ofNat n).toFloat / (UInt64.ofNat d).toFloat

/-- By how many per cent the tree shrank. -/
def reduction (t : Tally) : Double :=
  if t.nodesBefore = 0 ∨ t.nodesBefore ≤ t.nodesAfter then .zero
  else ⟨(quotient (t.nodesBefore - t.nodesAfter) t.nodesBefore * 100).toBits⟩

/-- The time that was taken, in milliseconds. -/
def millis (t : Tally) : Double := ⟨(quotient t.micros 1000).toBits⟩

/-- The report of a tally. -/
def text (t : Tally) : String :=
  String.join <| List.map (· ++ "\n") [
    "Optimization Statistics:",
    "  Nodes: " ++ toString t.nodesBefore ++ " -> " ++ toString t.nodesAfter ++ " ("
      ++ t.reduction.fixed 1 ++ "% reduction)",
    "  Constants folded: " ++ toString t.folded,
    "  Throws propagated: " ++ toString t.threw,
    "  Null dereferences predicted: " ++ toString t.nullDereferences,
    "  Branches eliminated: " ++ toString t.branches,
    "  Beta reductions: " ++ toString t.inlined,
    "  Catch bindings dropped: " ++ toString t.bindingsDropped,
    "  Filters removed: " ++ toString t.filtersRemoved,
    "  Evaluator refusals: " ++ toString t.refusals,
    "  Total optimizations: " ++ toString t.total,
    "  Time: " ++ t.millis.fixed 3 ++ "ms"]

end Tally

end TypedTree
