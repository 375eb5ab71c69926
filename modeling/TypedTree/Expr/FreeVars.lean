import TypedTree.Expr.Walk

/-!
# Free variables

A variable is free in a tree when it is referenced there outside every function literal, block and catch clause of the
tree that binds it. The scan walks the tree with a stack of scopes.
-/

namespace TypedTree

/-- The state of a scan. -/
structure ScopeScan where
  /-- The variables bound around the current place, innermost scope first. -/
  scopes : List (List Var)
  /-- The free variables met so far. -/
  free : List Var
deriving Repr

namespace ScopeScan

/-- The variable is bound around the current place. -/
def isBound (s : ScopeScan) (x : Var) : Bool := s.scopes.any (·.contains x)

/-- A reference to a variable is met. -/
def reference (x : Var) (s : ScopeScan) : ScopeScan :=
  if s.isBound x then s else { s with free := s.free.insert x }

/-- The walk of what lies below, with the variables bound there. -/
def within (bound : List Var) (below : ScopeScan → ScopeScan) (s : ScopeScan) : ScopeScan :=
  let s := below { s with scopes := bound :: s.scopes }
  { s with scopes := s.scopes.tail }

/-- The handlers of the scan. -/
def visitor : Visitor ScopeScan :=
  { Visitor.idle with
    reference := reference
    lambda := fun params _ below => within params below
    block := fun locals _ below => within locals below
    clause := fun c below => within c.binding.toList below }

end ScopeScan

/-- The free variables of some trees, side by side. -/
def freeVars (es : List Expr) : List Var :=
  (es.foldl (fun s e => ScopeScan.visitor.walk e s) ⟨[], []⟩).free

/-- Whether a variable is free in one of some trees. -/
def isFreeIn (x : Var) (es : List Expr) : Bool := (freeVars es).contains x

end TypedTree
