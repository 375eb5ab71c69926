import TypedTree.Expr.Basic

/-!
# Walking a tree

A read-only traversal with a handler for every node and, beyond that, for variables, function literals, blocks and catch
clauses, which are the places where scopes begin. A handler is given the rest of the walk below its place and
decides whether, and in which state, to go on with it.
-/

namespace TypedTree

/-- The handlers of a walk that threads a state `σ`. Where a handler has an argument `σ → σ`, that is the walk of
what lies below. -/
structure Visitor (σ : Type) where
  /-- Any node. -/
  node : Expr → (σ → σ) → σ → σ
  /-- A reference to a variable. -/
  reference : Var → σ → σ
  /-- A function literal with its parameters and body. -/
  lambda : List Var → Expr → (σ → σ) → σ → σ
  /-- A block with its locals and expressions. -/
  block : List Var → List Expr → (σ → σ) → σ → σ
  /-- A catch clause. -/
  clause : Clause Expr → (σ → σ) → σ → σ

namespace Visitor

variable {σ : Type}

/-- The visitor that walks everywhere and does nothing. -/
def idle : Visitor σ where
  node _ below := below
  reference _ := id
  lambda _ _ below := below
  block _ _ below := below
  clause _ below := below

/-- One step after the other. -/
def inOrder (steps : List (σ → σ)) (s : σ) : σ := steps.foldl (fun s step => step s) s

/-- What happens at a node of the given form, each sub-expression coming with its walk. -/
def enter (v : Visitor σ) : Form (Expr × (σ → σ)) → σ → σ
  | .var x => v.reference x
  | .lambda params body => v.lambda params body.1 body.2
  | .block locals body => v.block locals (body.map (·.1)) (inOrder (body.map (·.2)))
  | .tryCatch body clauses cleanup onFault =>
    inOrder <| body.2
      :: clauses.map (fun c => v.clause (c.map (·.1)) (inOrder (c.children.map (·.2))))
      ++ cleanup.toList.map (·.2) ++ onFault.toList.map (·.2)
  | form => inOrder (form.children.map (·.2))

/-- The walk of a tree. -/
def walk (v : Visitor σ) : Expr → σ → σ := Expr.recurse fun e form s => v.node e (v.enter form) s

theorem walk_eq (v : Visitor σ) (e : Expr) : v.walk e = v.node e (v.enter (e.form.map fun c => (c, v.walk c))) := by
  rw [walk, Expr.recurse_eq]

end Visitor

end TypedTree
