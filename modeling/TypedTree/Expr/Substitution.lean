import TypedTree.Expr.Basic

/-!
# Substitution

Replacing the free occurrences of variables by expressions. A function literal, a block or a catch clause that binds
a variable again shields the occurrences below it. Sub-trees without a replaced occurrence stay the very same nodes.
-/

namespace TypedTree

/-- Every sub-expression of a form, paired with the variables that the form binds in it. -/
def Form.scoped {α : Type} : Form α → Form (List Var × α)
  | .lambda params body => .lambda params (params, body)
  | .block locals body => .block locals (body.map (locals, ·))
  | .tryCatch body clauses cleanup onFault =>
    .tryCatch ([], body) (clauses.map fun c => c.map (c.binding.toList, ·)) (cleanup.map ([], ·))
      (onFault.map ([], ·))
  | form => form.map ([], ·)

/-- What to put in the place of which variable. -/
abbrev Substitution := List (Var × Expr)

/-- The substitution below a place that binds some variables again. -/
def Substitution.without (s : Substitution) (bound : List Var) : Substitution :=
  s.filter fun p => !bound.contains p.1

/-- The expression with the free occurrences of variables replaced. Where nothing is left to replace, the walk ends. -/
def Expr.substitute : Expr → Substitution → Fresh .node Expr := Expr.recurse fun e form s =>
  if s.isEmpty then return e
  else match form with
    | .var x => return (s.lookup x).getD e
    | form => do e.rebuild (← form.scoped.mapM fun (bound, c) => c.2 (s.without bound))

end TypedTree
