import TypedTree.Expr.FreeVars
import TypedTree.Optimize.Run

/-!
# Rules for handlers

A catch clause loses a binding that nothing refers to and a filter that always holds; a clause whose filter never
holds is dropped. A body that cannot raise an exception, or has no handlers left, takes the place of the whole.
-/

namespace TypedTree.Optimizer

variable {σ κ : Type} (o : Optimizer σ κ)

/-- Nothing in the clause refers to its binding. -/
def hasUnusedBinding (c : Clause Expr) : Bool := c.binding.any fun x => !isFreeIn x c.children

/-- The clause without an unused binding. -/
def dropBinding (c : Clause Expr) : Run σ (Clause Expr) := do
  if hasUnusedBinding c then
    let result ← c.withBinding none
    record .bindingDropped
    return result
  else return c

/-- The clause without a filter that always holds. -/
def dropFilter (c : Clause Expr) : Run σ (Clause Expr) := do
  if c.filter.any o.facts.isTrue then
    let result ← c.withParts none c.body
    record .filterRemoved
    return result
  else return c

/-- The filter of the clause never holds. -/
def isDead (c : Clause Expr) : Bool := o.settings.trySimplification && c.filter.any o.facts.isFalse

/-- The clause without what it does not need, or nothing when it is dead. -/
def simplifyClause (c : Clause Expr) : Run σ (Option (Clause Expr)) := do
  let c ← o.dropFilter (← dropBinding c)
  if o.isDead c then
    record .filterRemoved
    return none
  else return some c

/-- The clauses that are left. -/
def simplifyClauses (cs : List (Clause Expr)) : Run σ (List (Clause Expr)) := do
  return (← cs.mapM o.simplifyClause).filterMap id

/-- A body with handlers. -/
def tryCatch (node body : Expr) (clauses : List (Clause Expr)) (cleanup onFault : Option Expr) : Run σ Expr := do
  let kept ← o.simplifyClauses clauses
  if o.settings.trySimplification && cleanup.isNone
      && ((kept.isEmpty && onFault.isNone) || o.facts.neverThrows body) then
    takeBranch node body
  else if kept.map (·.id) == clauses.map (·.id) then return node
  else Expr.make node.ty (.tryCatch body kept cleanup onFault)

end TypedTree.Optimizer
