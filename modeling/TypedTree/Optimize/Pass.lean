import TypedTree.Optimize.Branches
import TypedTree.Optimize.Handlers
import TypedTree.Optimize.Invocation
import TypedTree.Optimize.Members
import TypedTree.Optimize.TypeTests

/-!
# The optimizer

One pass over a tree, sub-expressions first, so that the rule for a node sees operands that are optimized already.

Two things make trees that are visited in their turn: the inlining of a function literal, and a replacement by a hook
before the rule. `Optimizer.pass` is one pass that leaves such trees to its parameter `again`, and `Optimizer.visitWithin`
allows a number of them to be nested. Hooks state how many they need (`Hooks.allowance`). Beyond that there is only
inlining, which leaves a tree with one function literal less than before, so that the function literals of a tree bound
the nesting below it (`Optimizer.visitMade`).
-/

namespace TypedTree

/-! ### Contexts of sub-expressions -/

/-- The contexts of arguments: whether the member only reads the parameter at their position. -/
def Facts.argContexts {α : Type} (facts : Facts) (member : Option Member) (args : List α) : List (α × Context) :=
  args.zipIdx.map fun (a, i) => (a, ⟨(member.bind (·.param? i)).any facts.isReadOnly⟩)

/-- Every sub-expression of a form, paired with its context. Operands have one of their own, branches and the like have
that of the whole. -/
def Facts.inContext {α : Type} (facts : Facts) (cx : Context) : Form α → Form (α × Context)
  | .call receiver method args =>
    .call (receiver.map (·, .plain)) method (facts.argContexts (some method) args)
  | .access receiver member => .access (receiver.map (·, .plain)) member
  | .new constructor args => .new constructor (facts.argContexts constructor args)
  | .newArray element source items => .newArray element source (items.map (·, .plain))
  | .index receiver indexer args assigned =>
    .index (receiver, .plain) indexer (facts.argContexts indexer args) assigned
  | .invoke callee args => .invoke (callee, .plain) (args.map (·, .plain))
  | .lambda params body => .lambda params (body, .plain)
  | form => form.map (·, cx)

namespace Optimizer

variable {σ κ : Type} (o : Optimizer σ κ)

/-! ### One pass -/

/-- The rule for a node whose sub-expressions are optimized. -/
def rule (again : Expr → Context → Run σ Expr) (node : Expr) (cx : Context) : Run σ Expr :=
  match node.form with
  | .call receiver method args => o.useMember node receiver method args cx
  | .access receiver member => o.useMember node receiver member [] cx
  | .new constructor args => o.newInstance node constructor args cx
  | .newArray element source items => o.newArray node element source items cx
  | .index receiver indexer args assigned =>
    if assigned then return node else o.readElement node receiver indexer args cx
  | .invoke callee args => o.invoke again node callee args cx
  | .conditional test whenTrue whenFalse => o.conditional node test whenTrue whenFalse
  | .logical op left right => o.logical node op left right
  | .switch value comparison cases fallback => o.switch node value comparison cases fallback
  | .typeTest operand target mode => o.typeTest node operand target mode
  | .tryCatch body clauses cleanup onFault => o.tryCatch node body clauses cleanup onFault
  | .convert operand => o.convert node operand
  | .constant _ | .var _ | .defaultOf | .lambda _ _ | .throw _ | .block _ _ | .jump _ _ _ => return node

/-- What happens to a node once its sub-expressions are optimized: the rule, the check that it kept the type, and the
hook for changed nodes. -/
def finish (again : Expr → Context → Run σ Expr) (e node : Expr) (cx : Context) : Run σ Expr := do
  let result ← o.rule again node cx
  if result.ty != e.ty then throw (.typeChanged e.ty result.ty)
  else if result.same e then return result
  else o.hooks.after result

/-- One pass over a tree; `again` visits the trees that the pass makes. -/
def pass (again : Expr → Context → Run σ Expr) : Expr → Context → Run σ Expr :=
  Expr.recurse fun e form cx => do
    if ← o.hooks.admits e then
      let start ← o.hooks.before e
      let node ←
        if start.same e then do
          let form ← (o.facts.inContext cx form).mapM fun ((_, visit), cx) => visit cx
          e.rebuild form
        else do
          let form ← (o.facts.inContext cx start.form).mapM fun (c, cx) => again c cx
          start.rebuild form
      o.finish again e node cx
    else return e

/-- Visits a tree; trees that are made on the way are visited in their turn, nested `fuel` times at most, and `last` visits
those that are nested more deeply. -/
def visitWithin (last : Expr → Context → Run σ Expr) : Nat → Expr → Context → Run σ Expr
  | 0 => o.pass last
  | fuel + 1 => o.pass (visitWithin last fuel)

/-- Visits a tree that was made on the way, when only inlining makes further ones. -/
def visitMade (e : Expr) (cx : Context) : Run σ Expr :=
  o.visitWithin (fun _ _ => throw .exhausted) e.lambdaCount e cx

/-- Optimizes a tree that stands in a context. -/
def visit (e : Expr) (cx : Context) : Run σ Expr := o.visitWithin o.visitMade o.hooks.allowance e cx

/-- Optimizes a whole tree and counts anew. -/
def optimize (e : Expr) : Run σ Expr := do
  modify fun s => { s with tally := { Tally.empty with nodesBefore := e.nodeCount } }
  let result ← if o.settings.level == .none then pure e else o.visit e .plain
  modify fun s => { s with tally := { s.tally with nodesAfter := result.nodeCount } }
  return result

end Optimizer

end TypedTree
