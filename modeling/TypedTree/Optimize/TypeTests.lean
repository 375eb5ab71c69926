import TypedTree.Optimize.Run

/-!
# Rules for type tests and conversions

A type test is decided when the static type and what is known about null leave no other outcome. A conversion of a known
value is folded when it does not change the representation.
-/

namespace TypedTree.Optimizer

variable {σ κ : Type} (o : Optimizer σ κ)

/-- The outcome of the test whether the operand is an instance of the target, when it is certain. A boxed nullable is
its value or null. Where generic types take part, variance may relate types that look unrelated. -/
def isInstance? (operand : Expr) (target : Ty) : Option Bool :=
  let declared := operand.ty
  let source := declared.underlying
  let target := target.underlying
  if declared == .void then some false
  else if target.assignableFrom source then
    if declared.isPlainValueType then some true
    else if o.facts.isAlwaysNull operand then some false
    else if o.facts.isNeverNull operand then some true
    else none
  else if o.facts.isAlwaysNull operand then some false
  else if source.isSealed && !source.isGeneric && !target.isGeneric then some false
  else none

/-- The outcome of the test whether the exact type of the operand is the target, when it is certain. -/
def isExactly? (operand : Expr) (target : Ty) : Option Bool :=
  let target := target.underlying
  if o.facts.isAlwaysNull operand then some false
  else if operand.ty.isPlainValueType then some (operand.ty == target)
  else ((o.facts.constantValue? operand).bind Value.runtimeType?).map (· == target)

/-- A type test. The operand is dropped only when it is pure. -/
def typeTest (node operand : Expr) (target : Ty) (mode : TestMode) : Run σ Expr := do
  if o.facts.alwaysThrows operand then throwInstead node operand
  else if o.facts.isPure operand then
    let outcome := match mode with
      | .isInstance => o.isInstance? operand target
      | .isExact => o.isExactly? operand target
    foldTo node (outcome.map Expr.boolean)
  else return node

/-- A conversion. -/
def convert (node operand : Expr) : Run σ Expr := do
  if o.facts.alwaysThrows operand then throwInstead node operand
  else if o.settings.folding then
    match o.facts.constantValue? operand with
    | some value =>
      if value.isCompatible node.ty then foldTo node (some (← Expr.constant value node.ty)) else return node
    | none => return node
  else return node

end TypedTree.Optimizer
