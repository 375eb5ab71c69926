import TypedTree.Optimize.Run

/-!
# Rules for conditionals, connectives and switches

A known test selects the branch that takes the place of the whole, and a test that throws takes its place itself.
-/

namespace TypedTree.Optimizer

variable {σ κ : Type} (o : Optimizer σ κ)

/-! ### Conditionals -/

/-- The conditional `c ? (d ? t : f') : f` as `(c && d) ? t : f`, when `f` and `f'` are equal constants or defaults. -/
def flatten? (node test whenTrue whenFalse : Expr) : Fresh .node (Option Expr) := do
  match whenTrue.form, whenFalse.form with
  | .conditional innerTest innerTrue innerFalse, .defaultOf
  | .conditional innerTest innerTrue innerFalse, .constant _ =>
    if whenTrue.ty == node.ty && innerFalse.equals whenFalse then
      some <$> Expr.conditional (← Expr.logical .and test innerTest) innerTrue whenFalse node.ty
    else return none
  | _, _ => return none

/-- A conditional. -/
def conditional (node test whenTrue whenFalse : Expr) : Run σ Expr := do
  if o.facts.alwaysThrows test then throwInstead node test
  else match o.facts.truth? test with
    | some taken => takeBranch node (if taken then whenTrue else whenFalse)
    | none =>
      if o.settings.flattening then
        match ← flatten? node test whenTrue whenFalse with
        | some flat =>
          record .branch
          return flat
        | none => return node
      else return node

/-- A connective: a known left operand either decides or leaves the decision to the right one. -/
def logical (node : Expr) (op : Connective) (left right : Expr) : Run σ Expr := do
  if o.facts.alwaysThrows left then throwInstead node left
  else match o.facts.truth? left with
    | some value => takeBranch node (if value == (op == .and) then right else left)
    | none => return node

/-! ### Switches -/

/-- How the test of a case compares with the value of a switch. -/
inductive Match where
  /-- They are equal, or not. -/
  | decided (equal : Bool)
  /-- The comparison raised an exception. -/
  | raised (e : Exception)
  /-- The comparison gave no truth value. -/
  | undecided

/-- Compares a value with a test, by a compiled comparison or by default. -/
def compareWith (comparison : Option κ) (value test : Value) : Run σ Match := do
  match comparison with
  | none => return .decided (value.defaultEquals test)
  | some callable =>
    match ← o.evaluators.invoke callable [value, test] with
    | .error e => return .raised e
    | .ok result =>
      match result.bool? with
      | some equal => return .decided equal
      | none => return .undecided

/-- What takes the place of a switch once the value is known: tests are compared in order, each with the body it
selects, until one matches, throws or cannot be decided. -/
def selectCase (node : Expr) (comparison : Option κ) (value : Value) (fallback : Option Expr) :
    List (Expr × Expr) → Run σ Expr
  | [] =>
    match fallback with
    | some body => takeBranch node body
    | none => do
      let result ← Expr.defaultOf node.ty
      record .branch
      return result
  | (test, body) :: rest => do
    if o.facts.alwaysThrows test then throwInstead node test
    else match o.facts.constantValue? test with
      | none => return node
      | some candidate =>
        match ← o.compareWith comparison value candidate with
        | .decided true => takeBranch node body
        | .decided false => selectCase node comparison value fallback rest
        | .undecided => return node
        | .raised e =>
          let thrown ← node.throwFor e
          recordFold thrown
          return thrown

/-- A switch. -/
def switch (node value : Expr) (comparison : Option Member) (cases : List (Case Expr)) (fallback : Option Expr) :
    Run σ Expr := do
  if o.facts.alwaysThrows value then throwInstead node value
  else if o.settings.folding then
    match o.facts.constantValue? value with
    | none => return node
    | some known =>
      let tests := cases.flatMap fun c => c.tests.map (·, c.body)
      match comparison with
      | none => o.selectCase node none known fallback tests
      | some method =>
        if o.facts.isPureMember method then
          match ← o.compile? method with
          | none => return node
          | some callable => o.selectCase node (some callable) known fallback tests
        else return node
  else return node

end TypedTree.Optimizer
