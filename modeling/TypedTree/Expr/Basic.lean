import TypedTree.Expr.Form

/-!
# Expressions

An expression is a node: an identity, a static type and a form over further expressions. Nodes are immutable and may
be shared; whoever wants a different node makes a new one, and so the identity of a node tells "left alone" from
"made again".

## The model

* `NodeId`: the identities. Truth values of type `bool` and the integers from 0 to 15 of type `int` are nodes that exist
  once and for all; every other node has the serial number it was made with.
* `Expr.recurse`: recursion over sub-expressions, from which every function on whole trees is made. The equation
  `Expr.recurse_eq` and the principle `Expr.inductionOn` are all that its users need. A tree whose nodes are shared has
  far more places than nodes, so a function goes down to a sub-expression only where its result is asked for.
* `Expr.rebuild`: a node with new sub-expressions, which is the node itself when none of them changed.
-/

namespace TypedTree

/-- The identity of a node. -/
inductive NodeId where
  /-- The one node of a truth value. -/
  | truth (b : Bool)
  /-- The one node of a small integer. -/
  | smallInt (i : Int32)
  /-- A node made with that serial number. -/
  | made (serial : Nat)
deriving DecidableEq, Repr

/-- An expression. -/
structure Expr where
  /-- Its identity. -/
  id : NodeId
  /-- Its static type. -/
  ty : Ty
  /-- Its form. -/
  form : Form Expr
deriving Repr

namespace Expr

/-! ### Recursion over sub-expressions -/

section Recursion

variable {α β : Type} (step : Expr → Form (Expr × (α → β)) → α → β)

mutual

/-- Recursion over sub-expressions: `step` gets a node, its form, in which every sub-expression is paired with
the function for it, and the argument of the function for the node. -/
def recurse : Expr → α → β
  | ⟨id, ty, form⟩, a => step ⟨id, ty, form⟩ (recurseForm form) a

/-- A form with every sub-expression paired with the function for it. -/
def recurseForm : Form Expr → Form (Expr × (α → β))
  | .constant value => .constant value
  | .var x => .var x
  | .defaultOf => .defaultOf
  | .convert operand => .convert (operand, recurse operand)
  | .call receiver method args => .call (recurseOption receiver) method (recurseList args)
  | .access receiver member => .access (recurseOption receiver) member
  | .new constructor args => .new constructor (recurseList args)
  | .newArray element source items => .newArray element source (recurseList items)
  | .index receiver indexer args assigned =>
    .index (receiver, recurse receiver) indexer (recurseList args) assigned
  | .invoke callee args => .invoke (callee, recurse callee) (recurseList args)
  | .lambda params body => .lambda params (body, recurse body)
  | .conditional test whenTrue whenFalse =>
    .conditional (test, recurse test) (whenTrue, recurse whenTrue) (whenFalse, recurse whenFalse)
  | .logical op left right => .logical op (left, recurse left) (right, recurse right)
  | .switch value comparison cases fallback =>
    .switch (value, recurse value) comparison (recurseCases cases) (recurseOption fallback)
  | .typeTest operand target mode => .typeTest (operand, recurse operand) target mode
  | .throw exception => .throw (recurseOption exception)
  | .block locals body => .block locals (recurseList body)
  | .tryCatch body clauses cleanup onFault =>
    .tryCatch (body, recurse body) (recurseClauses clauses) (recurseOption cleanup) (recurseOption onFault)
  | .jump kind target value => .jump kind target (recurseOption value)

/-- An optional sub-expression paired with the function for it. -/
def recurseOption : Option Expr → Option (Expr × (α → β))
  | none => none
  | some e => some (e, recurse e)

/-- Sub-expressions paired with the functions for them. -/
def recurseList : List Expr → List (Expr × (α → β))
  | [] => []
  | e :: es => (e, recurse e) :: recurseList es

/-- Cases with every sub-expression paired with the function for it. -/
def recurseCases : List (Case Expr) → List (Case (Expr × (α → β)))
  | [] => []
  | ⟨tests, body⟩ :: cs => ⟨recurseList tests, (body, recurse body)⟩ :: recurseCases cs

/-- Clauses with every sub-expression paired with the function for it. -/
def recurseClauses : List (Clause Expr) → List (Clause (Expr × (α → β)))
  | [] => []
  | ⟨id, test, binding, filter, body⟩ :: cs =>
    ⟨id, test, binding, recurseOption filter, (body, recurse body)⟩ :: recurseClauses cs

end

theorem recurseOption_eq (o : Option Expr) :
    recurseOption step o = o.map fun e => (e, recurse step e) := by
  cases o <;> rfl

theorem recurseList_eq (es : List Expr) : recurseList step es = es.map fun e => (e, recurse step e) := by
  induction es with
  | nil => rfl
  | cons e es ih => simp [recurseList, ih]

theorem recurseCases_eq (cs : List (Case Expr)) :
    recurseCases step cs = cs.map (·.map fun e => (e, recurse step e)) := by
  induction cs with
  | nil => rfl
  | cons c cs ih => simp [recurseCases, recurseList_eq, Case.map, ih]

theorem recurseClauses_eq (cs : List (Clause Expr)) :
    recurseClauses step cs = cs.map (·.map fun e => (e, recurse step e)) := by
  induction cs with
  | nil => rfl
  | cons c cs ih => simp [recurseClauses, recurseOption_eq, Clause.map, ih]

theorem recurseForm_eq (form : Form Expr) :
    recurseForm step form = form.map fun e => (e, recurse step e) := by
  cases form <;>
    simp [recurseForm, Form.map, recurseOption_eq, recurseList_eq, recurseCases_eq, recurseClauses_eq]

/-- The defining equation of recursion over sub-expressions. -/
theorem recurse_eq (e : Expr) : recurse step e = step e (e.form.map fun c => (c, recurse step c)) := by
  funext a; cases e; rw [recurse, recurseForm_eq]

end Recursion

/-- Induction over sub-expressions: what passes from the sub-expressions of a node to the node holds of all. -/
theorem inductionOn {motive : Expr → Prop}
    (node : ∀ e : Expr, (∀ c ∈ e.form.children, motive c) → motive e) (e : Expr) : motive e := by
  apply @Expr.rec motive (fun f => ∀ c ∈ f.children, motive c) (fun o => ∀ c ∈ o, motive c)
    (fun es => ∀ c ∈ es, motive c) (fun cs => ∀ d ∈ cs, ∀ c ∈ d.children, motive c)
    (fun cs => ∀ d ∈ cs, ∀ c ∈ d.children, motive c) (fun d => ∀ c ∈ d.children, motive c)
    (fun d => ∀ c ∈ d.children, motive c) (fun _ _ _ h => node _ h)
  all_goals grind [Form.children, Case.children, Clause.children]

/-! ### Size -/

/-- The number of nodes of a tree, each counted as often as it occurs. -/
def nodeCount (e : Expr) : Nat := recurse (fun _ form () => 1 + (form.map (·.2 ())).sum) e ()

/-- The number of function literals of a tree, each counted as often as it occurs. -/
def lambdaCount (e : Expr) : Nat :=
  recurse (fun _ form () =>
    match form with
    | .lambda _ body => 1 + body.2 ()
    | form => (form.map (·.2 ())).sum) e ()

theorem nodeCount_eq (e : Expr) : e.nodeCount = 1 + (e.form.map nodeCount).sum := by
  rw [nodeCount, recurse_eq]; simp only [Form.map_map]; rfl

/-! ### Making nodes -/

/-- Whether two expressions are the very same node. -/
def same (a b : Expr) : Bool := a.id == b.id

/-- Whether both are absent, or both present and the very same node. -/
def sameOption : Option Expr → Option Expr → Bool
  | none, none => true
  | some a, some b => a.same b
  | _, _ => false

/-- A new node. -/
def make (ty : Ty) (form : Form Expr) : Fresh .node Expr := return ⟨.made (← fresh), ty, form⟩

end Expr

namespace Clause

variable {ε : Type}

/-- A new clause. -/
def make (test : Ty) (binding : Option Var) (filter : Option ε) (body : ε) : Fresh .node (Clause ε) :=
  return ⟨← fresh, test, binding, filter, body⟩

/-- Whether two clauses are the very same one. -/
def same (c d : Clause ε) : Bool := c.id == d.id

/-- The clause with another filter and body; the clause itself when they are the ones it has. -/
def withParts (c : Clause Expr) (filter : Option Expr) (body : Expr) : Fresh .node (Clause Expr) :=
  if Expr.sameOption filter c.filter && body.same c.body then return c
  else make c.test c.binding filter body

/-- A new clause with another binding. -/
def withBinding (c : Clause ε) (binding : Option Var) : Fresh .node (Clause ε) := make c.test binding c.filter c.body

end Clause

/-- The form `new`, in which the clauses whose parts are those of `old` are the clauses of `old`. -/
def Form.keepClauses (old new : Form Expr) : Fresh .node (Form Expr) :=
  match old, new with
  | .tryCatch _ before _ _, .tryCatch body after cleanup onFault =>
    return .tryCatch body (← (before.zip after).mapM fun (c, d) => c.withParts d.filter d.body) cleanup onFault
  | _, new => return new

namespace Expr

/-- The node with the sub-expressions of `form`, which has the shape of its own form; the node itself when they
are the ones it has. -/
def rebuild (e : Expr) (form : Form Expr) : Fresh .node Expr :=
  if e.form.children.map (·.id) == form.children.map (·.id) then return e
  else do make e.ty (← e.form.keepClauses form)

/-- The node with every sub-expression replaced by what `f` makes of it; the node itself when `f` gives them all
back. -/
def mapChildren {m : Type → Type} [Monad m] [MonadLiftT (Fresh .node) m] (f : Expr → m Expr) (e : Expr) : m Expr := do
  let form ← e.form.mapM f
  e.rebuild form

end Expr

end TypedTree
