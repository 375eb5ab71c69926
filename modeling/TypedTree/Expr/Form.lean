import TypedTree.Value.Basic

/-!
# Forms of expressions

The form of an expression is what kind of expression it is together with its immediate parts. `Form ε` has the
sub-expressions as a parameter `ε`, so that everything said about one layer of a tree (enumerating the
sub-expressions, mapping them, comparing two forms) is said here without recursion.

The sub-expressions of a form have one order, the order in which they are evaluated: `Form.children` lists them in it
and `Form.mapM` maps them in it.
-/

namespace TypedTree

/-- A variable: a parameter of a lambda, a local of a block or the binding of a catch clause. -/
structure Var where
  /-- Its identity. -/
  id : Nat
  /-- The name that is displayed. -/
  name : String
  /-- Its type. -/
  ty : Ty
deriving DecidableEq, Repr

/-- A target of jumps. -/
structure Label where
  /-- Its identity. -/
  id : Nat
  /-- The name that is displayed. -/
  name : String
  /-- The type of the value carried to it. -/
  ty : Ty
deriving DecidableEq, Repr

/-- How an array is made. -/
inductive ArraySource where
  /-- From its items. -/
  | items
  /-- From the length of each dimension. -/
  | bounds
deriving DecidableEq, Repr

/-- A connective that may leave its right operand unevaluated. -/
inductive Connective where
  /-- Conjunction. -/
  | and
  /-- Disjunction. -/
  | or
deriving DecidableEq, Repr

/-- What a type test asks. -/
inductive TestMode where
  /-- Whether the value is an instance of the type or of one below it. -/
  | isInstance
  /-- Whether the exact type of the value is the type. -/
  | isExact
deriving DecidableEq, Repr

/-- The kinds of jumps. -/
inductive JumpKind where
  /-- A plain jump. -/
  | goto
  /-- A jump out of a lambda. -/
  | returning
  /-- A jump out of a loop. -/
  | breaking
  /-- A jump to the next round of a loop. -/
  | continuing
deriving DecidableEq, Repr

/-- A case of a switch. -/
structure Case (ε : Type) where
  /-- The values that select the case. -/
  tests : List ε
  /-- What the case evaluates to. -/
  body : ε
deriving Repr

/-- A clause that handles exceptions. -/
structure Clause (ε : Type) where
  /-- Its identity. -/
  id : Nat
  /-- The exceptions it handles are of this type. -/
  test : Ty
  /-- The variable bound to the exception. -/
  binding : Option Var
  /-- A condition for handling the exception. -/
  filter : Option ε
  /-- What the clause evaluates to. -/
  body : ε
deriving Repr

/-- The form of an expression over sub-expressions `ε`. -/
inductive Form (ε : Type) where
  /-- A known value. -/
  | constant (value : Value)
  /-- A reference to a variable. -/
  | var (x : Var)
  /-- The default value of the type. -/
  | defaultOf
  /-- A conversion to the type. -/
  | convert (operand : ε)
  /-- A call of a method. -/
  | call (receiver : Option ε) (method : Member) (args : List ε)
  /-- A read of a property or field. -/
  | access (receiver : Option ε) (member : Member)
  /-- A new instance; without constructor, the default instance of a value type. -/
  | new (constructor : Option Member) (args : List ε)
  /-- A new array. -/
  | newArray (element : Ty) (source : ArraySource) (items : List ε)
  /-- An element of an array or, with an indexer, of an indexed object. -/
  | index (receiver : ε) (indexer : Option Member) (args : List ε) (assigned : Bool)
  /-- An invocation of a delegate. -/
  | invoke (callee : ε) (args : List ε)
  /-- A function literal. -/
  | lambda (params : List Var) (body : ε)
  /-- A choice by a condition. -/
  | conditional (test whenTrue whenFalse : ε)
  /-- A connective of conditions. -/
  | logical (op : Connective) (left right : ε)
  /-- A choice by a value. -/
  | switch (value : ε) (comparison : Option Member) (cases : List (Case ε)) (fallback : Option ε)
  /-- A test of the type of a value. -/
  | typeTest (operand : ε) (target : Ty) (mode : TestMode)
  /-- Raising an exception, or raising the handled one again. -/
  | throw (exception : Option ε)
  /-- A sequence with local variables. -/
  | block (locals : List Var) (body : List ε)
  /-- A body with handlers, what runs after it in any case, and what runs after it when it raises. -/
  | tryCatch (body : ε) (clauses : List (Clause ε)) (cleanup onFault : Option ε)
  /-- A jump. -/
  | jump (kind : JumpKind) (target : Label) (value : Option ε)
deriving Repr

/-! ### Cases and clauses -/

section Parts

variable {α β : Type}

/-- The sub-expressions of a case. -/
def Case.children (c : Case α) : List α := c.tests ++ [c.body]

/-- A case with its sub-expressions mapped. -/
def Case.map (f : α → β) (c : Case α) : Case β := ⟨c.tests.map f, f c.body⟩

/-- A case with its sub-expressions mapped in order. -/
def Case.mapM {m : Type → Type} [Monad m] (f : α → m β) (c : Case α) : m (Case β) :=
  return ⟨← c.tests.mapM f, ← f c.body⟩

/-- The sub-expressions of a clause. -/
def Clause.children (c : Clause α) : List α := c.filter.toList ++ [c.body]

/-- A clause with its sub-expressions mapped. -/
def Clause.map (f : α → β) (c : Clause α) : Clause β := ⟨c.id, c.test, c.binding, c.filter.map f, f c.body⟩

/-- A clause with its sub-expressions mapped in order. -/
def Clause.mapM {m : Type → Type} [Monad m] (f : α → m β) (c : Clause α) : m (Clause β) :=
  return ⟨c.id, c.test, c.binding, ← c.filter.mapM f, ← f c.body⟩

@[simp] theorem Case.children_map (f : α → β) (c : Case α) : (c.map f).children = c.children.map f := by
  simp [Case.children, Case.map]

@[simp] theorem Clause.children_map (f : α → β) (c : Clause α) : (c.map f).children = c.children.map f := by
  simp [Clause.children, Clause.map, Option.toList_map]

end Parts

namespace Form

variable {α β : Type}

/-! ### Enumeration and mapping -/

/-- The sub-expressions, in the order of evaluation. -/
def children : Form α → List α
  | .constant _ | .var _ | .defaultOf => []
  | .convert operand => [operand]
  | .call receiver _ args => receiver.toList ++ args
  | .access receiver _ => receiver.toList
  | .new _ args => args
  | .newArray _ _ items => items
  | .index receiver _ args _ => receiver :: args
  | .invoke callee args => callee :: args
  | .lambda _ body => [body]
  | .conditional test whenTrue whenFalse => [test, whenTrue, whenFalse]
  | .logical _ left right => [left, right]
  | .switch value _ cases fallback => value :: cases.flatMap Case.children ++ fallback.toList
  | .typeTest operand _ _ => [operand]
  | .throw exception => exception.toList
  | .block _ body => body
  | .tryCatch body clauses cleanup onFault =>
    body :: clauses.flatMap Clause.children ++ cleanup.toList ++ onFault.toList
  | .jump _ _ value => value.toList

/-- The form with its sub-expressions mapped. -/
def map (f : α → β) : Form α → Form β
  | .constant value => .constant value
  | .var x => .var x
  | .defaultOf => .defaultOf
  | .convert operand => .convert (f operand)
  | .call receiver method args => .call (receiver.map f) method (args.map f)
  | .access receiver member => .access (receiver.map f) member
  | .new constructor args => .new constructor (args.map f)
  | .newArray element source items => .newArray element source (items.map f)
  | .index receiver indexer args assigned => .index (f receiver) indexer (args.map f) assigned
  | .invoke callee args => .invoke (f callee) (args.map f)
  | .lambda params body => .lambda params (f body)
  | .conditional test whenTrue whenFalse => .conditional (f test) (f whenTrue) (f whenFalse)
  | .logical op left right => .logical op (f left) (f right)
  | .switch value comparison cases fallback =>
    .switch (f value) comparison (cases.map (·.map f)) (fallback.map f)
  | .typeTest operand target mode => .typeTest (f operand) target mode
  | .throw exception => .throw (exception.map f)
  | .block locals body => .block locals (body.map f)
  | .tryCatch body clauses cleanup onFault =>
    .tryCatch (f body) (clauses.map (·.map f)) (cleanup.map f) (onFault.map f)
  | .jump kind target value => .jump kind target (value.map f)

/-- The form with its sub-expressions mapped in order. -/
def mapM {m : Type → Type} [Monad m] (f : α → m β) : Form α → m (Form β)
  | .constant value => return .constant value
  | .var x => return .var x
  | .defaultOf => return .defaultOf
  | .convert operand => return .convert (← f operand)
  | .call receiver method args => return .call (← receiver.mapM f) method (← args.mapM f)
  | .access receiver member => return .access (← receiver.mapM f) member
  | .new constructor args => return .new constructor (← args.mapM f)
  | .newArray element source items => return .newArray element source (← items.mapM f)
  | .index receiver indexer args assigned => return .index (← f receiver) indexer (← args.mapM f) assigned
  | .invoke callee args => return .invoke (← f callee) (← args.mapM f)
  | .lambda params body => return .lambda params (← f body)
  | .conditional test whenTrue whenFalse => return .conditional (← f test) (← f whenTrue) (← f whenFalse)
  | .logical op left right => return .logical op (← f left) (← f right)
  | .switch value comparison cases fallback =>
    return .switch (← f value) comparison (← cases.mapM (·.mapM f)) (← fallback.mapM f)
  | .typeTest operand target mode => return .typeTest (← f operand) target mode
  | .throw exception => return .throw (← exception.mapM f)
  | .block locals body => return .block locals (← body.mapM f)
  | .tryCatch body clauses cleanup onFault =>
    return .tryCatch (← f body) (← clauses.mapM (·.mapM f)) (← cleanup.mapM f) (← onFault.mapM f)
  | .jump kind target value => return .jump kind target (← value.mapM f)

@[simp] theorem children_map (f : α → β) (form : Form α) : (form.map f).children = form.children.map f := by
  cases form <;> simp [children, map, List.flatMap_map, List.map_flatMap, Option.toList_map]

@[simp] theorem map_map {γ : Type} (f : α → β) (g : β → γ) (form : Form α) :
    (form.map f).map g = form.map (g ∘ f) := by
  cases form <;> simp [map, Case.map, Clause.map, Function.comp_def]

/-- The sum of the numbers in the places of the sub-expressions. -/
def sum (form : Form Nat) : Nat := form.children.foldr (· + ·) 0

end Form

end TypedTree
