import TypedTree.Expr.Basic

/-!
# Building expressions

One function for each form, which gives the new node the static type its parts determine. Truth values of type `bool`
and the integers from 0 to 15 of type `int` are not made but taken from the nodes that always exist.
-/

namespace TypedTree.Expr

/-! ### Constants -/

/-- The node of a truth value. -/
def boolean (b : Bool) : Expr := ⟨.truth b, .bool, .constant (.bool b)⟩

/-- The integers that have a node of their own. -/
def isSmall (i : Int32) : Bool := decide (0 ≤ i.toInt) && decide (i.toInt < 16)

/-- An integer constant. -/
def integer (i : Int32) : Fresh .node Expr :=
  if isSmall i then return ⟨.smallInt i, .int, .constant (.int i)⟩ else make .int (.constant (.int i))

/-- A constant of a given type. -/
def constant (value : Value) (ty : Ty) : Fresh .node Expr :=
  match value, ty with
  | .bool b, .bool => return boolean b
  | .int i, .int => integer i
  | value, ty => make ty (.constant value)

/-- A text constant. -/
def string (s : String) : Fresh .node Expr := make .string (.constant (.string s))

/-- A null of a given type. -/
def null (ty : Ty) : Fresh .node Expr := make ty (.constant .null)

/-! ### Expressions over sub-expressions -/

/-- A reference to a variable. -/
def var (x : Var) : Fresh .node Expr := make x.ty (.var x)

/-- The default value of a type. -/
def defaultOf (ty : Ty) : Fresh .node Expr := make ty .defaultOf

/-- A conversion. -/
def convert (operand : Expr) (ty : Ty) : Fresh .node Expr := make ty (.convert operand)

/-- A call of a method. -/
def call (receiver : Option Expr) (method : Member) (args : List Expr) : Fresh .node Expr :=
  make method.ty (.call receiver method args)

/-- A read of a property or field. -/
def access (receiver : Option Expr) (member : Member) : Fresh .node Expr := make member.ty (.access receiver member)

/-- A new instance made by a constructor. -/
def new (constructor : Member) (args : List Expr) : Fresh .node Expr :=
  make constructor.ty (.new (some constructor) args)

/-- The default instance of a value type. -/
def newValue (ty : Ty) : Fresh .node Expr := make ty (.new none [])

/-- A new array of the given items. -/
def arrayOfItems (element : Ty) (items : List Expr) : Fresh .node Expr :=
  make (.array element 1) (.newArray element .items items)

/-- A new array with one dimension for each bound. -/
def arrayOfBounds (element : Ty) (bounds : List Expr) : Fresh .node Expr :=
  make (.array element bounds.length) (.newArray element .bounds bounds)

/-- The type of an element read from a receiver: the indexer's, or the array's, or any object. -/
def elementType (receiver : Expr) (indexer : Option Member) : Ty :=
  match indexer, receiver.ty with
  | some indexer, _ => indexer.ty
  | none, .array element _ => element
  | none, _ => .object

/-- An element of an array or of an indexed object. -/
def index (receiver : Expr) (indexer : Option Member) (args : List Expr) (assigned : Bool) : Fresh .node Expr :=
  make (elementType receiver indexer) (.index receiver indexer args assigned)

/-- The type of what an invocation gives. -/
def resultType (callee : Expr) : Ty :=
  match callee.ty with
  | .function _ result => result
  | _ => .object

/-- An invocation of a delegate. -/
def invoke (callee : Expr) (args : List Expr) : Fresh .node Expr := make (resultType callee) (.invoke callee args)

/-- A function literal. -/
def lambda (params : List Var) (body : Expr) : Fresh .node Expr :=
  make (.function (params.map (·.ty)) body.ty) (.lambda params body)

/-- A choice by a condition, of a given type. -/
def conditional (test whenTrue whenFalse : Expr) (ty : Ty) : Fresh .node Expr :=
  make ty (.conditional test whenTrue whenFalse)

/-- A connective of conditions. -/
def logical (op : Connective) (left right : Expr) : Fresh .node Expr := make .bool (.logical op left right)

/-- A choice by a value, of a given type. -/
def switch (value : Expr) (comparison : Option Member) (cases : List (Case Expr)) (fallback : Option Expr)
    (ty : Ty) : Fresh .node Expr := make ty (.switch value comparison cases fallback)

/-- A test of the type of a value. -/
def typeTest (operand : Expr) (target : Ty) (mode : TestMode) : Fresh .node Expr :=
  make .bool (.typeTest operand target mode)

/-- A throw, of the type of the expression in whose place it stands. -/
def throw (exception : Option Expr) (ty : Ty) : Fresh .node Expr := make ty (.throw exception)

/-- A throw of a known value. -/
def throwValue (value : Value) (ty : Ty) : Fresh .node Expr := do
  throw (some (← constant value (value.runtimeType?.getD .exception))) ty

/-- The type of a sequence: that of its last expression. -/
def blockType (body : List Expr) : Ty := (body.getLast?.map (·.ty)).getD .void

/-- A sequence with local variables, of a given type. -/
def block (locals : List Var) (body : List Expr) (ty : Ty) : Fresh .node Expr := make ty (.block locals body)

/-- A body with handlers, of the type of the body. -/
def tryCatch (body : Expr) (clauses : List (Clause Expr)) (cleanup onFault : Option Expr) : Fresh .node Expr :=
  make body.ty (.tryCatch body clauses cleanup onFault)

/-- A jump, of the type of the expression in whose place it stands. -/
def jump (kind : JumpKind) (target : Label) (value : Option Expr) (ty : Ty) : Fresh .node Expr :=
  make ty (.jump kind target value)

end TypedTree.Expr
