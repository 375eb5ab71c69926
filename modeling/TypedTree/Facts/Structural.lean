import TypedTree.Facts.Basic
import TypedTree.Facts.Catalog

/-!
# Facts from the shape of a tree

The facts of a catalog: what is known of library members and types is looked up, everything else is derived from
the shape of the tree.
-/

namespace TypedTree

namespace Catalog

/-! ### Members, types and parameters -/

/-- Using the member has no side effect. -/
def isPureMember (c : Catalog) (m : Member) : Bool := c.pureMembers.covers m

/-- Using the member raises no exception. -/
def isNothrowMember (c : Catalog) (m : Member) : Bool := c.nothrowMembers.covers m

/-- The member only reads what is passed for the parameter. -/
def isReadOnly (c : Catalog) (p : ParamRef) : Bool := c.readOnlyParams.covers p

/-- Making the default instance of the type has no side effect: so for the built-in value types, nullables and enums. -/
def isPureType (c : Catalog) : Ty → Bool
  | .bool | .int | .long | .double | .char | .nullable _ => true
  | t => t.isEnum || c.pureTypes.covers t

/-- No instance of the type can be changed: so for the built-in types that are not references, texts, delegates and
enums, and for nullables of such. -/
def isImmutable (c : Catalog) : Ty → Bool
  | .void | .bool | .int | .long | .double | .char | .string | .function _ _ => true
  | .nullable inner => c.isImmutable inner
  | t => t.isEnum || c.immutableTypes.covers t

end Catalog

/-! ### Values -/

namespace Expr

/-- The value of a constant, or of a default when it is known. -/
def constantValue? (e : Expr) : Option Value :=
  match e.form with
  | .constant value => some value
  | .defaultOf => e.ty.defaultValue?
  | _ => none

/-- The expression is a null: a null constant, a default of a type with nulls, or such a one converted. -/
def isAlwaysNull : Expr → Bool
  | ⟨_, _, .constant value⟩ => value.isNull
  | ⟨_, ty, .defaultOf⟩ => ty.admitsNull
  | ⟨_, ty, .convert operand⟩ => ty.admitsNull && operand.isAlwaysNull
  | _ => false
termination_by structural e => e

/-- The expression is of a type without nulls or makes a value that is not null. -/
def isNeverNull : Expr → Bool
  | ⟨_, ty, .constant value⟩ => ty.isPlainValueType || !value.isNull
  | ⟨_, _, .new _ _⟩ | ⟨_, _, .newArray _ _ _⟩ | ⟨_, _, .lambda _ _⟩ => true
  | ⟨_, ty, .convert operand⟩ => ty.isPlainValueType || operand.isNeverNull
  | ⟨_, ty, _⟩ => ty.isPlainValueType
termination_by structural e => e

/-- The expression is a throw. -/
def isThrow (e : Expr) : Bool :=
  match e.form with
  | .throw _ => true
  | _ => false

/-- The expression is a function literal whose body is its only parameter. -/
def isIdentityFunction (e : Expr) : Bool :=
  match e.form with
  | .lambda [x] ⟨_, _, .var y⟩ => x == y
  | _ => false

end Expr

/-! ### Purity -/

/-- How an expression is used. -/
inductive Use where
  /-- It is evaluated. -/
  | evaluated
  /-- It is a function literal, and its body is evaluated. -/
  | invoked
deriving DecidableEq, Repr

/-- For each use of an expression, whether it has no side effect. -/
abbrev Purity := Use → Bool

namespace Catalog

variable (c : Catalog)

/-- Whether evaluating an expression of type `ty` has no side effect, given the purity of its sub-expressions. -/
def isPureForm (ty : Ty) : Form Purity → Bool
  | .constant _ | .var _ | .defaultOf | .lambda _ _ => true
  | .convert operand => operand .evaluated
  | .call receiver method args =>
    c.isPureMember method && receiver.all (· .evaluated) && args.all (· .evaluated)
  | .access receiver member => c.isPureMember member && receiver.all (· .evaluated)
  | .new (some constructor) args => c.isPureMember constructor && args.all (· .evaluated)
  | .new none args => c.isPureType ty && args.all (· .evaluated)
  | .newArray _ _ items => items.all (· .evaluated)
  | .index receiver indexer args _ =>
    indexer.all c.isPureMember && receiver .evaluated && args.all (· .evaluated)
  | .invoke callee args => callee .invoked && args.all (· .evaluated)
  | .conditional test whenTrue whenFalse => test .evaluated && whenTrue .evaluated && whenFalse .evaluated
  | .logical _ left right => left .evaluated && right .evaluated
  | .switch value comparison cases fallback =>
    comparison.all c.isPureMember && value .evaluated
      && cases.all (·.children.all (· .evaluated)) && fallback.all (· .evaluated)
  | .typeTest operand _ _ => operand .evaluated
  | .throw exception => exception.all (· .evaluated)
  | .block _ body => body.all (· .evaluated)
  | .tryCatch .. | .jump .. => false

/-- Whether an expression is a function literal with a pure body, given the purity of its sub-expressions. -/
def isPureLiteral : Form Purity → Bool
  | .lambda _ body => body .evaluated
  | _ => false

/-- The purity of an expression of type `ty`, given that of its sub-expressions. -/
def formPurity (ty : Ty) (form : Form Purity) : Purity
  | .evaluated => c.isPureForm ty form
  | .invoked => isPureLiteral form

/-- The purity of an expression. -/
def purity : Expr → Purity := Expr.recurse fun e form use => c.formPurity e.ty (form.map (·.2)) use

theorem purity_eq (e : Expr) : c.purity e = c.formPurity e.ty (e.form.map c.purity) := by
  rw [purity, Expr.recurse_eq]; simp [Function.comp_def]

/-- Evaluating the expression has no side effect. -/
def isPure (e : Expr) : Bool := c.purity e .evaluated

/-! ### Throwing -/

/-- The receiver, if there is one, neither is null nor raises an exception. -/
def isSafeReceiver (receiver : Option (Expr × (Unit → Bool))) : Bool :=
  receiver.all fun r => r.1.isNeverNull && r.2 ()

/-- Whether evaluating an expression raises no exception, given that of its sub-expressions. -/
def neverThrowsForm : Form (Expr × (Unit → Bool)) → Bool
  | .constant _ | .var _ | .defaultOf | .lambda _ _ => true
  | .call receiver method args => c.isNothrowMember method && isSafeReceiver receiver && args.all (·.2 ())
  | .access receiver member => c.isNothrowMember member && isSafeReceiver receiver
  | .new constructor args => constructor.all c.isNothrowMember && args.all (·.2 ())
  | .newArray _ source items => source == .items && items.all (·.2 ())
  | .conditional test whenTrue whenFalse => test.2 () && whenTrue.2 () && whenFalse.2 ()
  | .logical _ left right => left.2 () && right.2 ()
  | .typeTest operand _ _ => operand.2 ()
  | .block _ body => body.all (·.2 ())
  | _ => false

/-- Evaluating the expression raises no exception. -/
def neverThrows (e : Expr) : Bool := Expr.recurse (fun _ form () => c.neverThrowsForm form) e ()

theorem neverThrows_eq (e : Expr) :
    c.neverThrows e = c.neverThrowsForm (e.form.map fun d => (d, fun () => c.neverThrows d)) := by
  rw [neverThrows, Expr.recurse_eq]; rfl

/-- The facts of a catalog. -/
def facts : Facts where
  isPure := c.isPure
  isPureMember := c.isPureMember
  isPureType := c.isPureType
  constantValue? := Expr.constantValue?
  isAlwaysNull := Expr.isAlwaysNull
  isNeverNull := Expr.isNeverNull
  alwaysThrows := Expr.isThrow
  neverThrows := c.neverThrows
  isNothrowMember := c.isNothrowMember
  isIdentity := Expr.isIdentityFunction
  isReadOnly := c.isReadOnly
  isImmutable := c.isImmutable

end Catalog

end TypedTree
