import TypedTree.Expr.Basic

/-!
# Facts about expressions

What an optimizer may ask about expressions, members, types and parameters. `Facts` is the interface; where its answers
come from is the host's choice (`TypedTree.Facts.Structural` derives them from the shape of a tree and a catalog).
The facts about known values below follow from `Facts.constantValue?` alone.
-/

namespace TypedTree

/-- Facts about expressions and about the library members they use. -/
structure Facts where
  /-- Evaluating the expression has no side effect. -/
  isPure : Expr → Bool
  /-- Using the member has no side effect. -/
  isPureMember : Member → Bool
  /-- Making the default instance of the type has no side effect. -/
  isPureType : Ty → Bool
  /-- The value of the expression, when it is known. -/
  constantValue? : Expr → Option Value
  /-- The expression evaluates to null. -/
  isAlwaysNull : Expr → Bool
  /-- The expression does not evaluate to null. -/
  isNeverNull : Expr → Bool
  /-- Evaluating the expression raises an exception. -/
  alwaysThrows : Expr → Bool
  /-- Evaluating the expression raises no exception. -/
  neverThrows : Expr → Bool
  /-- Using the member raises no exception. -/
  isNothrowMember : Member → Bool
  /-- The expression is a function literal that gives back its argument. -/
  isIdentity : Expr → Bool
  /-- The member only reads what is passed for the parameter. -/
  isReadOnly : ParamRef → Bool
  /-- No instance of the type can be changed. -/
  isImmutable : Ty → Bool

namespace Facts

variable (facts : Facts) (e : Expr)

/-- The value of the expression is known. -/
def isKnown : Bool := (facts.constantValue? e).isSome

/-- The known truth value of the expression. -/
def truth? : Option Bool := (facts.constantValue? e).bind Value.bool?

/-- The expression is known to be false. -/
def isFalse : Bool := facts.truth? e == some false

/-- The expression is known to be true. -/
def isTrue : Bool := facts.truth? e == some true

/-- The known value is a number equal to the given integer or double. -/
def isNumber (i : Int) (d : Double) : Bool :=
  match facts.constantValue? e with
  | some (.double x) => x.equals d
  | some v => v.integer? == some i
  | none => false

/-- The known value is zero. -/
def isZero : Bool := facts.isNumber e 0 .zero

/-- The known value is one. -/
def isOne : Bool := facts.isNumber e 1 .one

/-- The known value is the truth value or the integer, read as a row of bits. -/
def isBits (b : Bool) (i : Int) : Bool :=
  match facts.constantValue? e with
  | some (.bool x) => x == b
  | some v => v.integer? == some i
  | none => false

/-- All bits of the known value are zero. -/
def allBitsZero : Bool := facts.isBits e false 0

/-- All bits of the known value are one. -/
def allBitsOne : Bool := facts.isBits e true (-1)

/-- The known value is the least of its type. -/
def isLeast : Bool :=
  match facts.constantValue? e with
  | some (.int i) => i == Int32.minValue
  | some (.long i) => i == Int64.minValue
  | some (.double x) => x.equals .least
  | some (.char c) => c.toNat == 0
  | _ => false

/-- The known value is the largest of its type. -/
def isLargest : Bool :=
  match facts.constantValue? e with
  | some (.int i) => i == Int32.maxValue
  | some (.long i) => i == Int64.maxValue
  | some (.double x) => x.equals .largest
  | some (.char c) => c.toNat == 0x10ffff
  | _ => false

end Facts

end TypedTree
