import TypedTree.Facts.Basic

/-!
# Operands in the order of evaluation

Operands are evaluated from left to right, and the first that throws ends the evaluation. The scan of a list of
operands therefore stops at the first that always throws: those after it are never evaluated and do not matter.
-/

namespace TypedTree

/-- What is known of the operands of an expression. -/
structure Operands where
  /-- Every operand before the first throwing one is pure. -/
  allPure : Bool
  /-- Every operand before the first throwing one has a known value. -/
  allKnown : Bool
  /-- The known values in order, when all are known. -/
  values : List Value
  /-- The first operand that always throws, with its position. -/
  thrower : Option (Nat × Expr)

namespace Operands

/-- No operands. -/
def none : Operands := ⟨true, true, [], .none⟩

/-- One more operand, which need not throw. The first one without a known value drops the values, and none is collected
after it. -/
def push (facts : Facts) (o : Operands) (e : Expr) : Operands :=
  let pure := o.allPure && facts.isPure e
  if o.allKnown then
    match facts.constantValue? e with
    | some value => { o with allPure := pure, values := o.values ++ [value] }
    | .none => { o with allPure := pure, allKnown := false, values := [] }
  else { o with allPure := pure }

/-- The scan of operands from a position on, after those described by `o`. -/
def scan (facts : Facts) (o : Operands) : Nat → List Expr → Operands
  | _, [] => o
  | position, e :: es =>
    if facts.alwaysThrows e then { o with thrower := some (position, e) }
    else scan facts (o.push facts e) (position + 1) es

/-- What is known of operands that are evaluated in the given order. -/
def analyze (facts : Facts) (operands : List Expr) : Operands := scan facts .none 0 operands

/-- One of the operands always throws. -/
def throws (o : Operands) : Bool := o.thrower.isSome

/-- Every operand has a known value and none throws. -/
def canEvaluate (o : Operands) : Bool := !o.throws && o.allKnown

end Operands

end TypedTree
