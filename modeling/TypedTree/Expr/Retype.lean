import TypedTree.Expr.Build
import TypedTree.Fault
import TypedTree.Value.Equality

/-!
# Changing the type of an expression

A reduction often replaces an expression by one of another type: a throw taken from an operand, a branch of a
conditional, a body that is inlined. `Expr.retype` gives the replacement the type it needs with the smallest change that
its form allows.
-/

namespace TypedTree.Expr

/-- The last resort: discard the value in a void block, or convert. A conversion needs related types. -/
def coerce (e : Expr) (ty : Ty) : Fallible Expr :=
  if ty == .void then block [] [e] .void
  else if e.ty != .void
      && (e.ty.underlying == ty.underlying || ty.assignableFrom e.ty || e.ty.assignableFrom ty) then
    convert e ty
  else throwThe Fault (.coercion e.ty ty)

/-- The expression with static type `ty`. Constants, defaults, throws and jumps are made again with that type, conditionals
and blocks are retyped where their value comes from, and everything else is coerced. -/
def retype : Expr → Ty → Fallible Expr := recurse fun e form ty =>
  if e.ty == ty then return e
  else match form with
    | .constant value => if value.isCompatible ty then constant value ty else coerce e ty
    | .defaultOf =>
      if ty == .void || Value.equalsOption e.ty.defaultValue? ty.defaultValue? then defaultOf ty
      else coerce e ty
    | .throw exception => throw (exception.map (·.1)) ty
    | .jump kind target value => jump kind target (value.map (·.1)) ty
    | .conditional test whenTrue whenFalse => do
      conditional test.1 (← whenTrue.2 ty) (← whenFalse.2 ty) ty
    | .block locals body =>
      match body.getLast? with
      | some last => do block locals (body.dropLast.map (·.1) ++ [← last.2 ty]) ty
      | none => coerce e ty
    | _ => coerce e ty

end TypedTree.Expr
