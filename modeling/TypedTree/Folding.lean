import TypedTree.Evaluator.Basic
import TypedTree.Expr.Build
import TypedTree.Expr.Text

/-!
# Folding

What takes the place of an expression once it has been evaluated: a constant of its type for a value, a throw of its type
for an exception. Arrays and default instances are made here, members are run by the host's evaluators.
-/

namespace TypedTree

/-- The number of things that can be counted: lengths and their products lie below it. -/
def wordSize : Nat := UInt64.size

/-- The product of lengths, computed from the left, if it never leaves the range. -/
def product? (lengths : List Nat) : Option Nat :=
  lengths.foldlM (fun total n => if total * n < wordSize then some (total * n) else none) 1

/-- What the bounds of a new array amount to. -/
inductive Bounds where
  /-- One length for each dimension. -/
  | lengths (ls : List Nat)
  /-- A bound is negative, and those before it are not. -/
  | negative
  /-- A bound is no integer, and those before it are not negative. -/
  | unknown
deriving DecidableEq, Repr

/-- The bounds that values stand for; the first that is no length decides. -/
def Bounds.ofValues : List Value → Bounds
  | [] => .lengths []
  | v :: vs =>
    match v.integer? with
    | none => .unknown
    | some i =>
      if i < 0 then .negative
      else match ofValues vs with
        | .lengths ls => .lengths (i.toNat :: ls)
        | other => other

/-- What a new array holds in each place, when it is known: the default value of the element type, or a new default
instance of a declared value type. -/
def elementDefault (ty : Ty) : Fresh .reference (Option Value) :=
  match ty with
  | .named _ =>
    if ty.isPlainValueType then return some (.object (← ObjectOf.make ty [])) else return ty.defaultValue?
  | _ => return ty.defaultValue?

namespace Expr

variable (node : Expr)

/-! ### Constants and throws -/

/-- The constant that takes the place of `node`, if the value can be the value of `node`. -/
def constantFor (value : Value) : Fallible Expr :=
  if node.ty == .void then defaultOf .void
  else if value.isCompatible node.ty then constant value node.ty
  else throwThe Fault (.badResult node.text node.ty)

/-- The throw that takes the place of `node` when its evaluation raised an exception. -/
def throwFor (raised : Exception) : Fresh .node Expr := throwValue (.exception raised.unwrap) node.ty

/-- The throw of a new exception that takes the place of `node`. -/
def raiseFor (exception : Ty) (message : String) : Build Expr := do
  throwValue (.exception (← Exception.make exception message)) node.ty

/-- What takes the place of `node` when its evaluation had the given outcome. -/
def outcomeFor : Except Exception Value → Fallible Expr
  | .ok value => node.constantFor value
  | .error raised => node.throwFor raised

/-- The throw for a dereferenced null. -/
def raiseNullReference : Build Expr :=
  node.raiseFor .nullReference "Object reference not set to an instance of an object."

/-! ### Arrays and instances -/

/-- The array of the given items, unless it has more than `limit` of them. -/
def foldItems (element : Ty) (items : List Value) (limit : Nat) : Build (Option Expr) := do
  if items.length ≤ limit then some <$> constant (.array (← ArrayOf.vector element items)) node.ty
  else return none

/-- The array of defaults with the given bounds; a negative bound raises an overflow. There is none when a bound is no
integer, the default is unknown or there are more than `limit` items. -/
def foldBounds (element : Ty) (bounds : List Value) (limit : Nat) : Build (Option Expr) := do
  match Bounds.ofValues bounds with
  | .unknown => return none
  | .negative => some <$> node.raiseFor .overflow "Arithmetic operation resulted in an overflow."
  | .lengths ls =>
    match product? ls with
    | none => return none
    | some total =>
      if total ≤ limit then
        match ← (if total = 0 then return some .null else elementDefault element) with
        | none => return none
        | some item =>
          some <$> constant (.array (← ArrayOf.make element ls (List.replicate total item))) node.ty
      else return none

/-- The element of an array; a null array raises a null reference, and an index outside the bounds an index out of
range. There is none when the operands are not an array and one integer for each dimension. -/
def foldElement (array : Value) (indices : List Value) : Build (Option Expr) := do
  match array with
  | .null => some <$> node.raiseNullReference
  | .array a =>
    if indices.length = a.lengths.length then
      match indices.mapM Value.integer? with
      | none => return none
      | some is =>
        match a.get? is with
        | some item => some <$> constant item node.ty
        | none => some <$> node.raiseFor .indexOutOfRange "Index was outside the bounds of the array."
    else return none
  | _ => return none

/-- The default instance of the type of `node`, when it is known. -/
def foldDefault : Build (Option Expr) := do
  match ← elementDefault node.ty with
  | some value => some <$> constant value node.ty
  | none => return none

end Expr

/-! ### Delegates -/

/-- Calls targets in order with the same arguments. The value is that of the last target, the first exception ends the
call, and there is no outcome when a target cannot be compiled or there is no target. -/
def Evaluators.invokeAll {σ κ : Type} (ev : Evaluators σ κ) (args : List Value) :
    List (Target Value) → Option Value → Effect σ (Option (Except Exception Value))
  | [], last => return last.map .ok
  | target :: targets, _ => do
    match ← ev.compile target.method with
    | .error _ => return none
    | .ok callable =>
      match ← ev.invoke callable (target.receiver.toList ++ args) with
      | .ok value => ev.invokeAll args targets (some value)
      | .error raised => return some (.error raised)

end TypedTree
