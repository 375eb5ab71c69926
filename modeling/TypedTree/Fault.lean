import TypedTree.Supply
import TypedTree.Ty.Text

/-!
# Faults

What can go wrong while a tree is optimized, other than an exception of the program the tree stands for: those are
values (`TypedTree.Exception`), and a reduction turns them into throws.
-/

namespace TypedTree

/-- Why a reduction could not be done. -/
inductive Fault where
  /-- No expression of type `source` can be made one of type `target`. -/
  | coercion (source target : Ty)
  /-- An evaluator returned a value that the replaced expression cannot have. -/
  | badResult (subject : String) (expected : Ty)
  /-- No evaluator is known for a member. -/
  | noEvaluator (member : String)
  /-- A reason of the host's own. -/
  | other (text : String)
deriving DecidableEq, Repr

/-- The message of a fault. -/
def Fault.message : Fault → String
  | .coercion source target => "Cannot coerce expression of type " ++ source.text ++ " to " ++ target.text
  | .badResult subject expected =>
    "Evaluator for " ++ subject ++ " returned a value incompatible with " ++ expected.text
  | .noEvaluator member => "No evaluator registered for " ++ member
  | .other text => text

/-- Computations that may make nodes and may end in a fault. -/
abbrev Fallible := StateT (Supply .node) (Except Fault)

instance : MonadLift (Fresh .node) Fallible := ⟨fun x s => .ok (x s)⟩

/-- The outcome without the reason of a fault; what a failed computation drew from the supply is free again. -/
def Fallible.toOption {α : Type} (x : Fallible α) : Fresh .node (Option α) := fun s =>
  match x s with
  | .ok (a, s') => (some a, s')
  | .error _ => (none, s)

end TypedTree
