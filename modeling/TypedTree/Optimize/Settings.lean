/-!
# Settings

Which reductions are done. A level is a preset of all the switches.
-/

namespace TypedTree

/-- How much is reduced. -/
inductive Level where
  /-- Nothing: a tree is given back as it is. -/
  | none
  /-- Folding and the choice of branches. -/
  | basic
  /-- Everything. -/
  | standard
  /-- Everything, and larger arrays. -/
  | aggressive
deriving DecidableEq, Repr

/-- Which reductions are done. -/
structure Settings where
  /-- The preset. -/
  level : Level
  /-- Evaluate pure members over known operands. -/
  folding : Bool
  /-- Turn dereferences of null into throws. -/
  nullPrediction : Bool
  /-- Inline invocations of function literals. -/
  inlining : Bool
  /-- Merge nested conditionals that share their last branch. -/
  flattening : Bool
  /-- Remove dead catch clauses and handlers that are not needed. -/
  trySimplification : Bool
  /-- The largest number of items of an array that is folded. -/
  arrayLimit : Nat
deriving DecidableEq, Repr

/-- The settings of a level. -/
def Settings.ofLevel (level : Level) : Settings :=
  match level with
  | .none => ⟨level, false, false, false, false, false, 0⟩
  | .basic => ⟨level, true, false, false, false, false, 64⟩
  | .standard => ⟨level, true, true, true, true, true, 1024⟩
  | .aggressive => ⟨level, true, true, true, true, true, 65536⟩

/-- The settings used when none are given. -/
def Settings.standard : Settings := .ofLevel .standard

end TypedTree
