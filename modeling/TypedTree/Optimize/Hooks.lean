import TypedTree.Evaluator.Cache
import TypedTree.Evaluator.Native
import TypedTree.Expr.Equality
import TypedTree.Expr.Text

/-!
# Hooks

A host may step in at every node: keep it from being changed, replace it before its rule runs, replace what the rule
made of it. A replacement should keep the static type.

A replacement made before the rule is visited in its turn, so hooks may keep a run going for ever. Hooks say with
`Hooks.allowance` how deeply such visits may be nested; the hooks that change nothing need none.
-/

namespace TypedTree

/-- Where a host with state `σ` steps in. -/
structure Hooks (σ : Type) where
  /-- Whether the node may be changed at all. -/
  admits : Expr → Effect σ Bool
  /-- What is visited in the place of the node. -/
  before : Expr → Effect σ Expr
  /-- What takes the place of a node that was changed. -/
  after : Expr → Effect σ Expr
  /-- How deeply visits of trees that are made on the way may be nested. -/
  allowance : Nat

namespace Hooks

variable {σ τ : Type}

/-- The hooks that change nothing. -/
def none : Hooks σ := ⟨fun _ => return true, pure, pure, 0⟩

/-- The same hooks on a larger state, of which they use the first part. -/
def onFirst (h : Hooks σ) : Hooks (σ × τ) where
  admits e := (h.admits e).onFirst
  before e := (h.before e).onFirst
  after e := (h.after e).onFirst
  allowance := h.allowance

end Hooks

/-- Hooks given by tables: nodes of some kinds are skipped, and nodes equal to a left side are replaced by the right side
of the first such pair. -/
structure Patterns where
  /-- The kinds of nodes that are not changed. -/
  skipped : List String
  /-- The replacements before the rule. -/
  before : List (Expr × Expr)
  /-- The replacements after it. -/
  after : List (Expr × Expr)
  /-- Whether everything the hooks are asked is logged. -/
  traced : Bool

namespace Patterns

/-- The right side of the first pair whose left side equals the node, or the node. -/
def replace (pairs : List (Expr × Expr)) (e : Expr) : Expr :=
  ((pairs.find? fun p => e.equals p.1).map (·.2)).getD e

/-- Logs a line about a node, when logging is asked for. -/
def note (p : Patterns) (word : String) (e : Expr) : Effect Console Unit :=
  if p.traced then modify fun w => { w with host := w.host.log (word ++ " " ++ e.text) } else pure ()

/-- The hooks of the tables. A nesting of visits as deep as the allowance is taken to be endless. -/
def hooks (p : Patterns) : Hooks Console where
  admits e := do
    if p.skipped.contains e.form.kind then
      p.note "skip" e
      return false
    else return true
  before e := do
    p.note "pre" e
    return replace p.before e
  after e := do
    p.note "post" e
    return replace p.after e
  allowance := 10000

end Patterns

end TypedTree
