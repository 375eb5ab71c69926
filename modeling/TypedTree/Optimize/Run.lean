import TypedTree.Expr.Retype
import TypedTree.Facts.Structural
import TypedTree.Folding
import TypedTree.Operands
import TypedTree.Optimize.Hooks
import TypedTree.Optimize.Settings
import TypedTree.Optimize.Tally

/-!
# Runs of the optimizer

An optimizer is put together from facts, evaluators, hooks and settings. Its computations act on the host's world and on a
tally, and may halt early; the tally and the world then stay as they are at that moment.

Here are also the steps that the rules for the various forms share.
-/

namespace TypedTree

/-- Why a run ends without a result. -/
inductive Halt where
  /-- A fault. -/
  | fault (f : Fault)
  /-- A rule gave a node of type `before` the type `after`. -/
  | typeChanged (before after : Ty)
  /-- Visits are nested more deeply than the hooks allow. -/
  | exhausted
deriving DecidableEq, Repr

/-- What a run acts on. -/
structure Progress (σ : Type) where
  /-- The supply of identities for nodes. -/
  nodes : Supply .node
  /-- The world of the host. -/
  world : World σ
  /-- The counts so far. -/
  tally : Tally

/-- Computations of an optimizer. -/
abbrev Run (σ : Type) := EStateM Halt (Progress σ)

instance {σ : Type} : MonadLift (Effect σ) (Run σ) :=
  ⟨fun x s => let (a, w) := x s.world; .ok a { s with world := w }⟩

instance {σ : Type} : MonadLift (Fresh .node) (Run σ) :=
  ⟨fun x s => let (a, nodes) := x s.nodes; .ok a { s with nodes := nodes }⟩

instance {σ : Type} : MonadLift Build (Run σ) :=
  ⟨fun x s =>
    let (a, t) := x ⟨s.nodes, s.world.references⟩
    .ok a { s with nodes := t.nodes, world := { s.world with references := t.references } }⟩

instance {σ : Type} : MonadLift Fallible (Run σ) :=
  ⟨fun x s =>
    match x s.nodes with
    | .ok (a, nodes) => .ok a { s with nodes := nodes }
    | .error f => .error (.fault f) s⟩

/-- The place of an expression, as far as it matters for optimizing it. -/
structure Context where
  /-- The value goes to a parameter that its member only reads. -/
  readOnly : Bool
deriving DecidableEq, Repr

/-- A place of which nothing is known. -/
def Context.plain : Context := ⟨false⟩

/-- An optimizer for a host with state `σ` and callables `κ`. -/
structure Optimizer (σ κ : Type) where
  /-- The facts it relies on. -/
  facts : Facts
  /-- The evaluators it runs members with. -/
  evaluators : Evaluators σ κ
  /-- The hooks it calls. -/
  hooks : Hooks σ
  /-- Which reductions it does. -/
  settings : Settings

namespace Optimizer

variable {σ κ : Type} (o : Optimizer σ κ)

/-- Counts a reduction. -/
def record (r : Reduction) : Run σ Unit := modify fun s => { s with tally := s.tally.record r }

/-- Counts a fold, which made a constant or a throw. -/
def recordFold (folded : Expr) : Run σ Unit := record (if folded.isThrow then .threw else .folded)

/-- Whether a fold may share the value it makes: nobody can change it, or nobody who gets it does. -/
def mayFold (ty : Ty) (cx : Context) : Bool :=
  o.settings.folding && (cx.readOnly || o.facts.isImmutable ty)

/-- The throw `thrower` in the place of `node`. -/
def throwInstead (node thrower : Expr) : Run σ Expr := do
  let result ← thrower.retype node.ty
  record .threw
  return result

/-- The branch that is taken, in the place of `node`. -/
def takeBranch (node branch : Expr) : Run σ Expr := do
  let result ← branch.retype node.ty
  record .branch
  return result

/-- The first throwing operand in the place of `node`, after the impure operands before it. -/
def propagateThrow (node : Expr) (operands : List Expr) (known : Operands) : Run σ Expr := do
  match known.thrower with
  | none => return node
  | some (position, thrower) =>
    let coerced ← thrower.retype node.ty
    let result ←
      if known.allPure then pure coerced
      else Expr.block [] ((operands.take position).filter (!o.facts.isPure ·) ++ [coerced]) node.ty
    record .threw
    return result

/-- Whether `node` surely dereferences the null in `receiver` and does nothing else. -/
def dereferencesNull (receiver : Option Expr) (known : Operands) : Bool :=
  o.settings.nullPrediction && known.allPure && receiver.any o.facts.isAlwaysNull

/-- The throw for a dereferenced null in the place of `node`. -/
def predictNull (node : Expr) : Run σ Expr := do
  let result ← node.raiseNullReference
  record .nullDereference
  return result

/-- A callable for a member; failing that, the refusal is counted. -/
def compile? (member : Member) : Run σ (Option κ) := do
  match ← o.evaluators.compile member with
  | .ok callable => return some callable
  | .error _ =>
    record .refused
    return none

/-- `node`, folded by running a member over known operands; `node` itself when the member cannot be compiled. -/
def runMember (node : Expr) (member : Member) (values : List Value) : Run σ Expr := do
  match ← o.compile? member with
  | none => return node
  | some callable =>
    let folded ← node.outcomeFor (← o.evaluators.invoke callable values)
    recordFold folded
    return folded

/-- `node`, folded to what was found for it, if anything was. -/
def foldTo (node : Expr) : Option Expr → Run σ Expr
  | none => return node
  | some folded => do
    recordFold folded
    return folded

end Optimizer

end TypedTree
