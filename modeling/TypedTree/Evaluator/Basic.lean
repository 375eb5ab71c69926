import TypedTree.Fault
import TypedTree.Value.Basic

/-!
# Evaluators

How members are run while a tree is optimized. The host compiles a member into something callable and calls it; both
may change the host's own state, of type `σ`. Callables are handles of a type `κ` that the host chooses.
-/

namespace TypedTree

/-- What a host's operations act on: the supply of identities for references and the host's own state. -/
structure World (σ : Type) where
  /-- The supply of identities for references. -/
  references : Supply .reference
  /-- The state of the host. -/
  host : σ

/-- Operations of the host. -/
abbrev Effect (σ : Type) := StateM (World σ)

instance {σ : Type} : MonadLift (Fresh .reference) (Effect σ) :=
  ⟨fun x w => let (a, s) := x w.references; (a, { w with references := s })⟩

/-- How a host with state `σ` runs members, with callables `κ`. -/
structure Evaluators (σ κ : Type) where
  /-- Makes a member callable, or says why it cannot be called. -/
  compile : Member → Effect σ (Except Fault κ)
  /-- Calls a callable with its operands: the receiver, if there is one, then the arguments. -/
  invoke : κ → List Value → Effect σ (Except Exception Value)

end TypedTree
