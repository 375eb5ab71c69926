import TypedTree.Evaluator.Basic

/-!
# Registries of callables

A registry has at most one callable for a member. An instance of a generic member without a callable of its own uses
that of its definition.
-/

namespace TypedTree

/-- Callables `κ` by member. -/
structure Registry (κ : Type) where
  /-- The entries, at most one for a member. -/
  entries : List (Member × κ)
deriving Repr

namespace Registry

variable {κ : Type}

/-- The registry without entries. -/
def empty : Registry κ := ⟨[]⟩

/-- The registry in which the member has that callable. -/
def register (r : Registry κ) (m : Member) (callable : κ) : Registry κ :=
  ⟨(m, callable) :: r.entries.filter (·.1 != m)⟩

/-- The callable of a member or, failing that, of the definition it is an instance of. -/
def find? (r : Registry κ) (m : Member) : Option κ :=
  (r.entries.lookup m).or (m.definition.bind fun d => r.entries.lookup d)

/-- The number of members with a callable of their own. -/
def size (r : Registry κ) : Nat := r.entries.length

/-- The callable of a member, or the fault that there is none. -/
def compile (r : Registry κ) (m : Member) : Except Fault κ :=
  match r.find? m with
  | some callable => .ok callable
  | none => .error (.noEvaluator m.text)

/-- The evaluators that take callables from a registry. -/
def evaluators {σ : Type} (r : Registry κ) (invoke : κ → List Value → Effect σ (Except Exception Value)) :
    Evaluators σ κ where
  compile m := return r.compile m
  invoke := invoke

end Registry

end TypedTree
