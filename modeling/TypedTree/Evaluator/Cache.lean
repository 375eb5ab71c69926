import TypedTree.Evaluator.Basic

/-!
# A cache of compiled members

A cache remembers every callable it has seen compiled and counts how often it could answer by itself. Faults are not
remembered.
-/

namespace TypedTree

/-- Compiled members. -/
structure Cache (κ : Type) where
  /-- The callables by member. -/
  entries : List (Member × κ)
  /-- How often the answer was remembered. -/
  hits : Nat
  /-- How often it was not. -/
  misses : Nat
deriving Repr

namespace Cache

variable {κ : Type}

/-- The cache that has seen nothing. -/
def empty : Cache κ := ⟨[], 0, 0⟩

/-- The number of remembered callables. -/
def size (c : Cache κ) : Nat := c.entries.length

/-- The cache with nothing remembered; the counts stay. -/
def clear (c : Cache κ) : Cache κ := { c with entries := [] }

/-- The callable of a member: the remembered one, or the one that `source` compiles, which is remembered then. -/
def compile {m : Type → Type} [Monad m] (source : Member → m (Except Fault κ)) (c : Cache κ) (member : Member) :
    m (Except Fault κ × Cache κ) :=
  match c.entries.lookup member with
  | some callable => return (.ok callable, { c with hits := c.hits + 1 })
  | none => do
    let c := { c with misses := c.misses + 1 }
    match ← source member with
    | .ok callable => return (.ok callable, { c with entries := (member, callable) :: c.entries })
    | .error fault => return (.error fault, c)

end Cache

section

variable {σ τ κ : Type}

/-- The operation of a host as one on a larger state that has the host's state as its first part. -/
def Effect.onFirst {α : Type} (x : Effect σ α) : Effect (σ × τ) α := fun w =>
  let (a, v) := x ⟨w.references, w.host.1⟩
  (a, ⟨v.references, (v.host, w.host.2)⟩)

namespace Evaluators

/-- The same evaluators on a larger state, of which they use the first part. -/
def onFirst (ev : Evaluators σ κ) : Evaluators (σ × τ) κ where
  compile m := (ev.compile m).onFirst
  invoke f vs := (ev.invoke f vs).onFirst

/-- The evaluators with a cache in front of them. -/
def cached (ev : Evaluators σ κ) : Evaluators (σ × Cache κ) κ where
  compile m := fun w =>
    let ((result, cache), v) := (w.host.2.compile ev.compile m : Effect σ _) ⟨w.references, w.host.1⟩
    (result, ⟨v.references, (v.host, cache)⟩)
  invoke f vs := (ev.invoke f vs).onFirst

end Evaluators

end

end TypedTree
