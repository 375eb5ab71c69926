import TypedTree.Optimize.Pass

/-!
# Sessions

Several runs of one optimizer, one after the other. Its settings may be changed between them, the world of the host and
the tally live on, and the counts of all runs are added up.
-/

namespace TypedTree

/-- A session in progress. -/
structure Session (σ κ : Type) where
  /-- The optimizer with its current settings. -/
  optimizer : Optimizer σ κ
  /-- The world and the tally of the latest run. -/
  progress : Progress σ
  /-- The latest result of a run that was not halted. -/
  last : Option Expr
  /-- The counts of all runs. -/
  merged : Tally

namespace Session

variable {σ κ : Type}

/-- A session that is about to begin. -/
def start (optimizer : Optimizer σ κ) (supplies : Supplies) (host : σ) : Session σ κ :=
  ⟨optimizer, ⟨supplies.nodes, ⟨supplies.references, host⟩, .empty⟩, none, .empty⟩

/-- What comes of a run, and the session after it. -/
def attempt (s : Session σ κ) (run : Run σ Expr) : Except Halt Expr × Session σ κ :=
  match run s.progress with
  | .ok result p => (.ok result, { s with progress := p, last := some result, merged := s.merged.merge p.tally })
  | .error halt p => (.error halt, { s with progress := p, merged := s.merged.merge p.tally })

/-- Optimizes a whole tree. -/
def optimize (s : Session σ κ) (e : Expr) : Except Halt Expr × Session σ κ := s.attempt (s.optimizer.optimize e)

/-- Optimizes a tree that stands in a context, and goes on counting. -/
def visit (s : Session σ κ) (e : Expr) (cx : Context) : Except Halt Expr × Session σ κ :=
  s.attempt (s.optimizer.visit e cx)

/-- The latest result, or an empty expression before there is any. -/
def latest (s : Session σ κ) : Fresh .node Expr :=
  match s.last with
  | some e => return e
  | none => Expr.defaultOf .void

/-- The session with other settings. -/
def configure (s : Session σ κ) (settings : Settings) : Session σ κ :=
  { s with optimizer := { s.optimizer with settings := settings } }

/-- What is left of the supplies. -/
def supplies (s : Session σ κ) : Supplies := ⟨s.progress.nodes, s.progress.world.references⟩

/-- The session with other supplies, for things that were made in between. -/
def withSupplies (s : Session σ κ) (t : Supplies) : Session σ κ :=
  { s with progress :=
    { s.progress with nodes := t.nodes, world := { s.progress.world with references := t.references } } }

/-- The session with the state of the host changed. -/
def onHost (s : Session σ κ) (f : σ → σ) : Session σ κ :=
  { s with progress := { s.progress with world := { s.progress.world with host := f s.progress.world.host } } }

end Session

end TypedTree
