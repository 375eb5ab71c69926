import TypedTree.Evaluator.Cache
import TypedTree.Evaluator.Native

/-!
# A bench for native functions

Evaluators over a registry of native functions that log what they are asked to compile, refuse some members and may have a
cache.
-/

namespace TypedTree

/-- The state of a bench: the console of the native functions and a cache. -/
abbrev Bench := Console × Cache Registration

namespace Bench

/-- Nothing logged, nothing cached. -/
def empty : Bench := (.empty, .empty)

/-- Logs a line. -/
def log (line : String) : Effect Bench Unit :=
  modify fun w => { w with host := (w.host.1.log line, w.host.2) }

/-- The evaluators of a bench. Members in `refused` are never compiled. -/
def evaluators (registry : Registry Registration) (useCache : Bool) (refused : List Member) :
    Evaluators Bench Registration :=
  let natives := registry.natives
  let inner : Evaluators Bench Registration := if useCache then natives.cached else natives.onFirst
  { inner with
    compile := fun m => do
      log ("compile " ++ m.text)
      if refused.contains m then return .error (.other ("refused " ++ m.text)) else inner.compile m }

end Bench

end TypedTree
