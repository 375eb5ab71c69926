import TypedTree.Evaluator.Bench
import TypedTree.Expr.Equality
import TypedTree.Expr.FreeVars
import TypedTree.Optimize.Session
import TypedTree.Record
import TypedTree.Proofs.Forms
import TypedTree.Proofs.Runs
import TypedTree.Proofs.Identity
import TypedTree.Proofs.Retyping
import TypedTree.Proofs.Substitution
import TypedTree.Proofs.FreeVariables
import TypedTree.Proofs.Steps
import TypedTree.Proofs.Rules
import TypedTree.Proofs.Visits
import TypedTree.Proofs.Lambdas
import TypedTree.Proofs.Typing
import TypedTree.Proofs.Scope
import TypedTree.Proofs.Purity
import TypedTree.Proofs.Meaning
import TypedTree.Proofs.Soundness
import TypedTree.Proofs.ValueEquality
import TypedTree.Proofs.WellTyped
import TypedTree.Proofs.Growth
import TypedTree.Proofs.Assignability
import TypedTree.Proofs.Constants
import TypedTree.Proofs.NormalForms
import TypedTree.Proofs.Idempotence
import TypedTree.Proofs.Plans
import TypedTree.Proofs.TwoRuns
import TypedTree.Proofs.Descent
import TypedTree.Proofs.Weights
import TypedTree.Proofs.Counting
import TypedTree.Proofs.Requests
import TypedTree.Proofs.Faults
import TypedTree.Proofs.Caching
import TypedTree.Proofs.InstanceTests
import TypedTree.Proofs.Flattening
import TypedTree.Proofs.Propagation
import TypedTree.Proofs.DeadOperands
import TypedTree.Proofs.Coercion
import TypedTree.Proofs.HandlerSelection
import TypedTree.Proofs.Folds
import TypedTree.Proofs.Nullness
import TypedTree.Proofs.Routes
import TypedTree.Proofs.Defaults
import TypedTree.Proofs.Inlining
import TypedTree.Proofs.SwitchFolding
import TypedTree.Proofs.Upcasts
import TypedTree.Proofs.ArrayBounds
import TypedTree.Proofs.ArrayElements
import TypedTree.Proofs.ChildMapping
import TypedTree.Proofs.Walks
import TypedTree.Proofs.FreeSets
import TypedTree.Proofs.OperandScan
import TypedTree.Proofs.Equality
