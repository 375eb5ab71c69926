import TypedTree.Expr.FreeVars
import TypedTree.Expr.Substitution
import TypedTree.Optimize.Run

/-!
# Rules for invocations

An invocation of a function literal over known arguments is replaced by its body, with the arguments substituted for the
parameters, and the result is visited again: only known values are substituted, so no work is repeated or lost. An
invocation of a known delegate is folded when its targets are pure.
-/

namespace TypedTree

/-! ### Inlining -/

/-- The literal that is substituted for each parameter, if every argument has a known value and can be given the type of
its parameter. -/
def literals? (facts : Facts) : List (Var × Expr) → Fresh .node (Option Substitution)
  | [] => return some []
  | (x, arg) :: rest => do
    match facts.constantValue? arg with
    | none => return none
    | some value =>
      match ← (do (← Expr.constant value arg.ty).retype x.ty : Fallible Expr).toOption with
      | none => return none
      | some literal => return (← literals? facts rest).map ((x, literal) :: ·)

/-- The body of a function literal with known arguments in the place of its parameters. There is none when the numbers
differ, a parameter is listed twice, an argument has no known value or does not fit its parameter. -/
def inline? (facts : Facts) (params : List Var) (body : Expr) (args : List Expr) : Fresh .node (Option Expr) := do
  if params.length = args.length ∧ params.Nodup then
    match ← literals? facts (params.zip args) with
    | none => return none
    | some s => some <$> body.substitute s
  else return none

namespace Optimizer

variable {σ κ : Type} (o : Optimizer σ κ)

/-- The body is a throw that does not refer to the parameters. -/
def throwsRegardless (params : List Var) (body : Expr) : Bool :=
  o.facts.alwaysThrows body &&
    let free := freeVars [body]
    params.all (!free.contains ·)

/-- An invocation of a function literal. `again` visits what inlining made. -/
def invokeLiteral (again : Expr → Context → Run σ Expr) (node : Expr) (params : List Var) (body : Expr)
    (args : List Expr) (cx : Context) : Run σ Expr := do
  let known := Operands.analyze o.facts args
  if known.throws then o.propagateThrow node args known
  else if known.allKnown then
    if o.throwsRegardless params body then throwInstead node body
    else if o.settings.inlining then
      match ← inline? o.facts params body args with
      | none => return node
      | some reduced =>
        let reduced ← reduced.retype node.ty
        record .inlined
        again reduced cx
    else return node
  else return node

/-- An invocation of anything else. -/
def invokeDelegate (node callee : Expr) (args : List Expr) (cx : Context) : Run σ Expr := do
  let operands := callee :: args
  let known := Operands.analyze o.facts operands
  if known.throws then o.propagateThrow node operands known
  else if o.dereferencesNull (some callee) known then predictNull node
  else if known.allKnown && o.mayFold node.ty cx then
    match known.values with
    | .delegate d :: arguments =>
      if !d.targets.isEmpty && d.targets.all (o.facts.isPureMember ·.method) then
        match ← o.evaluators.invokeAll arguments d.targets none with
        | some outcome => foldTo node (some (← node.outcomeFor outcome))
        | none =>
          record .refused
          return node
      else return node
    | _ => return node
  else return node

/-- An invocation. -/
def invoke (again : Expr → Context → Run σ Expr) (node callee : Expr) (args : List Expr) (cx : Context) :
    Run σ Expr :=
  match callee.form with
  | .lambda params body => o.invokeLiteral again node params body args cx
  | _ => o.invokeDelegate node callee args cx

end Optimizer

end TypedTree
