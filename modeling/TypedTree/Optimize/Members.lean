import TypedTree.Optimize.Run

/-!
# Rules for members, instances and arrays

The operands come first: one that always throws takes the place of the expression, and a null receiver makes it a
throw. When all operands are known and the member is pure, the expression is folded.
-/

namespace TypedTree.Optimizer

variable {σ κ : Type} (o : Optimizer σ κ)

/-- A call of a method, or a read of a property or field as a call without arguments. -/
def useMember (node : Expr) (receiver : Option Expr) (member : Member) (args : List Expr) (cx : Context) :
    Run σ Expr := do
  let operands := receiver.toList ++ args
  let known := Operands.analyze o.facts operands
  if known.throws then o.propagateThrow node operands known
  else if o.dereferencesNull receiver known then predictNull node
  else if known.allKnown && o.facts.isPureMember member && o.mayFold node.ty cx then
    o.runMember node member known.values
  else return node

/-- A new instance. -/
def newInstance (node : Expr) (constructor : Option Member) (args : List Expr) (cx : Context) : Run σ Expr := do
  let known := Operands.analyze o.facts args
  if known.throws then o.propagateThrow node args known
  else if known.allKnown && o.mayFold node.ty cx then
    match constructor with
    | some constructor =>
      if o.facts.isPureMember constructor then o.runMember node constructor known.values else return node
    | none => if o.facts.isPureType node.ty then foldTo node (← node.foldDefault) else return node
  else return node

/-- A new array. -/
def newArray (node : Expr) (element : Ty) (source : ArraySource) (items : List Expr) (cx : Context) :
    Run σ Expr := do
  let known := Operands.analyze o.facts items
  if known.throws then o.propagateThrow node items known
  else if known.allKnown && o.mayFold node.ty cx then
    match source with
    | .items => foldTo node (← node.foldItems element known.values o.settings.arrayLimit)
    | .bounds => foldTo node (← node.foldBounds element known.values o.settings.arrayLimit)
  else return node

/-- An element that is read. What is read from an array need not be immutable: it is not made by the fold. -/
def readElement (node receiver : Expr) (indexer : Option Member) (args : List Expr) (cx : Context) :
    Run σ Expr := do
  let operands := receiver :: args
  let known := Operands.analyze o.facts operands
  if known.throws then o.propagateThrow node operands known
  else if o.dereferencesNull (some receiver) known then predictNull node
  else if known.allKnown && o.settings.folding then
    match indexer, known.values with
    | none, array :: indices => foldTo node (← node.foldElement array indices)
    | none, [] => return node
    | some indexer, values =>
      if o.facts.isPureMember indexer && o.mayFold node.ty cx then o.runMember node indexer values
      else return node
  else return node

end TypedTree.Optimizer
