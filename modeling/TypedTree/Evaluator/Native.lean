import TypedTree.Evaluator.Registry
import TypedTree.Value.Equality
import TypedTree.Value.Text

/-!
# Native functions

A small library of functions that can be registered for members. Every call is logged, and every registration counts
its calls.
-/

namespace TypedTree

/-- A native function. -/
inductive Native where
  /-- The sum of two integers of 32 bits. -/
  | add
  /-- Whether one integer is less than another. -/
  | less
  /-- Whether two values have the same structure. -/
  | eq
  /-- Two texts, joined. -/
  | concat
  /-- The number of characters of a text. -/
  | length
  /-- The array of the integers from zero up to a number. -/
  | range
  /-- The number of items of an array. -/
  | count
  /-- The argument at a position. -/
  | arg (position : Nat)
  /-- A fixed value. -/
  | const (value : Value)
  /-- Raises a new exception, wrapped a number of times. -/
  | raise (ty : Ty) (message : String) (wraps : Nat)
  /-- A new object whose fields are the arguments. -/
  | new (ty : Ty) (fields : List String)
  /-- A field of an object. -/
  | field (name : String)
  /-- A new array of the arguments. -/
  | pack
  /-- The number of calls so far. -/
  | tick
  /-- A function that refuses every argument. -/
  | unknown
deriving Repr

/-- A native function registered for a member. -/
structure Registration where
  /-- The number of the registration. -/
  slot : Nat
  /-- The member it was registered for. -/
  member : Member
  /-- The function. -/
  function : Native
deriving Repr

/-- The state that native functions act on. -/
structure Console where
  /-- The lines logged so far, latest first. -/
  lines : List String
  /-- The number of calls by registration. -/
  calls : List (Nat × Nat)
deriving Repr

namespace Console

/-- Nothing logged, nothing called. -/
def empty : Console := ⟨[], []⟩

/-- The state after one more line. -/
def log (c : Console) (line : String) : Console := { c with lines := line :: c.lines }

/-- The lines in the order in which they were logged. -/
def transcript (c : Console) : List String := c.lines.reverse

/-- The number of calls of a registration. -/
def callsOf (c : Console) (slot : Nat) : Nat := (c.calls.lookup slot).getD 0

/-- The state after one more call of a registration. -/
def called (c : Console) (slot : Nat) : Console :=
  { c with calls := (slot, c.callsOf slot + 1) :: c.calls.filter (·.1 != slot) }

end Console

namespace Native

/-- A failed call. -/
def fail (ty : Ty) (message : String) : Fresh .reference (Except Exception Value) := return .error (← Exception.make ty message)

/-- The failure of a call with arguments the function has no answer for. -/
def badOperands : Fresh .reference (Except Exception Value) := fail .invalidCast "bad operands"

/-- The integer as a value of 32 bits. -/
def int (i : Int) : Value := .int (Int32.ofInt i)

/-- The outcome of a call, `calls` being the number of calls so far with this one. -/
def apply (calls : Nat) : Native → List Value → Fresh .reference (Except Exception Value)
  | .add, [.int a, .int b] =>
    let sum := a.toInt + b.toInt
    if Int32.minValue.toInt ≤ sum ∧ sum ≤ Int32.maxValue.toInt then return .ok (int sum)
    else return .error (← (← Exception.make .overflow "overflow").wrap)
  | .less, [a, b] =>
    match a.integer?, b.integer? with
    | some i, some j => return .ok (.bool (decide (i < j)))
    | _, _ => badOperands
  | .eq, [a, b] => return .ok (.bool (a.equals b))
  | .concat, [.string a, .string b] => return .ok (.string (a ++ b))
  | .concat, [_, _] => fail .nullReference "null operand"
  | .length, [.string s] => return .ok (int s.length)
  | .length, [.null] => fail .nullReference "null string"
  | .range, [.int n] => return .ok (.array (← ArrayOf.vector .int ((List.range n.toInt.toNat).map fun i : Nat => int i)))
  | .count, [.array a] => return .ok (int a.items.length)
  | .count, [.null] => fail .nullReference "null array"
  | .arg n, args =>
    match args[n]? with
    | some value => return .ok value
    | none => fail .invalidCast "missing argument"
  | .const value, _ => return .ok value
  | .raise ty message wraps, _ => return .error (← (← Exception.make ty message).wrapTimes wraps)
  | .new ty fields, args => return .ok (.object (← ObjectOf.make ty (fields.zip args)))
  | .field name, [.object o] =>
    match o.field? name with
    | some value => return .ok value
    | none => fail .invalidCast "no such field"
  | .field _, [.null] => fail .nullReference "null object"
  | .pack, args => return .ok (.array (← ArrayOf.vector .object args))
  | .tick, _ => return .ok (int calls)
  | _, _ => badOperands

end Native

/-- Calls a registered function: logs the call, counts it and gives its outcome. -/
def Registration.invoke (r : Registration) (args : List Value) : Effect Console (Except Exception Value) := do
  let line := "call " ++ r.member.text ++ "(" ++ ", ".intercalate (args.map Value.text) ++ ")"
  modify fun w => { w with host := (w.host.log line).called r.slot }
  r.function.apply ((← get).host.callsOf r.slot) args

/-- The evaluators of native functions. -/
def Registry.natives (r : Registry Registration) : Evaluators Console Registration :=
  r.evaluators Registration.invoke

end TypedTree
