import TypedTree.Value.Basic

/-!
# Equality of values

Values are equal in two senses. Structurally (`Value.equals`), references are compared by what they hold and doubles
numerically, so a NaN differs from itself. By default (`Value.defaultEquals`), which is how a switch compares,
references are compared by identity and everything else structurally.

Values may share parts that are large when written out, so lists are compared element by element only when they have the
same length.
-/

namespace TypedTree

/-- Whether two exceptions have the same type, message and inner exceptions. -/
def Exception.equals : Exception → Exception → Bool
  | ⟨_, t, m, none⟩, ⟨_, t', m', none⟩ => m == m' && t == t'
  | ⟨_, t, m, some e⟩, ⟨_, t', m', some e'⟩ => m == m' && t == t' && e.equals e'
  | _, _ => false
termination_by structural e => e

namespace Value

mutual

/-- Whether two values have the same structure. -/
def equals : Value → Value → Bool
  | .null, .null => true
  | .bool a, .bool b => a == b
  | .int a, .int b => a == b
  | .long a, .long b => a == b
  | .double a, .double b => a.equals b
  | .char a, .char b => a == b
  | .string a, .string b => a == b
  | .array ⟨_, t, ls, xs⟩, .array ⟨_, t', ls', ys⟩ =>
    t == t' && ls == ls' && xs.length == ys.length && equalsList xs ys
  | .object ⟨_, t, fs⟩, .object ⟨_, t', gs⟩ => t == t' && fs.length == gs.length && equalsFields fs gs
  | .exception a, .exception b => a.equals b
  | .delegate ⟨_, t, xs⟩, .delegate ⟨_, t', ys⟩ => t == t' && xs.length == ys.length && equalsTargets xs ys
  | _, _ => false

/-- Whether two lists hold equal values in the same order. -/
def equalsList : List Value → List Value → Bool
  | [], [] => true
  | x :: xs, y :: ys => x.equals y && equalsList xs ys
  | _, _ => false

/-- Whether two lists hold the same fields in the same order. -/
def equalsFields : List (String × Value) → List (String × Value) → Bool
  | [], [] => true
  | (n, x) :: xs, (n', y) :: ys => n == n' && x.equals y && equalsFields xs ys
  | _, _ => false

/-- Whether two lists hold the same targets in the same order. -/
def equalsTargets : List (Target Value) → List (Target Value) → Bool
  | [], [] => true
  | ⟨m, r⟩ :: xs, ⟨m', r'⟩ :: ys => m == m' && equalsOption r r' && equalsTargets xs ys
  | _, _ => false

/-- Whether both are absent, or both present and equal. -/
def equalsOption : Option Value → Option Value → Bool
  | none, none => true
  | some x, some y => x.equals y
  | _, _ => false

end

/-- The equality of a switch: references by identity, everything else by structure. -/
def defaultEquals : Value → Value → Bool
  | .array a, .array b => a.id == b.id
  | .object a, .object b => a.id == b.id
  | .exception a, .exception b => a.id == b.id
  | .delegate a, .delegate b => a.id == b.id
  | a, b => a.equals b

end Value

end TypedTree
