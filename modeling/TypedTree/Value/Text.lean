import TypedTree.Double.Text
import TypedTree.Value.Basic

/-!
# The text of a value

Texts and characters stand in quotes as they are, an array shows its items, an object only its type, an
exception its type and message, a delegate the names of its methods.
-/

namespace TypedTree.Value

mutual

/-- The text of a value. -/
def text : Value → String
  | .null => "null"
  | .bool b => if b then "true" else "false"
  | .int i => toString i.toInt
  | .long i => toString i.toInt ++ "L"
  | .double x => x.text
  | .char c => "'" ++ String.singleton c ++ "'"
  | .string s => "\"" ++ s ++ "\""
  | .array ⟨_, element, _, items⟩ => element.text ++ "[" ++ ", ".intercalate (texts items) ++ "]"
  | .object ⟨_, ty, _⟩ => "<" ++ ty.text ++ ">"
  | .exception e => e.ty.text ++ "(\"" ++ e.message ++ "\")"
  | .delegate ⟨_, _, targets⟩ => "delegate" ++ String.join (targets.map fun t => " " ++ t.method.name)

/-- The texts of several values, in order. -/
def texts : List Value → List String
  | [] => []
  | v :: vs => v.text :: texts vs

end

instance : ToString Value := ⟨text⟩

end TypedTree.Value
