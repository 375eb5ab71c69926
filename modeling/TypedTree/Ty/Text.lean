import TypedTree.Ty.Basic

/-!
# The text of a type

Built-in types have short names, a nullable is marked `?`, an array by brackets with one comma less than it has
dimensions, a delegate by an arrow, and an instance of a generic type lists its arguments in angle brackets.
-/

namespace TypedTree.Ty

mutual

/-- The text of a type. -/
def text : Ty → String
  | .void => "void"
  | .bool => "bool"
  | .int => "int"
  | .long => "long"
  | .double => "double"
  | .char => "char"
  | .string => "string"
  | .object => "object"
  | .nullable inner => inner.text ++ "?"
  | .array element rank => element.text ++ "[" ++ "".pushn ',' (rank - 1) ++ "]"
  | .function params result => "(" ++ ", ".intercalate (texts params) ++ ") -> " ++ result.text
  | .named ⟨name, _, _, _, _, [], _⟩ => name
  | .named ⟨name, _, _, _, _, arg :: args, _⟩ =>
    name ++ "<" ++ ", ".intercalate (arg.text :: texts args) ++ ">"

/-- The texts of several types, in order. -/
def texts : List Ty → List String
  | [] => []
  | t :: ts => t.text :: texts ts

end

instance : ToString Ty := ⟨text⟩

end TypedTree.Ty
