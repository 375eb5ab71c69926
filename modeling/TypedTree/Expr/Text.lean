import TypedTree.Expr.Basic
import TypedTree.Value.Text

/-!
# The text of an expression

How expressions are displayed, and the names of the kinds of forms.
-/

namespace TypedTree

/-- The name of the kind of a form. -/
def Form.kind {ε : Type} : Form ε → String
  | .constant _ => "const"
  | .var _ => "param"
  | .defaultOf => "default"
  | .convert _ => "convert"
  | .call .. => "call"
  | .access .. => "member"
  | .new .. => "new"
  | .newArray .. => "newarr"
  | .index .. => "index"
  | .invoke .. => "invoke"
  | .lambda .. => "lambda"
  | .conditional .. => "cond"
  | .logical .and _ _ => "and"
  | .logical .or _ _ => "or"
  | .switch .. => "switch"
  | .typeTest .. => "is"
  | .throw _ => "throw"
  | .block .. => "block"
  | .tryCatch .. => "try"
  | .jump .. => "goto"

/-- The keyword of a jump. -/
def JumpKind.text : JumpKind → String
  | .goto => "goto"
  | .returning => "return"
  | .breaking => "break"
  | .continuing => "continue"

/-- The text of a clause whose sub-expressions are texts. -/
def Clause.render (c : Clause String) : String :=
  " catch (" ++ c.test.text ++ ((c.binding.map fun x => " " ++ x.name).getD "") ++ ")"
    ++ ((c.filter.map fun f => " when (" ++ f ++ ")").getD "") ++ " \x7b " ++ c.body ++ " \x7d"

/-- Texts separated by commas. -/
def commaList (texts : List String) : String := ", ".intercalate texts

/-- The text of a form whose sub-expressions are texts, `ty` being the type of the expression. -/
def Form.render (ty : Ty) : Form String → String
  | .constant value => value.text
  | .var x => x.name
  | .defaultOf => "default(" ++ ty.text ++ ")"
  | .convert operand => "(" ++ ty.text ++ ")" ++ operand
  | .call (some receiver) method args => receiver ++ "." ++ method.name ++ "(" ++ commaList args ++ ")"
  | .call none method args => method.text ++ "(" ++ commaList args ++ ")"
  | .access (some receiver) member => receiver ++ "." ++ member.name
  | .access none member => member.text
  | .new _ args => "new " ++ ty.text ++ "(" ++ commaList args ++ ")"
  | .newArray element .items items => "new " ++ element.text ++ "[] \x7b" ++ commaList items ++ "\x7d"
  | .newArray element .bounds items => "new " ++ element.text ++ "[" ++ commaList items ++ "]"
  | .index receiver _ args _ => receiver ++ "[" ++ commaList args ++ "]"
  | .invoke callee args => "(" ++ callee ++ ")(" ++ commaList args ++ ")"
  | .lambda params body => "(" ++ commaList (params.map (·.name)) ++ ") => " ++ body
  | .conditional test whenTrue whenFalse => "(" ++ test ++ " ? " ++ whenTrue ++ " : " ++ whenFalse ++ ")"
  | .logical .and left right => "(" ++ left ++ " && " ++ right ++ ")"
  | .logical .or left right => "(" ++ left ++ " || " ++ right ++ ")"
  | .switch value _ cases fallback =>
    "switch (" ++ value ++ ") \x7b"
      ++ String.join (cases.map fun c => " case " ++ commaList c.tests ++ ": " ++ c.body ++ ";")
      ++ ((fallback.map fun f => " default: " ++ f ++ ";").getD "") ++ " \x7d"
  | .typeTest operand target .isInstance => "(" ++ operand ++ " is " ++ target.text ++ ")"
  | .typeTest operand target .isExact => "(" ++ operand ++ " is exactly " ++ target.text ++ ")"
  | .throw (some exception) => "throw " ++ exception
  | .throw none => "rethrow"
  | .block _ body => "\x7b " ++ String.join (body.map (· ++ "; ")) ++ "\x7d"
  | .tryCatch body clauses cleanup onFault =>
    "try \x7b " ++ body ++ " \x7d" ++ String.join (clauses.map Clause.render)
      ++ ((cleanup.map fun e => " finally \x7b " ++ e ++ " \x7d").getD "")
      ++ ((onFault.map fun e => " fault \x7b " ++ e ++ " \x7d").getD "")
  | .jump kind target value => kind.text ++ " " ++ target.name ++ ((value.map (" " ++ ·)).getD "")

/-- The text of an expression. -/
def Expr.text (e : Expr) : String := Expr.recurse (fun e form () => (form.map (·.2 ())).render e.ty) e ()

instance : ToString Expr := ⟨Expr.text⟩

end TypedTree
