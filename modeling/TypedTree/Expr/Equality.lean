import TypedTree.Expr.Basic
import TypedTree.Value.Equality

/-!
# Equality of expressions

Two expressions are equal when they are the very same node, or when they have equal types and forms, sub-expressions
being compared in the same way. So a node always equals itself, even one that holds a NaN, which equals no other
node. Variables and labels are compared by identity, clauses like expressions.

Sub-expressions may be shared and then take long to compare, so they are compared from left to right and no further than to
the first difference, and not at all when there are more of them on one side.
-/

namespace TypedTree

section Agreement

variable {α β : Type} (r : α → β → Bool)

/-- Whether both are absent, or both present and related by `r`. -/
def agreeOption : Option α → Option β → Bool
  | none, none => true
  | some a, some b => r a b
  | _, _ => false

/-- Whether two lists have the same length and are related element by element. No elements are compared when the lengths
differ. -/
def agreeList (as : List α) (bs : List β) : Bool :=
  as.length == bs.length && (as.zip bs).all fun p => r p.1 p.2

@[simp] theorem agreeList_nil : agreeList r [] [] = true := rfl

@[simp] theorem agreeList_cons (a : α) (as : List α) (b : β) (bs : List β) :
    agreeList r (a :: as) (b :: bs) = (r a b && agreeList r as bs) := by
  simp [agreeList, Bool.and_left_comm]

/-- Whether the parts of two cases are related. -/
def Case.agree (c : Case α) (d : Case β) : Bool := agreeList r c.tests d.tests && r c.body d.body

/-- Whether two clauses are the same one, or have the same test and binding and related parts. -/
def Clause.agree (c : Clause α) (d : Clause β) : Bool :=
  c.id == d.id ||
    (c.test == d.test && c.binding == d.binding && agreeOption r c.filter d.filter && r c.body d.body)

/-- Whether two forms are of one kind, have equal data and related sub-expressions. -/
def Form.agree : Form α → Form β → Bool
  | .constant v, .constant w => v.equals w
  | .var x, .var y => x == y
  | .defaultOf, .defaultOf => true
  | .convert a, .convert b => r a b
  | .call a m as, .call b n bs => agreeOption r a b && m == n && agreeList r as bs
  | .access a m, .access b n => agreeOption r a b && m == n
  | .new m as, .new n bs => m == n && agreeList r as bs
  | .newArray t k as, .newArray u l bs => t == u && k == l && agreeList r as bs
  | .index a m as x, .index b n bs y => x == y && r a b && m == n && agreeList r as bs
  | .invoke a as, .invoke b bs => r a b && agreeList r as bs
  | .lambda xs a, .lambda ys b => xs == ys && r a b
  | .conditional a t f, .conditional b u g => r a b && r t u && r f g
  | .logical k a c, .logical l b d => k == l && r a b && r c d
  | .switch a m cs x, .switch b n ds y => r a b && m == n && agreeList (Case.agree r) cs ds && agreeOption r x y
  | .typeTest a t k, .typeTest b u l => k == l && r a b && t == u
  | .throw a, .throw b => agreeOption r a b
  | .block xs as, .block ys bs => xs == ys && agreeList r as bs
  | .tryCatch a cs x f, .tryCatch b ds y g =>
    r a b && agreeList (Clause.agree r) cs ds && agreeOption r x y && agreeOption r f g
  | .jump k s a, .jump l t b => k == l && s == t && agreeOption r a b
  | _, _ => false

end Agreement

/-- Whether two expressions are the very same node or have the same structure. -/
def Expr.equals : Expr → Expr → Bool := Expr.recurse fun e form other =>
  e.same other || (e.ty == other.ty && form.agree (fun child c => child.2 c) other.form)

theorem Expr.equals_eq (e other : Expr) :
    e.equals other = (e.same other || (e.ty == other.ty
      && (e.form.map fun c => (c, c.equals)).agree (fun child c => child.2 c) other.form)) := by
  rw [equals, recurse_eq]

/-- Whether two clauses are the very same one or have the same structure. -/
def Clause.equals : Clause Expr → Clause Expr → Bool := Clause.agree Expr.equals

instance : BEq Expr := ⟨Expr.equals⟩

end TypedTree
