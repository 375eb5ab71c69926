import TypedTree.Ty.Basic

/-!
# Assignability

When a value of one type can be stored in a location of another without changing its representation. The
hierarchy has one base per class and any number of interfaces; arrays of reference elements are covariant;
`object` accepts everything that has a value and `void` accepts and supplies nothing.
-/

namespace TypedTree.Ty

/-- The types strictly above a type, along base classes, nearest first. -/
def ancestors : Ty → List Ty
  | .object | .void => []
  | .named ⟨_, kind, _, some base, _, _, _⟩ => if kind == .interfaceKind then [] else base :: base.ancestors
  | .named ⟨_, kind, _, none, _, _, _⟩ => if kind == .interfaceKind then [] else [.object]
  | _ => [.object]
termination_by structural t => t

mutual

/-- Whether a type, one of its base classes or one of their interfaces lists `target` as an interface. -/
def implements (target : Ty) : Ty → Bool
  | .named ⟨_, kind, _, base, interfaces, _, _⟩ =>
    implementsAny target interfaces || (kind != .interfaceKind && implementsBase target base)
  | _ => false

/-- Whether one of the interfaces is `target` or implements it. -/
def implementsAny (target : Ty) : List Ty → Bool
  | [] => false
  | i :: is => i == target || implements target i || implementsAny target is

/-- Whether a base class, if there is one, implements `target`. -/
def implementsBase (target : Ty) : Option Ty → Bool
  | none => false
  | some base => implements target base

end

/-- Whether a value of type `source` can be stored in a location of type `target`. -/
def assignableFrom (target source : Ty) : Bool :=
  target == source ||
    match target, source with
    | _, .void | .void, _ => false
    | .object, _ => true
    | .array t m, .array s n => m == n && !s.isValueType && t.assignableFrom s
    | t, s => if t.isInterface then implements t s else s.ancestors.contains t
termination_by structural target

end TypedTree.Ty
