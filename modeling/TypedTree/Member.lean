import TypedTree.Ty.Text

/-!
# Members

A member of a type: a method, property, field, constructor or indexer. The library never looks inside one; it
compares members, reads their types and looks them up in tables. Members are equal when they have the same
structure. An instance of a generic member remembers the member it is an instance of, and so does each of its
parameters.
-/

namespace TypedTree

/-- What a member is. -/
inductive MemberKind where
  /-- A method. -/
  | method
  /-- A property. -/
  | property
  /-- A field. -/
  | field
  /-- A constructor. -/
  | constructor
  /-- An indexer. -/
  | indexer
deriving DecidableEq, Repr

/-- A declared parameter. -/
structure Param where
  /-- Its name. -/
  name : String
  /-- Its type. -/
  ty : Ty
deriving DecidableEq, Repr

/-- A member of a type. -/
structure Member where
  /-- Its name. -/
  name : String
  /-- The type it belongs to. -/
  declaring : Ty
  /-- What it is. -/
  kind : MemberKind
  /-- It needs no receiver. -/
  isStatic : Bool
  /-- Its parameters. -/
  params : List Param
  /-- The type of its result, or of the thing constructed. -/
  ty : Ty
  /-- The generic member it is an instance of. -/
  definition : Option Member
deriving Repr

namespace Member

/-- Whether two members have the same structure. What is compared quickly is compared first. -/
def beq : Member → Member → Bool
  | ⟨n, d, k, s, ps, t, none⟩, ⟨n', d', k', s', ps', t', none⟩ =>
    n == n' && k == k' && s == s' && ps.length == ps'.length && d == d' && ps == ps' && t == t'
  | ⟨n, d, k, s, ps, t, some m⟩, ⟨n', d', k', s', ps', t', some m'⟩ =>
    n == n' && k == k' && s == s' && ps.length == ps'.length && d == d' && ps == ps' && t == t' && m.beq m'
  | _, _ => false
termination_by structural m => m

theorem beq_iff : ∀ a b : Member, a.beq b = true ↔ a = b
  | ⟨_, _, _, _, _, _, none⟩, ⟨_, _, _, _, _, _, none⟩ => by grind [beq]
  | ⟨_, _, _, _, _, _, some m⟩, ⟨_, _, _, _, _, _, some m'⟩ => by grind [beq, beq_iff m m']
  | ⟨_, _, _, _, _, _, none⟩, ⟨_, _, _, _, _, _, some _⟩ => by simp [beq]
  | ⟨_, _, _, _, _, _, some _⟩, ⟨_, _, _, _, _, _, none⟩ => by simp [beq]
termination_by structural m => m

instance : DecidableEq Member := fun a b => decidable_of_iff _ (beq_iff a b)

/-- The text of a member: its type and its name, joined by a point. -/
def text (m : Member) : String := m.declaring.text ++ "." ++ m.name

/-- The path of a member: its type and its name, joined by two colons. -/
def path (m : Member) : String := m.declaring.text ++ "::" ++ m.name

instance : ToString Member := ⟨text⟩

end Member

/-- A parameter of a member, by position. -/
structure ParamRef where
  /-- The member. -/
  member : Member
  /-- The position of the parameter, from zero. -/
  position : Nat
deriving DecidableEq, Repr

/-- The parameter at a position, if the member has one there. -/
def Member.param? (m : Member) (position : Nat) : Option ParamRef :=
  if position < m.params.length then some ⟨m, position⟩ else none

namespace ParamRef

/-- What the member declares at the position. -/
def declared? (p : ParamRef) : Option Param := p.member.params[p.position]?

/-- The same position on the generic member that the member is an instance of. -/
def definition? (p : ParamRef) : Option ParamRef := p.member.definition.map (⟨·, p.position⟩)

end ParamRef

end TypedTree
