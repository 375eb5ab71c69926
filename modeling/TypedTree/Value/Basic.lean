import TypedTree.Double.Basic
import TypedTree.Member
import TypedTree.Supply
import TypedTree.Ty.Assignable

/-!
# Values

What constants hold and what evaluators return. Null, truth values, numbers, characters and texts are plain
data; arrays, objects, exceptions and delegates are references and carry the identity they were made with.

## The model

`ArrayOf`, `ObjectOf` and `DelegateOf` are the three kinds of references that hold other values; `Value` ties the
knot. `Value.runtimeType?` is the exact type of a value, and `Value.isCompatible` says whether a value may be the
value of an expression of a given static type.
-/

namespace TypedTree

/-- An exception. -/
structure Exception where
  /-- Its identity. -/
  id : Nat
  /-- Its exact type. -/
  ty : Ty
  /-- Its message. -/
  message : String
  /-- The exception it wraps. -/
  inner : Option Exception
deriving Repr

namespace Exception

/-- A new exception that wraps nothing. -/
def make (ty : Ty) (message : String) : Fresh .reference Exception := return ⟨← fresh, ty, message, none⟩

/-- A new exception of the kind that an indirect invocation puts around what its target raised. -/
def wrap (inner : Exception) : Fresh .reference Exception :=
  return ⟨← fresh, .targetInvocation, "Exception has been thrown by the target of an invocation.", some inner⟩

/-- `wrap`, repeated. -/
def wrapTimes : Nat → Exception → Fresh .reference Exception
  | 0, e => pure e
  | n + 1, e => do wrapTimes n (← e.wrap)

/-- The exception is a wrapper put around another one by an indirect invocation. -/
def isWrapper (e : Exception) : Bool := e.inner.isSome && e.ty == .targetInvocation

/-- The exception without one layer of wrapping, if it has one. -/
def unwrap (e : Exception) : Exception := if e.isWrapper then e.inner.getD e else e

end Exception

/-- An array of any rank over items `ν`, stored in row-major order. -/
structure ArrayOf (ν : Type) where
  /-- Its identity. -/
  id : Nat
  /-- The type of its items. -/
  element : Ty
  /-- The length of each dimension. -/
  lengths : List Nat
  /-- The items. -/
  items : List ν
deriving Repr

/-- An instance of a declared type. -/
structure ObjectOf (ν : Type) where
  /-- Its identity. -/
  id : Nat
  /-- Its exact type. -/
  ty : Ty
  /-- Its fields by name. -/
  fields : List (String × ν)
deriving Repr

/-- A method to call, with the receiver bound to it if it has one. -/
structure Target (ν : Type) where
  /-- The method. -/
  method : Member
  /-- The bound receiver. -/
  receiver : Option ν
deriving Repr

/-- A delegate, which calls its targets in order. -/
structure DelegateOf (ν : Type) where
  /-- Its identity. -/
  id : Nat
  /-- Its type. -/
  ty : Ty
  /-- What it calls. -/
  targets : List (Target ν)
deriving Repr

/-- A value. -/
inductive Value where
  /-- The null reference, and an empty nullable. -/
  | null
  /-- A truth value. -/
  | bool (b : Bool)
  /-- An integer of 32 bits. -/
  | int (i : Int32)
  /-- An integer of 64 bits. -/
  | long (i : Int64)
  /-- A floating point number. -/
  | double (x : Double)
  /-- A Unicode scalar value. -/
  | char (c : Char)
  /-- A text. -/
  | string (s : String)
  /-- An array. -/
  | array (a : ArrayOf Value)
  /-- An instance of a declared type. -/
  | object (o : ObjectOf Value)
  /-- An exception. -/
  | exception (e : Exception)
  /-- A delegate. -/
  | delegate (d : DelegateOf Value)
deriving Repr, Inhabited

/-! ### Arrays -/

namespace ArrayOf

variable {ν : Type}

/-- A new array. -/
def make (element : Ty) (lengths : List Nat) (items : List ν) : Fresh .reference (ArrayOf ν) :=
  return ⟨← fresh, element, lengths, items⟩

/-- A new array with one dimension. -/
def vector (element : Ty) (items : List ν) : Fresh .reference (ArrayOf ν) := make element [items.length] items

/-- The type of the array. -/
def ty (a : ArrayOf ν) : Ty := .array a.element a.lengths.length

/-- The row-major position that the indices reach, counted on from `offset`; each index comes with the length of
its dimension and must lie below it. -/
def position : Nat → List (Int × Nat) → Option Nat
  | offset, [] => some offset
  | offset, (index, length) :: rest =>
    if 0 ≤ index ∧ index < length then position (offset * length + index.toNat) rest else none

/-- The item at the indices, if there is one for each dimension and each is in range. -/
def get? (a : ArrayOf ν) (indices : List Int) : Option ν :=
  if indices.length = a.lengths.length then (position 0 (indices.zip a.lengths)).bind (a.items[·]?) else none

end ArrayOf

/-- A new object. -/
def ObjectOf.make {ν : Type} (ty : Ty) (fields : List (String × ν)) : Fresh .reference (ObjectOf ν) :=
  return ⟨← fresh, ty, fields⟩

/-- A new delegate. -/
def DelegateOf.make {ν : Type} (ty : Ty) (targets : List (Target ν)) : Fresh .reference (DelegateOf ν) :=
  return ⟨← fresh, ty, targets⟩

/-- The field of that name. -/
def ObjectOf.field? {ν : Type} (o : ObjectOf ν) (name : String) : Option ν :=
  (o.fields.find? (·.1 == name)).map (·.2)

namespace Value

/-! ### Views -/

/-- The value is null. -/
def isNull : Value → Bool
  | .null => true
  | _ => false

/-- The truth value, if it is one. -/
def bool? : Value → Option Bool
  | .bool b => some b
  | _ => none

/-- The integer of either width, if it is one. -/
def integer? : Value → Option Int
  | .int i => some i.toInt
  | .long i => some i.toInt
  | _ => none

/-- The exact type of a value; null has none. -/
def runtimeType? : Value → Option Ty
  | .null => none
  | .bool _ => some .bool
  | .int _ => some .int
  | .long _ => some .long
  | .double _ => some .double
  | .char _ => some .char
  | .string _ => some .string
  | .array a => some a.ty
  | .object o => some o.ty
  | .exception e => some e.ty
  | .delegate d => some d.ty

/-- Whether the value may be the value of an expression of type `ty`: null where null is admitted, anything else
where its exact type can be stored, boxed in a nullable or not. -/
def isCompatible (v : Value) (ty : Ty) : Bool :=
  match v.runtimeType? with
  | none => ty.admitsNull
  | some exact => ty.assignableFrom exact || ty.underlying == exact

end Value

/-- The value an uninitialised location of the type holds, when it is known. -/
def Ty.defaultValue? (t : Ty) : Option Value :=
  match t with
  | .bool => some (.bool false)
  | .int => some (.int 0)
  | .long => some (.long 0)
  | .double => some (.double .zero)
  | .char => some (.char (Char.ofNat 0))
  | t => if t.admitsNull then some .null else none

end TypedTree
