/-!
# Types

The static types of expressions. A type is built in (`void`, `bool`, ..., `object`), a wrapper around other types
(`nullable`, `array`, `function`), or declared by a library (`named`). Declared types carry their whole
declaration, so two types are equal exactly when they have the same structure.

## The model

`Decl τ` is a declaration whose parts refer to types `τ`; `Ty` ties the knot. Equality is decided by `Ty.beq`
(`Ty.beq_iff`), and the classification below says which types hold values, which admit null, which are closed
to derivation and which are instances of a generic definition.
-/

namespace TypedTree

/-- What a declared type is. -/
inductive DeclKind where
  /-- A reference type with identity. -/
  | classKind
  /-- A value type, copied on assignment. -/
  | structKind
  /-- A contract that classes and structs implement. -/
  | interfaceKind
  /-- A value type backed by an integer. -/
  | enumKind
deriving DecidableEq, Repr

/-- The declaration of a library type, over the types `τ` it refers to. -/
structure Decl (τ : Type) where
  /-- The name that is displayed. -/
  name : String
  /-- Class, struct, interface or enum. -/
  kind : DeclKind
  /-- No type may derive from it. -/
  isSealed : Bool
  /-- The base class; `none` stands for `object`. -/
  base : Option τ
  /-- The interfaces implemented directly. -/
  interfaces : List τ
  /-- The type arguments of an instance of a generic type. -/
  args : List τ
  /-- The generic type this one is an instance of. -/
  definition : Option τ
deriving DecidableEq, Repr

/-- A static type. -/
inductive Ty where
  /-- No value at all. -/
  | void
  /-- Truth values. -/
  | bool
  /-- Integers of 32 bits. -/
  | int
  /-- Integers of 64 bits. -/
  | long
  /-- Binary floating point numbers of 64 bits. -/
  | double
  /-- Unicode scalar values. -/
  | char
  /-- Immutable text. -/
  | string
  /-- The root of the hierarchy. -/
  | object
  /-- A value type that may also hold null. -/
  | nullable (inner : Ty)
  /-- Arrays with `rank` dimensions. -/
  | array (element : Ty) (rank : Nat)
  /-- Delegates. -/
  | function (params : List Ty) (result : Ty)
  /-- A declared type. -/
  | named (decl : Decl Ty)
deriving Repr, Inhabited

namespace Ty

/-! ### Equality -/

mutual

/-- Whether two types have the same structure. -/
def beq : Ty → Ty → Bool
  | .void, .void => true
  | .bool, .bool => true
  | .int, .int => true
  | .long, .long => true
  | .double, .double => true
  | .char, .char => true
  | .string, .string => true
  | .object, .object => true
  | .nullable a, .nullable b => a.beq b
  | .array a m, .array b n => m == n && a.beq b
  | .function ps r, .function qs s => beqList ps qs && r.beq s
  | .named ⟨n, k, l, b, is, as, d⟩, .named ⟨n', k', l', b', is', as', d'⟩ =>
    n == n' && k == k' && l == l' && beqOption b b' && beqList is is' && beqList as as' && beqOption d d'
  | _, _ => false

/-- Whether two lists have equal types in the same order. -/
def beqList : List Ty → List Ty → Bool
  | [], [] => true
  | a :: as, b :: bs => a.beq b && beqList as bs
  | _, _ => false

/-- Whether both are absent, or both present and equal. -/
def beqOption : Option Ty → Option Ty → Bool
  | none, none => true
  | some a, some b => a.beq b
  | _, _ => false

end

mutual

theorem beq_iff : ∀ a b : Ty, a.beq b = true ↔ a = b
  | .void, b => by cases b <;> simp [beq]
  | .bool, b => by cases b <;> simp [beq]
  | .int, b => by cases b <;> simp [beq]
  | .long, b => by cases b <;> simp [beq]
  | .double, b => by cases b <;> simp [beq]
  | .char, b => by cases b <;> simp [beq]
  | .string, b => by cases b <;> simp [beq]
  | .object, b => by cases b <;> simp [beq]
  | .nullable a, b => by cases b <;> simp [beq, beq_iff a]
  | .array a m, b => by cases b <;> simp [beq, beq_iff a, and_comm]
  | .function ps r, b => by cases b <;> simp [beq, beqList_iff ps, beq_iff r]
  | .named ⟨n, k, l, b, is, as, d⟩, c => by
    cases c with
    | named c =>
      cases c
      simp [beq, beqOption_iff b, beqList_iff is, beqList_iff as, beqOption_iff d, and_assoc]
    | _ => simp [beq]

theorem beqList_iff : ∀ as bs : List Ty, beqList as bs = true ↔ as = bs
  | [], bs => by cases bs <;> simp [beqList]
  | a :: as, bs => by cases bs <;> simp [beqList, beq_iff a, beqList_iff as]

theorem beqOption_iff : ∀ a b : Option Ty, beqOption a b = true ↔ a = b
  | none, b => by cases b <;> simp [beqOption]
  | some a, b => by cases b <;> simp [beqOption, beq_iff a]

end

/-! ### Deciding equality of shared types

A declaration refers to types that others refer to as well, and there may be very many ways from one type to another. Two
references to one object are equal without a look inside. `withPtrEq` makes use of that when a program runs and is the
comparison it is given otherwise, so the functions below answer what `beq` answers. -/

/-- An answer that is known to be `r`. -/
abbrev Answer (r : Bool) : Type := { s : Bool // s = r }

theorem Answer.val_eq {r : Bool} (s : Answer r) : s.val = r := s.property

theorem beqList_of_length_ne {as bs : List Ty} (h : as.length ≠ bs.length) : beqList as bs = false := by
  rw [← Bool.not_eq_true, beqList_iff]
  exact fun e => h (e ▸ rfl)

/-- Compares two types, unless they are one object. -/
def compareUnlessSame (a b : Ty) (compare : Unit → Answer (a.beq b)) : Answer (a.beq b) :=
  ⟨withPtrEq a b (fun _ => (compare ()).val) fun h => (compare ()).val_eq.trans ((beq_iff a b).2 h),
    (compare ()).property⟩

/-- Compares two lists of types, unless their lengths differ. -/
def compareIfAlike (as bs : List Ty) (compare : Unit → Answer (beqList as bs)) : Answer (beqList as bs) :=
  if h : as.length = bs.length then compare () else ⟨false, (beqList_of_length_ne h).symm⟩

mutual

/-- Compares the parts of two types. -/
def compareParts : (a b : Ty) → Answer (a.beq b)
  | .nullable a, .nullable b =>
    ⟨(compareUnlessSame a b fun _ => compareParts a b).val, by simp [beq, Answer.val_eq]⟩
  | .array a m, .array b n =>
    ⟨m == n && (compareUnlessSame a b fun _ => compareParts a b).val, by simp [beq, Answer.val_eq]⟩
  | .function ps r, .function qs s =>
    ⟨(compareIfAlike ps qs fun _ => compareList ps qs).val
        && (compareUnlessSame r s fun _ => compareParts r s).val,
      by simp [beq, Answer.val_eq]⟩
  | .named ⟨n, k, l, b, is, as, d⟩, .named ⟨n', k', l', b', is', as', d'⟩ =>
    ⟨n == n' && k == k' && l == l' && (compareOption b b').val
        && (compareIfAlike is is' fun _ => compareList is is').val
        && (compareIfAlike as as' fun _ => compareList as as').val && (compareOption d d').val,
      by simp [beq, Answer.val_eq]⟩
  | a, b => ⟨a.beq b, rfl⟩

/-- Compares two lists of types. -/
def compareList : (as bs : List Ty) → Answer (beqList as bs)
  | a :: as, b :: bs =>
    ⟨(compareUnlessSame a b fun _ => compareParts a b).val && (compareList as bs).val,
      by simp [beqList, Answer.val_eq]⟩
  | as, bs => ⟨beqList as bs, rfl⟩

/-- Compares two optional types. -/
def compareOption : (a b : Option Ty) → Answer (beqOption a b)
  | some a, some b =>
    ⟨(compareUnlessSame a b fun _ => compareParts a b).val, by simp [beqOption, Answer.val_eq]⟩
  | a, b => ⟨beqOption a b, rfl⟩

end

instance : DecidableEq Ty := fun a b =>
  let answer := compareUnlessSame a b fun _ => compareParts a b
  decidable_of_bool answer.val (by rw [answer.val_eq, beq_iff])

/-! ### Declared types -/

/-- A declaration without base, interfaces and type arguments; structs and enums are sealed from the start. -/
def declare (name : String) (kind : DeclKind) : Decl Ty where
  name := name
  kind := kind
  isSealed := kind == .structKind || kind == .enumKind
  base := none
  interfaces := []
  args := []
  definition := none

/-- The root of all exceptions. -/
def exception : Ty := .named (declare "Exception" .classKind)

/-- An exception class derived from the root directly. -/
def exceptionNamed (name : String) : Ty :=
  .named { declare name .classKind with base := some exception }

/-- Raised when null is dereferenced. -/
def nullReference : Ty := exceptionNamed "NullReferenceException"

/-- Raised when an array is read outside its bounds. -/
def indexOutOfRange : Ty := exceptionNamed "IndexOutOfRangeException"

/-- Raised when an array of negative size is made. -/
def overflow : Ty := exceptionNamed "OverflowException"

/-- Raised by an invalid conversion. -/
def invalidCast : Ty := exceptionNamed "InvalidCastException"

/-- Wraps what the target of an indirect invocation raised. -/
def targetInvocation : Ty := exceptionNamed "TargetInvocationException"

/-! ### Classification -/

/-- Values of the type are copied rather than referenced. -/
def isValueType : Ty → Bool
  | .bool | .int | .long | .double | .char | .nullable _ => true
  | .named d => d.kind == .structKind || d.kind == .enumKind
  | _ => false

/-- The type is a nullable wrapper. -/
def isNullable : Ty → Bool
  | .nullable _ => true
  | _ => false

/-- A value type that never holds null. -/
def isPlainValueType (t : Ty) : Bool := t.isValueType && !t.isNullable

/-- A null may be stored in the type. -/
def admitsNull (t : Ty) : Bool := t != .void && !t.isPlainValueType

/-- The type without its nullable wrapper, if it has one. -/
def underlying : Ty → Ty
  | .nullable inner => inner
  | t => t

/-- The type is a declared interface. -/
def isInterface : Ty → Bool
  | .named d => d.kind == .interfaceKind
  | _ => false

/-- The type is a declared enum. -/
def isEnum : Ty → Bool
  | .named d => d.kind == .enumKind
  | _ => false

/-- No other type can derive from the type. -/
def isSealed : Ty → Bool
  | .object | .void => false
  | .named d => d.isSealed && d.kind != .interfaceKind
  | _ => true

/-- Whether assignability involves type arguments: instances of generic types, delegates and nullables. -/
def isGeneric : Ty → Bool
  | .nullable _ | .function _ _ => true
  | .named d => !d.args.isEmpty || d.definition.isSome
  | _ => false

/-- The generic type the type is an instance of. -/
def definition? : Ty → Option Ty
  | .named d => d.definition
  | _ => none

/-- The next type up in the class hierarchy. -/
def base? : Ty → Option Ty
  | .object | .void => none
  | .named d => if d.kind == .interfaceKind then none else some (d.base.getD .object)
  | _ => some .object

end Ty

end TypedTree
