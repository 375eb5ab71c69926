import TypedTree.Member

/-!
# Catalogs of library facts

A catalog lists members, types and parameters of which some fact is known. An entry for a generic definition covers
all of its instances.
-/

namespace TypedTree

/-- Things that may be instances of a generic definition. -/
class Generic (α : Type) where
  /-- The definition the thing is an instance of. -/
  definition? : α → Option α

instance : Generic Ty := ⟨Ty.definition?⟩

instance : Generic Member := ⟨Member.definition⟩

instance : Generic ParamRef := ⟨ParamRef.definition?⟩

/-- A set of things of which a fact is known. -/
structure Table (α : Type) where
  /-- Its entries, each once. -/
  entries : List α
deriving Repr

namespace Table

variable {α : Type} [DecidableEq α]

/-- The table without entries. -/
def empty : Table α := ⟨[]⟩

instance : EmptyCollection (Table α) := ⟨empty⟩

/-- The table with one more entry. -/
def insert (t : Table α) (a : α) : Table α := ⟨t.entries.insert a⟩

/-- The table with the entries of a list. -/
def ofList (as : List α) : Table α := as.foldl insert empty

/-- The number of entries. -/
def size (t : Table α) : Nat := t.entries.length

/-- The table has an entry for the thing or for the definition it is an instance of. -/
def covers [Generic α] (t : Table α) (a : α) : Bool :=
  t.entries.contains a || (Generic.definition? a).any t.entries.contains

end Table

/-- What is known about a library. -/
structure Catalog where
  /-- Members without side effects. -/
  pureMembers : Table Member
  /-- Members that raise no exception. -/
  nothrowMembers : Table Member
  /-- Value types whose default instance is made without side effects. -/
  pureTypes : Table Ty
  /-- Parameters that their member only reads. -/
  readOnlyParams : Table ParamRef
  /-- Types whose instances cannot be changed. -/
  immutableTypes : Table Ty
deriving Repr

/-- The catalog in which nothing is known. -/
def Catalog.empty : Catalog := ⟨∅, ∅, ∅, ∅, ∅⟩

end TypedTree
