import Mathlib.Data.List.Basic
import Mathlib.Logic.Relation
import TypedTree.Value.Basic

/-!
# Assignability and compatibility

`Ty.Widens t s` lists the reasons for which a value of type `s` can be stored in a location of type `t`, and it is what
`Ty.assignableFrom` decides (`Ty.assignableFrom_iff`). The reasons compose, with one exception: an array of wider elements
takes an array, but not an instance of a declared type that has an array for a base (`Ty.Blocked`). So assignability is
transitive below types whose bases are classes (`Ty.Widens.trans`), and a value that is compatible with such a type is
compatible with the wider ones that are not blocked (`Value.isCompatible_iff_not_blocked`). Two different types are never
assignable to each other (`Ty.Widens.antisymm`), since a type holds its bases and interfaces as parts.
-/

namespace TypedTree

namespace Ty

variable {a b c s t : Ty}

/-! ### Base classes -/

/-- The type is a declared class. -/
def isClass : Ty → Bool
  | .named d => d.kind == .classKind
  | _ => false

/-- The base of a declared type, if it has one, is a declared class, and so on for the base and for the elements of an
array. -/
def hasClassBases : Ty → Bool
  | .array element _ => element.hasClassBases
  | .named ⟨_, _, _, some base, _, _, _⟩ => base.isClass && base.hasClassBases
  | _ => true
termination_by structural t => t

/-- The type derives from the other one directly. -/
def Derives (t b : Ty) : Prop := t.base? = some b

theorem Derives.cases (h : t.Derives b) :
    b = .object ∨ ∃ d, t = .named d ∧ d.kind ≠ .interfaceKind ∧ d.base = some b := by
  unfold Derives base? at h
  split at h
  · cases h
  · cases h
  · next d =>
    split at h
    · cases h
    · next hkind =>
      cases hbase : d.base with
      | none => simp_all
      | some base => exact .inr ⟨d, rfl, by simpa using hkind, by simpa [hbase] using h⟩
  · exact .inl (Option.some.inj h).symm

theorem ancestors_eq (t : Ty) : t.ancestors = t.base?.elim [] fun b => b :: b.ancestors := by
  fun_induction ancestors t with
  | case1 | case2 => rfl
  | case3 _ _ _ _ _ _ _ h | case5 _ _ _ _ _ _ h => simp [base?, h]
  | case4 _ _ _ _ _ _ _ h | case6 _ _ _ _ _ _ h => simp [base?, h, ancestors]
  | case7 t hobject hvoid hbase hnone =>
    cases t with
    | object => exact absurd rfl hobject
    | void => exact absurd rfl hvoid
    | named d =>
      obtain ⟨name, kind, isSealed, base, interfaces, args, definition⟩ := d
      cases base with
      | none => exact (hnone _ _ _ _ _ _ rfl).elim
      | some base => exact (hbase _ _ _ _ _ _ _ rfl).elim
    | _ => rfl

theorem derives_of_mem_ancestors (t : Ty) (h : a ∈ t.ancestors) : Relation.TransGen Derives t a := by
  rw [ancestors_eq] at h
  cases hb : t.base? with
  | none => simp [hb] at h
  | some b =>
    rw [hb] at h
    rcases List.mem_cons.1 h with rfl | h
    · exact .single hb
    rcases Derives.cases hb with rfl | ⟨⟨_, _, _, _, _, _, _⟩, rfl, _, rfl⟩
    · cases h
    · exact .head hb (derives_of_mem_ancestors b h)

/-- **Ancestors** are what a type derives from, directly or not. -/
theorem mem_ancestors_iff : a ∈ t.ancestors ↔ Relation.TransGen Derives t a := by
  refine ⟨derives_of_mem_ancestors t, fun h => ?_⟩
  induction h using Relation.TransGen.head_induction_on with
  | single h =>
    rw [ancestors_eq, show base? _ = _ from h]
    exact List.mem_cons_self
  | head h _ ih =>
    rw [ancestors_eq, show base? _ = _ from h]
    exact List.mem_cons_of_mem _ ih

theorem Derives.hasClassBases (h : t.Derives b) (ht : t.hasClassBases = true) :
    (b = .object ∨ b.isClass = true) ∧ b.hasClassBases = true := by
  rcases h.cases with rfl | ⟨⟨_, _, _, _, _, _, _⟩, rfl, _, rfl⟩
  · exact ⟨.inl rfl, rfl⟩
  · obtain ⟨hclass, hbase⟩ := Bool.and_eq_true_iff.1 ht
    exact ⟨.inr hclass, hbase⟩

/-- A type whose bases are classes has no ancestors but classes and `object`. -/
theorem isClass_of_mem_ancestors (h : a ∈ t.ancestors) (ht : t.hasClassBases = true) : a = .object ∨ a.isClass = true := by
  rw [mem_ancestors_iff] at h
  induction h using Relation.TransGen.head_induction_on with
  | single h => exact (h.hasClassBases ht).1
  | head h _ ih => exact ih (h.hasClassBases ht).2

/-! ### Interfaces -/

theorem implements_named {d : Decl Ty} : implements a (.named d) =
    (implementsAny a d.interfaces || (d.kind != .interfaceKind && implementsBase a d.base)) := by
  cases d
  rfl

theorem Derives.implements (h : t.Derives b) (hb : implements a b = true) : implements a t = true := by
  rcases h.cases with rfl | ⟨d, rfl, hkind, hbase⟩
  · cases hb
  · simp [implements_named, hkind, hbase, implementsBase, hb]

theorem implements_of_mem_ancestors (h : b ∈ c.ancestors) (hb : implements a b = true) : implements a c = true := by
  rw [mem_ancestors_iff] at h
  induction h using Relation.TransGen.head_induction_on with
  | single h => exact h.implements hb
  | head h _ ih => exact h.implements ih

mutual

theorem implements_trans (hb : implements a b = true) : ∀ c, implements b c = true → implements a c = true
  | .named ⟨_, kind, _, base, interfaces, _, _⟩, h => by
    rw [implements_named, Bool.or_eq_true, Bool.and_eq_true] at h ⊢
    exact h.imp (implementsAny_trans hb interfaces) fun h => ⟨h.1, implementsBase_trans hb base h.2⟩
  | .void, h | .bool, h | .int, h | .long, h | .double, h | .char, h | .string, h | .object, h | .nullable _, h
  | .array _ _, h | .function _ _, h => by cases h

theorem implementsAny_trans (hb : implements a b = true) : ∀ is, implementsAny b is = true → implementsAny a is = true
  | [], h => by cases h
  | i :: is, h => by
    rw [implementsAny, Bool.or_eq_true, Bool.or_eq_true, beq_iff_eq] at h ⊢
    rcases h with (rfl | h) | h
    · exact .inl (.inr hb)
    · exact .inl (.inr (implements_trans hb i h))
    · exact .inr (implementsAny_trans hb is h)

theorem implementsBase_trans (hb : implements a b = true) :
    ∀ base, implementsBase b base = true → implementsBase a base = true
  | none, h => by cases h
  | some base, h => implements_trans hb base h

end

/-! ### Wider types -/

/-- A value of type `s` can be stored in a location of type `t`. -/
inductive Widens : Ty → Ty → Prop where
  /-- The types are the same. -/
  | refl {t : Ty} : Widens t t
  /-- Everything that has a value is an object. -/
  | object {s : Ty} : s ≠ .void → Widens .object s
  /-- Arrays of references are as wide as their elements. -/
  | array {t s : Ty} {rank : Nat} : s.isValueType = false → Widens t s → Widens (.array t rank) (.array s rank)
  /-- An interface that is implemented. -/
  | interface {t s : Ty} : t.isInterface = true → implements t s = true → Widens t s
  /-- A base class. -/
  | ancestor {t s : Ty} : t.isInterface = false → t ≠ .void → t ∈ s.ancestors → Widens t s

theorem widens_of_assignableFrom (t s : Ty) (h : t.assignableFrom s = true) : Widens t s := by
  rw [assignableFrom.eq_def, Bool.or_eq_true, beq_iff_eq] at h
  rcases h with rfl | h
  · exact .refl
  split at h
  · cases h
  · cases h
  · next hs => exact .object hs
  · next _ t m s n =>
    simp only [Bool.and_eq_true, beq_iff_eq, Bool.not_eq_true'] at h
    obtain ⟨⟨rfl, hs⟩, hts⟩ := h
    exact .array hs (widens_of_assignableFrom t s hts)
  · next hvoid _ _ _ =>
    split at h
    · next hinterface => exact .interface hinterface h
    · next hinterface => exact .ancestor (by simpa using hinterface) hvoid (List.contains_iff_mem.1 h)

theorem Widens.assignableFrom (h : Widens t s) : t.assignableFrom s = true := by
  induction h with
  | refl => rw [assignableFrom.eq_def, beq_self_eq_true, Bool.true_or]
  | @object s hs =>
    cases s with
    | void => exact absurd rfl hs
    | _ => rfl
  | array hs _ ih => simp [assignableFrom.eq_def (.array _ _), hs, ih]
  | @interface t s ht h =>
    rw [assignableFrom.eq_def, Bool.or_eq_true]
    right
    split
    · cases h
    · cases ht
    · cases ht
    · cases ht
    · rw [if_pos ht, h]
  | @ancestor t s ht hvoid h =>
    rw [assignableFrom.eq_def, Bool.or_eq_true]
    right
    split
    · cases h
    · exact absurd rfl hvoid
    · rfl
    · cases List.mem_singleton.1 h
    · rw [if_neg (by simp [ht]), List.contains_iff_mem.2 h]

theorem assignableFrom_iff : t.assignableFrom s = true ↔ Widens t s :=
  ⟨widens_of_assignableFrom t s, Widens.assignableFrom⟩

/-- An interface has no ancestors. -/
theorem ancestors_of_isInterface (h : t.isInterface = true) : t.ancestors = [] := by
  cases t with
  | named d =>
    have hkind : d.kind = .interfaceKind := by simpa [isInterface] using h
    simp [ancestors_eq (.named d), base?, hkind]
  | _ => cases h

/-- The array `a` has wider elements than the array `b`, and `c` is below `b` by a base: arrays of wider elements take arrays,
and not what derives from them. The arrays may be elements of arrays in their turn. -/
inductive Blocked : Ty → Ty → Ty → Prop where
  /-- The narrower array is among the bases. -/
  | base {a b c : Ty} {rank : Nat} : a ≠ b → .array b rank ∈ c.ancestors → Blocked (.array a rank) (.array b rank) c
  /-- So it is for the elements. -/
  | elements {a b c : Ty} {rank : Nat} : Blocked a b c → Blocked (.array a rank) (.array b rank) (.array c rank)

/-- The reasons compose unless an array among the bases is in the way. The induction is on the reason for the narrower pair. -/
theorem Widens.trans_or_blocked (hab : Widens a b) (hbc : Widens b c) : Widens a c ∨ Blocked a b c := by
  induction hbc generalizing a with
  | refl => exact .inl hab
  | object hs =>
    cases hab with
    | refl | object => exact .inl (.object hs)
    | interface _ h | ancestor _ _ h => cases h
  | array hs hts ih =>
    cases hab with
    | refl => exact .inl (.array hs hts)
    | object => exact .inl (.object (by simp))
    | array _ hat => exact (ih hat).imp (.array hs) .elements
    | interface _ h => cases h
    | ancestor _ _ h =>
      rw [List.mem_singleton.1 h]
      exact .inl (.object (by simp))
  | @interface b c hb himplements =>
    have hcvoid : c ≠ .void := by
      rintro rfl
      cases himplements
    left
    cases hab with
    | refl => exact .interface hb himplements
    | object => exact .object hcvoid
    | array => cases hb
    | interface ha h => exact .interface ha (implements_trans h c himplements)
    | ancestor _ _ h =>
      rw [ancestors_of_isInterface hb] at h
      cases h
  | @ancestor b c hb hbvoid hmem =>
    have hcvoid : c ≠ .void := by
      rintro rfl
      cases hmem
    cases hab with
    | refl => exact .inl (.ancestor hb hbvoid hmem)
    | object => exact .inl (.object hcvoid)
    | @array a b rank =>
      by_cases heq : a = b
      · subst heq
        exact .inl (.ancestor hb hbvoid hmem)
      · exact .inr (.base heq hmem)
    | interface ha h => exact .inl (.interface ha (implements_of_mem_ancestors hmem h))
    | ancestor ha havoid h =>
      refine .inl (.ancestor ha havoid (mem_ancestors_iff.2 ?_))
      exact (mem_ancestors_iff.1 hmem).trans (mem_ancestors_iff.1 h)

theorem Blocked.hasClassBases (h : Blocked a b c) : c.hasClassBases = false := by
  induction h with
  | base _ hmem =>
    rw [Bool.eq_false_iff]
    intro hc
    rcases isClass_of_mem_ancestors hmem hc with h | h
    · cases h
    · cases h
  | elements _ ih => exact ih

/-- **Transitivity**, below a type whose bases are classes. -/
theorem Widens.trans (hab : Widens a b) (hbc : Widens b c) (hc : c.hasClassBases = true) : Widens a c :=
  (hab.trans_or_blocked hbc).resolve_right fun h => by simp [h.hasClassBases] at hc

/-- At most one array is among the bases of a type, since nothing but `object` is above it. -/
theorem eq_of_mem_ancestors {rank rank' : Nat} (t : Ty) (ha : .array a rank ∈ t.ancestors)
    (hb : .array b rank' ∈ t.ancestors) : Ty.array a rank = .array b rank' := by
  rw [ancestors_eq] at ha hb
  cases hbase : t.base? with
  | none => simp [hbase] at ha
  | some base =>
    rw [hbase] at ha hb
    rcases Derives.cases hbase with rfl | ⟨⟨_, _, _, _, _, _, _⟩, rfl, _, rfl⟩
    · cases List.mem_singleton.1 ha
    have hlast : ∀ {element wider : Ty} {m n : Nat}, Ty.array wider n ∉ (Ty.array element m).ancestors := by
      intro element wider m n h
      cases List.mem_singleton.1 h
    rcases List.mem_cons.1 ha with rfl | ha
    · rcases List.mem_cons.1 hb with hb | hb
      · exact hb.symm
      · exact absurd hb hlast
    · rcases List.mem_cons.1 hb with rfl | hb
      · exact absurd ha hlast
      · exact eq_of_mem_ancestors base ha hb

/-- What is blocked is not assignable by another way. -/
theorem Blocked.not_widens (h : Blocked a b c) : ¬ Widens a c := by
  induction h with
  | base hne hmem =>
    intro h
    cases h with
    | refl | array => cases List.mem_singleton.1 hmem
    | interface h => cases h
    | ancestor _ _ h => exact hne (Ty.array.inj (eq_of_mem_ancestors _ h hmem)).1
  | elements _ ih =>
    intro h
    cases h with
    | refl => exact ih .refl
    | array _ h => exact ih h
    | interface h => cases h
    | ancestor _ _ h => cases List.mem_singleton.1 h

/-! ### The order of types -/

mutual

theorem sizeOf_lt_of_implements : ∀ t, implements a t = true → sizeOf a < sizeOf t
  | .named ⟨_, kind, _, base, interfaces, _, _⟩, h => by
    rw [implements_named, Bool.or_eq_true, Bool.and_eq_true] at h
    rcases h with h | ⟨_, h⟩
    · have := sizeOf_lt_of_implementsAny interfaces h
      simp only [named.sizeOf_spec, Decl.mk.sizeOf_spec]
      omega
    · have := sizeOf_lt_of_implementsBase base h
      simp only [named.sizeOf_spec, Decl.mk.sizeOf_spec]
      omega
  | .void, h | .bool, h | .int, h | .long, h | .double, h | .char, h | .string, h | .object, h | .nullable _, h
  | .array _ _, h | .function _ _, h => by cases h

theorem sizeOf_lt_of_implementsAny : ∀ is, implementsAny a is = true → sizeOf a < sizeOf is
  | [], h => by cases h
  | i :: is, h => by
    rw [implementsAny, Bool.or_eq_true, Bool.or_eq_true, beq_iff_eq] at h
    simp only [List.cons.sizeOf_spec]
    rcases h with (rfl | h) | h
    · omega
    · have := sizeOf_lt_of_implements i h
      omega
    · have := sizeOf_lt_of_implementsAny is h
      omega

theorem sizeOf_lt_of_implementsBase : ∀ base, implementsBase a base = true → sizeOf a < sizeOf base
  | none, h => by cases h
  | some base, h => by
    have := sizeOf_lt_of_implements base h
    simp only [Option.some.sizeOf_spec]
    omega

end

/-- An ancestor is a part of the declaration it is an ancestor of, unless it is the root. -/
theorem sizeOf_lt_of_mem_ancestors (t : Ty) (h : a ∈ t.ancestors) : a = .object ∨ sizeOf a < sizeOf t := by
  rw [ancestors_eq] at h
  cases hb : t.base? with
  | none => simp [hb] at h
  | some b =>
    rw [hb] at h
    rcases Derives.cases hb with rfl | ⟨⟨_, _, _, _, _, _, _⟩, rfl, _, rfl⟩
    · exact .inl (List.mem_singleton.1 h)
    simp only [named.sizeOf_spec, Decl.mk.sizeOf_spec, Option.some.sizeOf_spec]
    rcases List.mem_cons.1 h with rfl | h
    · omega
    · refine (sizeOf_lt_of_mem_ancestors b h).imp_right fun hlt => ?_
      omega

/-- **Antisymmetry**, of all types. What implements an interface or derives from a class holds it as a part, so there is no way
back; arrays go back to their elements. -/
theorem Widens.antisymm (hab : Widens a b) (hba : Widens b a) : a = b := by
  induction hab with
  | refl => rfl
  | object =>
    cases hba with
    | refl | object => rfl
    | interface _ h | ancestor _ _ h => cases h
  | array _ _ ih =>
    cases hba with
    | refl => rfl
    | array _ hba => rw [ih hba]
    | interface h => cases h
    | ancestor _ _ h => cases List.mem_singleton.1 h
  | @interface a b ha himplements =>
    cases hba with
    | refl => rfl
    | object => cases himplements
    | array => cases ha
    | interface _ h =>
      have := sizeOf_lt_of_implements b himplements
      have := sizeOf_lt_of_implements a h
      omega
    | ancestor _ _ h =>
      rw [ancestors_of_isInterface ha] at h
      cases h
  | @ancestor a b _ _ hmem =>
    cases hba with
    | refl => rfl
    | object => cases hmem
    | array => cases List.mem_singleton.1 hmem
    | interface hb =>
      rw [ancestors_of_isInterface hb] at hmem
      cases hmem
    | ancestor _ _ h =>
      rcases sizeOf_lt_of_mem_ancestors b hmem with rfl | hlt
      · cases h
      rcases sizeOf_lt_of_mem_ancestors a h with rfl | hlt'
      · cases hmem
      omega

/-- **Assignability** is a partial order. It is reflexive and antisymmetric on all types, and transitive below every type
whose bases are classes; of the two wider types nothing is asked. -/
theorem assignability_partial_order :
    (∀ t : Ty, t.assignableFrom t = true) ∧
      (∀ a b : Ty, a.assignableFrom b = true → b.assignableFrom a = true → a = b) ∧
        ∀ a b c : Ty, c.hasClassBases = true → a.assignableFrom b = true → b.assignableFrom c = true →
          a.assignableFrom c = true := by
  simp only [assignableFrom_iff]
  refine ⟨fun _ => .refl, fun _ _ hab hba => hab.antisymm hba, fun _ _ _ hc hab hbc => hab.trans hbc hc⟩

/-- An interface. -/
def shape : Ty := .named (declare "IShape" .interfaceKind)

/-- An interface that extends another one. -/
def figure : Ty := .named { declare "IFigure" .interfaceKind with interfaces := [shape] }

/-- A class that implements an interface. -/
def polygon : Ty := .named { declare "Polygon" .classKind with interfaces := [figure] }

/-- A class derived from one that implements an interface. -/
def square : Ty := .named { declare "Square" .classKind with isSealed := true, base := some polygon }

/-- Arrays of the interface take arrays of the derived class, by way of arrays of its base, and not the other way round. -/
theorem assignability_partial_order_squares :
    (array square 1).hasClassBases = true ∧ (array shape 1).assignableFrom (array polygon 1) = true ∧
      (array polygon 1).assignableFrom (array square 1) = true ∧ (array shape 1).assignableFrom (array square 1) = true ∧
        (array square 1).assignableFrom (array shape 1) = false := by
  obtain ⟨_, hantisymm, htrans⟩ := assignability_partial_order
  have hbases : (array square 1).hasClassBases = true := by decide
  have hshape : (array shape 1).assignableFrom (array polygon 1) = true := by decide
  have hpolygon : (array polygon 1).assignableFrom (array square 1) = true := by decide
  have hsquare := htrans _ _ _ hbases hshape hpolygon
  refine ⟨hbases, hshape, hpolygon, hsquare, Bool.eq_false_iff.2 fun h => ?_⟩
  exact absurd (hantisymm _ _ hsquare h) (by decide)

/-- A class with an array for a base is below that array, but not below arrays of wider elements. -/
example :
    let texts : Ty := .named { declare "Texts" .classKind with base := some (.array .string 1) }
    (array object 1).assignableFrom (array string 1) = true ∧ (array string 1).assignableFrom texts = true ∧
      (array object 1).assignableFrom texts = false := by
  decide

/-- What is wider than a type with nulls has nulls, when the bases of the type are classes. -/
theorem Widens.admitsNull (h : Widens t s) (hs : s.admitsNull = true) (hbases : s.hasClassBases = true) :
    t.admitsNull = true := by
  cases h with
  | refl => exact hs
  | object | array => rfl
  | interface ht =>
    cases t with
    | named d =>
      have hkind : d.kind = .interfaceKind := by simpa [isInterface] using ht
      simp [Ty.admitsNull, isPlainValueType, isValueType, hkind]
    | _ => cases ht
  | ancestor _ _ hmem =>
    rcases isClass_of_mem_ancestors hmem hbases with rfl | hclass
    · rfl
    · cases t with
      | named d =>
        have hkind : d.kind = .classKind := by simpa [isClass] using hclass
        simp [Ty.admitsNull, isPlainValueType, isValueType, hkind]
      | _ => cases hclass

end Ty

/-! ### Compatible values -/

namespace Value

variable {v : Value} {s t : Ty}

theorem isCompatible_of_runtimeType {exact : Ty} (hv : v.runtimeType? = some exact) :
    v.isCompatible t = true ↔ t.Widens exact ∨ t.underlying = exact := by
  rw [isCompatible, hv, Bool.or_eq_true, beq_iff_eq, Ty.assignableFrom_iff]

theorem isCompatible_of_null (hv : v.runtimeType? = none) : v.isCompatible t = t.admitsNull := by
  rw [isCompatible, hv]

/-- A value is compatible with its exact type. -/
theorem isCompatible_exact {exact : Ty} (hv : v.runtimeType? = some exact) : v.isCompatible exact = true :=
  (isCompatible_of_runtimeType hv).2 (.inl .refl)

/-- The exact type of a value, if it has one, is not `void`, and its bases are classes. -/
def HasSoundType (v : Value) : Prop := ∀ exact, v.runtimeType? = some exact → exact ≠ .void ∧ exact.hasClassBases = true

theorem isCompatible_object (hv : v.HasSoundType) : v.isCompatible .object = true := by
  cases hty : v.runtimeType? with
  | none => rw [isCompatible_of_null hty]; rfl
  | some exact => exact (isCompatible_of_runtimeType hty).2 (.inl (.object (hv exact hty).1))

/-- The value is below the array `s` by an array among the bases of its exact type, and `t` is an array of wider elements. -/
def Blocked (v : Value) (t s : Ty) : Prop := ∃ exact, v.runtimeType? = some exact ∧ t.Blocked s exact

/-- **Compatibility** with a type whose bases are classes is compatibility with the wider types that are not blocked. -/
theorem isCompatible_iff_not_blocked (hvoid : v.runtimeType? ≠ some .void) (hs : s.hasClassBases = true)
    (h : v.isCompatible s = true) (hts : t.Widens s) : v.isCompatible t = true ↔ ¬ v.Blocked t s := by
  cases hty : v.runtimeType? with
  | none =>
    rw [isCompatible_of_null hty] at h ⊢
    refine iff_of_true (hts.admitsNull h hs) ?_
    rintro ⟨exact, hexact, _⟩
    cases hty.symm.trans hexact
  | some exact =>
    have hvoid : exact ≠ .void := by
      rintro rfl
      exact hvoid hty
    rw [isCompatible_of_runtimeType hty] at h ⊢
    refine ⟨?_, fun hfree => ?_⟩
    · rintro ht ⟨exact', hexact', hblocked⟩
      obtain rfl : exact = exact' := Option.some.inj (hty.symm.trans hexact')
      rcases ht with ht | rfl
      · exact hblocked.not_widens ht
      · cases hblocked with
        | base _ hmem => cases List.mem_singleton.1 hmem
        | elements hblocked => exact hblocked.not_widens .refl
    rcases h with h | h
    · exact .inl ((hts.trans_or_blocked h).resolve_right fun hblocked => hfree ⟨exact, hty, hblocked⟩)
    -- The exact type is the type itself, or the type is a nullable of it and only itself and `object` are wider.
    · cases s with
      | nullable inner =>
        obtain rfl : inner = exact := h
        cases hts with
        | refl => exact .inr rfl
        | object => exact .inl (.object hvoid)
        | interface _ h => cases h
        | ancestor _ _ h =>
          rw [List.mem_singleton.1 h]
          exact .inl (.object hvoid)
      | _ =>
        obtain rfl := id h
        exact .inl hts

/-- Nothing is blocked for a value whose exact type has classes for bases. -/
theorem isCompatible_of_widens (hv : v.HasSoundType) (hs : s.hasClassBases = true) (h : v.isCompatible s = true)
    (hts : t.Widens s) : v.isCompatible t = true := by
  refine (isCompatible_iff_not_blocked (fun hvoid => (hv _ hvoid).1 rfl) hs h hts).2 ?_
  rintro ⟨exact, hty, hblocked⟩
  exact Bool.eq_false_iff.1 hblocked.hasClassBases (hv exact hty).2

end Value

end TypedTree
