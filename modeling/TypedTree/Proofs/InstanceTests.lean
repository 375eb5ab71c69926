import TypedTree.Proofs.Assignability
import TypedTree.Proofs.Typing

/-!
# Decided instance tests

What the optimizer decides about `operand is target`, against the values that the operand may have. A decision looks at
static types and at what is known about null, so it is about all values at once (`Facts.Allows`), and it is right for a
value when `Value.isInstanceOf` gives the same answer.

The decision rests on two facts about assignability. It is transitive, so that the values of a narrow type are instances of
what is wider than the type; and the values of a sealed type have that type exactly (`Ty.Widens.eq_or_items`). The second
one has an exception: arrays count as sealed and take arrays of narrower items. Hence decisions are right for all values but
those that `Ty.Misjudged` lists (`decided_test_right_iff`), and there is one that is wrong (`decided_test_wrong`).
-/

namespace TypedTree

namespace Ty

variable {s t : Ty}

/-! ### Sealed types -/

/-- The base of a declared type, if it has one, is a declared class that is not sealed, and so on for the base and for the
elements of an array. -/
def hasOpenBases : Ty → Bool
  | .array element _ => element.hasOpenBases
  | .named ⟨_, _, _, some base, _, _, _⟩ => base.isClass && !base.isSealed && base.hasOpenBases
  | _ => true
termination_by structural t => t

theorem hasClassBases_of_hasOpenBases (t : Ty) (h : t.hasOpenBases = true) : t.hasClassBases = true := by
  fun_induction hasOpenBases t with
  | case1 element _ ih => exact ih h
  | case2 _ _ _ base _ _ _ ih =>
    rw [Bool.and_eq_true, Bool.and_eq_true] at h
    exact Bool.and_eq_true_iff.2 ⟨h.1.1, ih h.2⟩
  | case3 t harray hnamed =>
    unfold hasClassBases
    split
    · exact (harray _ _ rfl).elim
    · exact (hnamed _ _ _ _ _ _ _ rfl).elim
    · rfl

theorem Derives.hasOpenBases {b : Ty} (h : t.Derives b) (ht : t.hasOpenBases = true) :
    b.isSealed = false ∧ b.hasOpenBases = true := by
  rcases h.cases with rfl | ⟨⟨_, _, _, _, _, _, _⟩, rfl, _, rfl⟩
  · exact ⟨rfl, rfl⟩
  · simp only [Ty.hasOpenBases, Bool.and_eq_true, Bool.not_eq_true'] at ht
    exact ⟨ht.1.2, ht.2⟩

/-- What a type with open bases derives from is not sealed. -/
theorem isSealed_of_mem_ancestors {a : Ty} (h : a ∈ t.ancestors) (ht : t.hasOpenBases = true) : a.isSealed = false := by
  rw [mem_ancestors_iff] at h
  induction h using Relation.TransGen.head_induction_on with
  | single h => exact (h.hasOpenBases ht).1
  | head h _ ih => exact ih (h.hasOpenBases ht).2

theorem isValueType_of_mem_ancestors {a : Ty} (h : a ∈ t.ancestors) (ht : t.hasClassBases = true) :
    a.isValueType = false := by
  rcases isClass_of_mem_ancestors h ht with rfl | hclass
  · rfl
  · cases a with
    | named d =>
      have hkind : d.kind = .classKind := by simpa [isClass] using hclass
      simp [isValueType, hkind]
    | _ => cases hclass

/-- Interfaces are open, and what implements them may be a reference. -/
theorem isOpen_of_isInterface (h : t.isInterface = true) : t.isSealed = false ∧ t.isValueType = false := by
  cases t with
  | named d =>
    have hkind : d.kind = .interfaceKind := by simpa [isInterface] using h
    simp [isSealed, isValueType, hkind]
  | _ => cases h

/-- What is wider than a type of references is one, too. -/
theorem Widens.isValueType (h : t.Widens s) (hs : s.isValueType = false) (hbases : s.hasClassBases = true) :
    t.isValueType = false := by
  cases h with
  | refl => exact hs
  | object | array => rfl
  | interface ht => exact (isOpen_of_isInterface ht).2
  | ancestor _ _ hmem => exact isValueType_of_mem_ancestors hmem hbases

/-- A sealed type, or one of values, takes itself; if it is an array, it takes arrays of narrower items as well. -/
theorem Widens.eq_or_items (h : t.Widens s) (hbases : s.hasOpenBases = true)
    (ht : t.isSealed = true ∨ t.isValueType = true) :
    t = s ∨ ∃ element item rank, t = .array element rank ∧ s = .array item rank ∧ item.isValueType = false ∧
      element.Widens item := by
  have hclass := hasClassBases_of_hasOpenBases s hbases
  cases h with
  | refl => exact .inl rfl
  | object => simp [isSealed, Ty.isValueType] at ht
  | array hitem h => exact .inr ⟨_, _, _, rfl, rfl, hitem, h⟩
  | interface hinterface => simp [isOpen_of_isInterface hinterface] at ht
  | ancestor _ _ hmem =>
    simp [isSealed_of_mem_ancestors hmem hbases, isValueType_of_mem_ancestors hmem hclass] at ht

/-- What is wider than an array is an array of wider elements, or `object`. -/
theorem Widens.of_array {rank : Nat} (h : t.Widens (.array s rank)) :
    t = .object ∨ ∃ element, t = .array element rank ∧ element.Widens s := by
  cases h with
  | refl => exact .inr ⟨s, rfl, .refl⟩
  | object => exact .inl rfl
  | array _ h => exact .inr ⟨_, rfl, h⟩
  | interface _ h => cases h
  | ancestor _ _ h => exact .inl (List.mem_singleton.1 h)

/-- Only the nullable itself and `object` are wider than a nullable. -/
theorem Widens.of_nullable (h : t.Widens (.nullable s)) : t = .object ∨ t = .nullable s := by
  cases h with
  | refl => exact .inr rfl
  | object => exact .inl rfl
  | interface _ h => cases h
  | ancestor _ _ h => exact .inl (List.mem_singleton.1 h)

theorem widens_void_iff : t.Widens .void ↔ t = .void := by
  refine ⟨fun h => ?_, fun h => h ▸ .refl⟩
  cases h with
  | refl => rfl
  | object h => exact absurd rfl h
  | interface _ h | ancestor _ _ h => cases h

/-! ### Instances -/

/-- A value of the exact type may be the value of an expression of the declared type. -/
def Holds (declared exact : Ty) : Prop := declared.Widens exact ∨ declared.underlying = exact

variable {declared exact target : Ty}

theorem holds_void_iff : Ty.void.Holds exact ↔ exact = .void := by
  refine ⟨fun h => ?_, fun h => h ▸ .inl .refl⟩
  rcases h with h | h
  · cases h with
    | refl => rfl
    | interface h => cases h
    | ancestor _ h => exact absurd rfl h
  · exact h.symm

/-- A type that is not nullable holds what it is wider than. A nullable holds what it wraps, and instances of the nullable
itself if there are any. -/
theorem Holds.cases (h : declared.Holds exact) (hbases : exact.hasOpenBases = true) :
    (declared.isNullable = false ∧ declared.underlying = declared ∧ declared.Widens exact) ∨
      ∃ inner, declared = .nullable inner ∧ (exact = inner ∨ exact = .nullable inner) := by
  cases declared with
  | nullable inner =>
    refine .inr ⟨inner, rfl, ?_⟩
    rcases h with h | h
    · rcases h.eq_or_items hbases (.inl rfl) with h | ⟨_, _, _, h, _⟩
      · exact .inr h.symm
      · cases h
    · exact .inl h.symm
  | _ =>
    refine .inl ⟨rfl, rfl, ?_⟩
    rcases h with h | rfl
    · exact h
    · exact .refl

/-- **Misjudged values**, by the declared type of the operand and the exact type of the value. They are arrays of items that
are narrower than declared and as narrow as asked for; and, where values may have such types at all, what is exactly of
a nullable type and what is exactly of type `void`. -/
inductive Misjudged (target : Ty) : Ty → Ty → Prop where
  /-- An array whose items are narrower than the elements of the declared type. -/
  | array {element item wanted : Ty} {rank : Nat} : target.underlying = .array wanted rank → wanted.Widens item →
      ¬ wanted.Widens element → Misjudged target (.array element rank) (.array item rank)
  /-- An instance of a nullable type that was not unwrapped. -/
  | boxed {inner : Ty} : target.underlying.Widens inner → ¬ target.underlying.Widens (.nullable inner) →
      Misjudged target (.nullable inner) (.nullable inner)
  /-- An instance of `void`. -/
  | void : target.underlying = .void → Misjudged target .void .void

/-- Values of a narrow type are instances of what is wider than the type, unless misjudged. -/
theorem widens_iff_not_misjudged (hheld : declared.Holds exact) (hbases : exact.hasOpenBases = true)
    (hvoid : declared ≠ .void) (hwider : target.underlying.Widens declared.underlying) :
    target.underlying.Widens exact ↔ ¬ Misjudged target declared exact := by
  rcases hheld.cases hbases with ⟨hnullable, hsource, hdeclared⟩ | ⟨inner, rfl, rfl | rfl⟩
  · rw [hsource] at hwider
    refine iff_of_true (hwider.trans hdeclared (hasClassBases_of_hasOpenBases exact hbases)) fun h => ?_
    cases h with
    | array htarget _ hnot =>
      rw [htarget] at hwider
      rcases hwider.of_array with h | ⟨wanted, h, hwanted⟩
      · cases h
      · cases h
        exact hnot hwanted
    | boxed => cases hnullable
    | void => exact hvoid rfl
  · refine iff_of_true hwider fun h => ?_
    cases h
  · refine ⟨fun h hmisjudged => ?_, fun h => ?_⟩
    · cases hmisjudged with
      | boxed _ hnot => exact hnot h
    · by_contra hnot
      exact h (.boxed hwider hnot)

/-- Values of a sealed type are no instances of what is not wider than the type, unless misjudged. -/
theorem widens_iff_misjudged (hheld : declared.Holds exact) (hbases : exact.hasOpenBases = true)
    (hvoid : declared ≠ .void) (hnot : ¬ target.underlying.Widens declared.underlying)
    (hsealed : declared.underlying.isSealed = true) (hgeneric : target.underlying.isGeneric = false) :
    target.underlying.Widens exact ↔ Misjudged target declared exact := by
  have hobject : target.underlying ≠ .object := by
    intro h
    refine hnot (h ▸ .object fun hsource => ?_)
    cases hsource ▸ hsealed
  rcases hheld.cases hbases with ⟨hnullable, hsource, hdeclared⟩ | ⟨inner, rfl, rfl | rfl⟩
  · rw [hsource] at hnot hsealed
    rcases hdeclared.eq_or_items hbases (.inl hsealed) with rfl | ⟨element, item, rank, rfl, rfl, hitem, helement⟩
    · refine iff_of_false hnot fun h => ?_
      cases h with
      | array _ hwanted h => exact h hwanted
      | boxed => cases hnullable
      | void => exact hvoid rfl
    -- The one case in which a sealed type has narrower values: arrays of references.
    · refine ⟨fun h => ?_, fun h => ?_⟩
      · obtain ⟨wanted, htarget, hwanted⟩ := h.of_array.resolve_left hobject
        refine .array htarget hwanted fun h => hnot ?_
        have hreferences := helement.isValueType hitem (hasClassBases_of_hasOpenBases item hbases)
        exact htarget ▸ .array hreferences h
      · cases h with
        | array htarget hwanted => exact htarget ▸ .array hitem hwanted
  · refine iff_of_false hnot fun h => ?_
    cases h
  · refine iff_of_false (fun h => ?_) fun h => ?_
    · cases h.of_nullable.resolve_left hobject ▸ hgeneric
    · cases h with
      | boxed h => exact hnot h

end Ty

namespace Value

variable {v : Value} {ty : Ty}

/-- The value is an instance of the type, whether the type is asked for as a nullable or not. -/
def isInstanceOf (v : Value) (target : Ty) : Bool := v.runtimeType?.any target.underlying.assignableFrom

theorem isInstanceOf_of_runtimeType {exact : Ty} (h : v.runtimeType? = some exact) :
    v.isInstanceOf ty = ty.underlying.assignableFrom exact := by
  rw [isInstanceOf, h, Option.any_some]

theorem isInstanceOf_of_null (h : v.runtimeType? = none) : v.isInstanceOf ty = false := by
  rw [isInstanceOf, h, Option.any_none]

theorem isNull_iff : v.isNull = true ↔ v.runtimeType? = none := by
  cases v <;> simp [isNull, runtimeType?]

end Value

/-- **What the operand may be**: a value that is compatible with the static type, and null, or not null, where the facts say
so. -/
structure Facts.Allows (facts : Facts) (operand : Expr) (v : Value) : Prop where
  /-- The value is compatible with the static type. -/
  compatible : v.isCompatible operand.ty = true
  /-- What is always null is null. -/
  null : facts.isAlwaysNull operand = true → v.isNull = true
  /-- What is never null is not null. -/
  present : facts.isNeverNull operand = true → v.isNull = false

namespace Optimizer

variable {σ κ : Type} {o : Optimizer σ κ} {operand : Expr} {target : Ty} {b : Bool}

/-- What the decision of a test rests on. -/
inductive Decides (o : Optimizer σ κ) (operand : Expr) (target : Ty) : Bool → Prop where
  /-- The operand has no value. -/
  | void : operand.ty = .void → o.Decides operand target false
  /-- The operand is null. -/
  | null : o.facts.isAlwaysNull operand = true → o.Decides operand target false
  /-- The target is wider than the operand, which is not null. -/
  | wider : operand.ty ≠ .void → target.underlying.Widens operand.ty.underlying →
      operand.ty.isPlainValueType = true ∨ o.facts.isNeverNull operand = true → o.Decides operand target true
  /-- The target is not wider than the operand, whose type is sealed. -/
  | apart : operand.ty ≠ .void → ¬ target.underlying.Widens operand.ty.underlying →
      operand.ty.underlying.isSealed = true → target.underlying.isGeneric = false → o.Decides operand target false

theorem decides_of_isInstance? (h : o.isInstance? operand target = some b) : o.Decides operand target b := by
  unfold isInstance? at h
  dsimp only at h
  split at h
  · next hvoid => exact Option.some.inj h ▸ .void (by simpa using hvoid)
  next hvoid =>
  have hvoid : operand.ty ≠ .void := by simpa using hvoid
  split at h
  · next hwider =>
    rw [Ty.assignableFrom_iff] at hwider
    split at h
    · next hplain => exact Option.some.inj h ▸ .wider hvoid hwider (.inl hplain)
    split at h
    · next hnull => exact Option.some.inj h ▸ .null hnull
    split at h
    · next hpresent => exact Option.some.inj h ▸ .wider hvoid hwider (.inr hpresent)
    · cases h
  · next hnot =>
    rw [Ty.assignableFrom_iff] at hnot
    split at h
    · next hnull => exact Option.some.inj h ▸ .null hnull
    split at h
    · next hsealed =>
      simp only [Bool.and_eq_true, Bool.not_eq_true'] at hsealed
      exact Option.some.inj h ▸ .apart hvoid hnot hsealed.1.1 hsealed.2
    · cases h

/-- A test that became a truth value was decided. -/
theorem isInstance?_of_rule {again : Expr → Context → Run σ Expr} {node : Expr} {cx : Context} {s s' : Progress σ}
    (hform : node.form = .typeTest operand target .isInstance) (hthrows : o.facts.alwaysThrows operand = false)
    (hrun : o.rule again node cx s = .ok (.boolean b) s') : o.isInstance? operand target = some b := by
  have hnode : node ≠ .boolean b := by
    rintro rfl
    cases hform
  rw [rule, hform] at hrun
  simp only [typeTest, hthrows, Bool.false_eq_true, if_false] at hrun
  split at hrun
  · cases hdecided : o.isInstance? operand target with
    | none =>
      rw [hdecided] at hrun
      cases hrun
      exact absurd rfl hnode
    | some d =>
      rw [hdecided] at hrun
      cases hrun
      rfl
  · cases hrun
    exact absurd rfl hnode

/-- A decision about null is that it is no instance. -/
theorem Decides.eq_false_of_null {v : Value} (h : o.Decides operand target b) (allowed : o.facts.Allows operand v)
    (hv : v.runtimeType? = none) : b = false := by
  cases h with
  | void | null | apart => rfl
  | wider _ _ hpresent =>
    rcases hpresent with hplain | hpresent
    · have hadmits := (Value.isCompatible_of_null hv).symm.trans allowed.compatible
      simp [Ty.admitsNull, hplain] at hadmits
    · cases (Value.isNull_iff.2 hv).symm.trans (allowed.present hpresent)

/-- A decision about a value that is not null is right unless the value is misjudged. -/
theorem Decides.eq_assignableFrom_iff {v : Value} {exact : Ty} (h : o.Decides operand target b)
    (allowed : o.facts.Allows operand v) (hv : v.runtimeType? = some exact) (hbases : exact.hasOpenBases = true) :
    b = target.underlying.assignableFrom exact ↔ ¬ Ty.Misjudged target operand.ty exact := by
  have hheld : operand.ty.Holds exact := (Value.isCompatible_of_runtimeType hv).1 allowed.compatible
  cases h with
  | void hvoid =>
    rw [hvoid, Ty.holds_void_iff] at hheld
    rw [hvoid, hheld, eq_comm, ← Bool.not_eq_true, Ty.assignableFrom_iff, Ty.widens_void_iff, not_iff_not]
    refine ⟨.void, fun hmisjudged => ?_⟩
    cases hmisjudged with
    | void h => exact h
  | null hnull => cases hv.symm.trans (Value.isNull_iff.1 (allowed.null hnull))
  | wider hvoid hwider =>
    rw [eq_comm, Ty.assignableFrom_iff]
    exact Ty.widens_iff_not_misjudged hheld hbases hvoid hwider
  | apart hvoid hnot hsealed hgeneric =>
    rw [eq_comm, ← Bool.not_eq_true, Ty.assignableFrom_iff, not_iff_not]
    exact Ty.widens_iff_misjudged hheld hbases hvoid hnot hsealed hgeneric

end Optimizer

/-- **Decided instance tests**: when a test becomes a truth value, that is the right one for every value that the operand may
have, except for the misjudged values, for which it is wrong. The exact types of values have open bases. -/
theorem decided_test_right_iff {σ κ : Type} (o : Optimizer σ κ) (again : Expr → Context → Run σ Expr) (node operand : Expr)
    (target : Ty) (cx : Context) (s s' : Progress σ) (b : Bool)
    (hform : node.form = .typeTest operand target .isInstance) (hthrows : o.facts.alwaysThrows operand = false)
    (hrun : o.rule again node cx s = .ok (.boolean b) s') (v : Value) (allowed : o.facts.Allows operand v)
    (bases : ∀ exact, v.runtimeType? = some exact → exact.hasOpenBases = true) :
    b = v.isInstanceOf target ↔ ∀ exact, v.runtimeType? = some exact → ¬ Ty.Misjudged target operand.ty exact := by
  have hdecided := Optimizer.decides_of_isInstance? (Optimizer.isInstance?_of_rule hform hthrows hrun)
  cases hv : v.runtimeType? with
  | none =>
    rw [Value.isInstanceOf_of_null hv]
    exact iff_of_true (hdecided.eq_false_of_null allowed hv) (by simp)
  | some exact =>
    rw [Value.isInstanceOf_of_runtimeType hv, hdecided.eq_assignableFrom_iff allowed hv (bases exact hv)]
    simp

/-! ### Arrays of narrower items -/

/-- An array of texts. -/
def arrayOfTexts : Value := .array ⟨0, .string, [1], [.string "a"]⟩

/-- The test whether the value of an expression is an array of the given elements. -/
def testForArray (operand : Expr) (element : Ty) : Fresh .node Expr :=
  Expr.typeTest operand (.array element 1) .isInstance

/-- A constant array of texts, declared as an array of objects, is an array of objects. -/
theorem decided_test_right_iff_texts :
    let operand : Expr := ⟨.made 0, .array .object 1, .constant arrayOfTexts⟩
    let node := (testForArray operand .object ⟨1⟩).1
    let s : Progress Console := ⟨⟨2⟩, ⟨⟨1⟩, .empty⟩, .empty⟩
    (∃ s', Optimizer.bare.rule Optimizer.bare.visitMade node .plain s = .ok (.boolean true) s') ∧
      Optimizer.bare.facts.Allows operand arrayOfTexts ∧ ¬ Ty.Misjudged (.array .object 1) operand.ty (.array .string 1) ∧
      true = arrayOfTexts.isInstanceOf (.array .object 1) := by
  intro operand node s
  have allowed : Optimizer.bare.facts.Allows operand arrayOfTexts := ⟨by decide, by decide, by decide⟩
  have hright : ¬ Ty.Misjudged (.array .object 1) operand.ty (.array .string 1) := by
    intro h
    cases h with
    | array htarget _ hnot =>
      cases htarget
      exact hnot .refl
  have hrun : ∃ s', Optimizer.bare.rule Optimizer.bare.visitMade node .plain s = .ok (.boolean true) s' := ⟨_, rfl⟩
  obtain ⟨s', hs'⟩ := hrun
  refine ⟨⟨s', hs'⟩, allowed, hright, ?_⟩
  refine (decided_test_right_iff Optimizer.bare _ node operand _ _ s s' true rfl rfl hs' arrayOfTexts allowed ?_).2 ?_
  · rintro exact ⟨⟩
    rfl
  · rintro exact ⟨⟩
    exact hright

/-- The same constant is decided not to be an array of texts, and is one. -/
theorem decided_test_wrong :
    let operand : Expr := ⟨.made 0, .array .object 1, .constant arrayOfTexts⟩
    let node := (testForArray operand .string ⟨1⟩).1
    let s : Progress Console := ⟨⟨2⟩, ⟨⟨1⟩, .empty⟩, .empty⟩
    (∃ s', Optimizer.bare.optimize node s = .ok (.boolean false) s') ∧ Optimizer.bare.facts.Allows operand arrayOfTexts ∧
      (Ty.array .string 1).hasOpenBases = true ∧ arrayOfTexts.runtimeType? = some (.array .string 1) ∧
      arrayOfTexts.isInstanceOf (.array .string 1) = true := by
  intro operand node s
  have hrun : ∃ s', Optimizer.bare.optimize node s = .ok (.boolean false) s' := ⟨_, rfl⟩
  exact ⟨hrun, ⟨by decide, by decide, by decide⟩, rfl, rfl, by decide⟩

end TypedTree
